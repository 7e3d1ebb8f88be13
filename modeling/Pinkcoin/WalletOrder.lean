/-
`CWalletDB::ReorderTransactions`: the transactions of a wallet and its
accounting entries get positions in one order. An item without a position is
put above everything received before it, and those that are above its place
are moved up as they are come to.
-/
import Mathlib.Data.List.Sort
import Pinkcoin.Lib.Slots
import Pinkcoin.Types

namespace Pinkcoin

/-! ## The wallet -/

/-- `CWalletTx`, as far as it is ordered. -/
structure OrderedTx where
  hash : Uint256
  nTimeReceived : Nat
  nOrderPos : Int
  deriving DecidableEq

/-- `CAccountingEntry`, as far as it is ordered. -/
structure CAccountingEntry where
  strAccount : List Char
  nEntryNo : Nat
  nTime : Int
  nOrderPos : Int
  deriving DecidableEq

/-- `TxPair`: one of the two. -/
inductive TxPair
  | tx (pwtx : OrderedTx)
  | entry (pacentry : CAccountingEntry)
  deriving DecidableEq

namespace TxPair

def time : TxPair → Int
  | tx pwtx => pwtx.nTimeReceived
  | entry pacentry => pacentry.nTime

def nOrderPos : TxPair → Int
  | tx pwtx => pwtx.nOrderPos
  | entry pacentry => pacentry.nOrderPos

def setOrderPos (nOrderPos : Int) : TxPair → TxPair
  | tx pwtx => tx { pwtx with nOrderPos := nOrderPos }
  | entry pacentry => entry { pacentry with nOrderPos := nOrderPos }

/-- The key of an item, in `mapWallet` or in the database. -/
def key : TxPair → Uint256 ⊕ (List Char × Nat)
  | tx pwtx => .inl pwtx.hash
  | entry pacentry => .inr (pacentry.strAccount, pacentry.nEntryNo)

def tx? : TxPair → Option OrderedTx
  | tx pwtx => some pwtx
  | entry _ => none

def entry? : TxPair → Option CAccountingEntry
  | tx _ => none
  | entry pacentry => some pacentry

/-- The position of an item that has one. -/
def position? (it : TxPair) : Option Int := if it.nOrderPos = -1 then none else some it.nOrderPos

/-- An item has a position. -/
def Ordered (it : TxPair) : Prop := it.nOrderPos ≠ -1

instance (it : TxPair) : Decidable it.Ordered := inferInstanceAs (Decidable (_ ≠ _))

variable {it : TxPair} {nOrderPos : Int}

@[simp] theorem nOrderPos_setOrderPos : (it.setOrderPos nOrderPos).nOrderPos = nOrderPos := by
  cases it <;> rfl

@[simp] theorem key_setOrderPos : (it.setOrderPos nOrderPos).key = it.key := by
  cases it <;> rfl

end TxPair

/-- The transactions of a wallet, the accounting entries of its database, and
the position of the next item. -/
structure OrderWallet where
  mapWallet : List OrderedTx
  acentries : List CAccountingEntry
  nOrderPosNext : Int
  deriving DecidableEq

namespace OrderWallet

/-- `ListAccountCreditDebit`: the entries of an account, or of all. -/
def listAccountCreditDebit (strAccount : List Char) (w : OrderWallet) : List CAccountingEntry :=
  w.acentries.filter fun acentry => strAccount = ['*'] ∨ acentry.strAccount = strAccount

/-- Every transaction and every entry of every account. -/
def items (w : OrderWallet) : List TxPair := w.mapWallet.map .tx ++ w.acentries.map .entry

/-- The transactions, and the entries of the account without a name. -/
def listed (w : OrderWallet) : List TxPair :=
  w.mapWallet.map .tx ++ (w.listAccountCreditDebit []).map .entry

/-- `txByTime`. Items of one time stay in the order they are inserted in. -/
def txByTime (w : OrderWallet) : List TxPair := w.listed.insertionSort fun a b => a.time ≤ b.time

/-- The entries that are not looked at: those of an account with a name. -/
def others (w : OrderWallet) : List CAccountingEntry := w.acentries.filter fun acentry => acentry.strAccount ≠ []

/-- The loop of `ReorderTransactions`. An item that is moved is written, which
can fail. -/
def reorderLoop (written : TxPair → Bool) : Int → List Int → List TxPair → Option (List TxPair × Int)
  | nOrderPosNext, _, [] => some ([], nOrderPosNext)
  | nOrderPosNext, nOrderPosOffsets, it :: rest =>
    if it.nOrderPos = -1 then
      let it := it.setOrderPos nOrderPosNext
      if written it then
        (reorderLoop written (nOrderPosNext + 1) (nOrderPosOffsets ++ [nOrderPosNext]) rest).map
          fun r => (it :: r.1, r.2)
      else none
    else
      let nOrderPosOff : Int := nOrderPosOffsets.countP fun nOffsetStart => nOffsetStart ≤ it.nOrderPos
      let it := it.setOrderPos (it.nOrderPos + nOrderPosOff)
      if nOrderPosOff = 0 ∨ written it then
        (reorderLoop written (max nOrderPosNext (it.nOrderPos + 1)) nOrderPosOffsets rest).map fun r => (it :: r.1, r.2)
      else none

/-- `ReorderTransactions`, the wallet it leaves when it succeeds. -/
def reorderTransactions (written : TxPair → Bool) (w : OrderWallet) : Option OrderWallet :=
  (reorderLoop written 0 [] w.txByTime).map fun r =>
    { mapWallet := r.1.filterMap TxPair.tx?
      acentries := r.1.filterMap TxPair.entry? ++ w.others
      nOrderPosNext := r.2 }

end OrderWallet

/-! ## What a reordering is for -/

/-- The items of a wallet have positions of their own below the next one;
those that had one before keep their order, and one that had none comes after
the ones with a position that were received before it. -/
structure Reordered (w w' : OrderWallet) : Prop where
  distinct : (w'.items.map TxPair.nOrderPos).Nodup
  range : ∀ it ∈ w'.items, 0 ≤ it.nOrderPos ∧ it.nOrderPos < w'.nOrderPosNext
  order : ∀ a ∈ w.items, ∀ b ∈ w.items, a.Ordered → b.Ordered → a.nOrderPos < b.nOrderPos →
    ∀ a' ∈ w'.items, ∀ b' ∈ w'.items, a'.key = a.key → b'.key = b.key → a'.nOrderPos < b'.nOrderPos
  after : ∀ a ∈ w.items, ∀ b ∈ w.items, a.Ordered → ¬ b.Ordered → a.time < b.time →
    ∀ a' ∈ w'.items, ∀ b' ∈ w'.items, a'.key = a.key → b'.key = b.key → a'.nOrderPos < b'.nOrderPos

/-! ## When the positions fit -/

namespace OrderWallet

/-- The places of the items that have none: each is one above all received
before it. -/
def slots (w : OrderWallet) : List (TxPair × Int) := Slots.placing TxPair.position? [] [] w.txByTime

/-- The place a position is moved to by the slots up to it. -/
def place (w : OrderWallet) (nOrderPos : Int) : Int := Slots.shift (w.slots.map Prod.snd) nOrderPos

/-- An entry of an account with a name, which stays where it is, is not in the
way of the others. -/
structure Clear (w : OrderWallet) (e : CAccountingEntry) : Prop where
  nonneg : 0 ≤ e.nOrderPos
  slot : e.nOrderPos ∉ w.slots.map Prod.snd
  below : (∃ o ∈ w.slots.map Prod.snd, e.nOrderPos < o) ∨
    ∃ it ∈ w.txByTime, it.Ordered ∧ e.nOrderPos < w.place it.nOrderPos
  kept : ∀ it ∈ w.txByTime, it.Ordered → it.nOrderPos < e.nOrderPos → w.place it.nOrderPos < e.nOrderPos
  later : ∀ b ∈ w.slots, e.nTime < b.1.time → e.nOrderPos < b.2

/-- No position is moved onto a slot, and the entries of the accounts with a
name are clear of all. -/
structure Fits (w : OrderWallet) : Prop where
  nonneg : ∀ it ∈ w.txByTime, it.Ordered → 0 ≤ it.nOrderPos
  apart : ∀ it ∈ w.txByTime, it.Ordered → w.place it.nOrderPos ∉ w.slots.map Prod.snd
  others : ∀ e ∈ w.others, w.Clear e

end OrderWallet

/-! ## The loop -/

open Slots OrderWallet

variable {written : TxPair → Bool} {w w' : OrderWallet} {l : List TxPair} {zs all : List (TxPair × TxPair)}
  {slots : List (TxPair × Int)} {ordered : List Int} {next : Int} {r : List TxPair × Int}

/-- The slots of items beside what became of them. -/
def slotsOf (zs : List (TxPair × TxPair)) : List (TxPair × Int) :=
  (zs.filter fun z => ¬ z.1.Ordered).map fun z => (z.1, z.2.nOrderPos)

/-- What the loop does to items, each beside what becomes of it. -/
structure Repositioned (slots : List (TxPair × Int)) (ordered : List Int) (l : List TxPair)
    (zs : List (TxPair × TxPair)) (next : Int) : Prop where
  next : next = max (ceiling (slots.map Prod.snd) ordered) (above (zs.map fun z => z.2.nOrderPos))
  placed : placing TxPair.position? slots ordered l = slots ++ slotsOf zs
  item : ∀ z ∈ zs, z.2 = z.1.setOrderPos z.2.nOrderPos
  shifted : ∀ z ∈ zs, z.1.Ordered →
    z.2.nOrderPos = shift ((placing TxPair.position? slots ordered l).map Prod.snd) z.1.nOrderPos
  later : ∀ z ∈ zs, ¬ z.1.Ordered → ceiling (slots.map Prod.snd) ordered ≤ z.2.nOrderPos
  rising : zs.Pairwise fun y z => ¬ z.1.Ordered → y.2.nOrderPos < z.2.nOrderPos

theorem repositioned_nil : Repositioned slots ordered [] [] (ceiling (slots.map Prod.snd) ordered) where
  next := (max_eq_left ceiling_nonneg).symm
  placed := (List.append_nil slots).symm
  item := fun _ hz => nomatch hz
  shifted := fun _ hz => nomatch hz
  later := fun _ hz => nomatch hz
  rising := .nil

section

variable {it : TxPair}

theorem slotsOf_cons {z : TxPair × TxPair} :
    slotsOf (z :: zs) = if z.1.Ordered then slotsOf zs else (z.1, z.2.nOrderPos) :: slotsOf zs := by
  by_cases hord : z.1.Ordered
  · simp [slotsOf, hord]
  · simp [slotsOf, hord]

theorem placing_unordered (hit : ¬ it.Ordered) : placing TxPair.position? slots ordered (it :: l) =
    placing TxPair.position? (slots ++ [(it, ceiling (slots.map Prod.snd) ordered)]) ordered l := by
  have hpos : it.position? = none := if_pos (not_not.mp hit)
  simp only [placing, hpos]

theorem placing_ordered (hit : it.Ordered) : placing TxPair.position? slots ordered (it :: l) =
    placing TxPair.position? slots (it.nOrderPos :: ordered) l := by
  have hpos : it.position? = some it.nOrderPos := if_neg hit
  simp only [placing, hpos]

theorem ceiling_slot : ceiling ((slots ++ [(it, ceiling (slots.map Prod.snd) ordered)]).map Prod.snd) ordered =
    ceiling (slots.map Prod.snd) ordered + 1 := by
  rw [List.map_append]
  exact ceiling_append

/-- An item without a position takes the next one. -/
theorem Repositioned.take (hit : ¬ it.Ordered)
    (h : Repositioned (slots ++ [(it, ceiling (slots.map Prod.snd) ordered)]) ordered l zs next) :
    Repositioned slots ordered (it :: l) ((it, it.setOrderPos (ceiling (slots.map Prod.snd) ordered)) :: zs) next := by
  have hlater := h.later
  have hnext := h.next
  rw [ceiling_slot] at hlater hnext
  refine ⟨?_, ?_, ?_, ?_, ?_, ?_⟩
  · rw [hnext, List.map_cons, above_cons, TxPair.nOrderPos_setOrderPos]
    omega
  · rw [placing_unordered hit, h.placed, slotsOf_cons, if_neg hit, List.append_assoc]
    simp
  · intro z hz
    rcases List.mem_cons.mp hz with rfl | hz
    · simp
    · exact h.item z hz
  · intro z hz hord
    rw [placing_unordered hit]
    rcases List.mem_cons.mp hz with rfl | hz
    · exact absurd hord hit
    · exact h.shifted z hz hord
  · intro z hz hord
    rcases List.mem_cons.mp hz with rfl | hz
    · simp
    · have hle := hlater z hz hord
      omega
  · refine .cons ?_ h.rising
    intro z hz hord
    have hle := hlater z hz hord
    simp only [TxPair.nOrderPos_setOrderPos]
    omega

/-- An item with a position is moved by the slots so far, those to come being
above it. -/
theorem Repositioned.move (hit : it.Ordered) (h : Repositioned slots (it.nOrderPos :: ordered) l zs next) :
    Repositioned slots ordered (it :: l)
      ((it, it.setOrderPos (shift (slots.map Prod.snd) it.nOrderPos)) :: zs) next := by
  have hlater := h.later
  have hnext := h.next
  rw [ceiling_cons] at hlater hnext
  refine ⟨?_, ?_, ?_, ?_, ?_, ?_⟩
  · rw [hnext, List.map_cons, above_cons, TxPair.nOrderPos_setOrderPos, max_assoc]
  · rw [placing_ordered hit, h.placed, slotsOf_cons, if_pos hit]
  · intro z hz
    rcases List.mem_cons.mp hz with rfl | hz
    · simp
    · exact h.item z hz
  · intro z hz hord
    rw [placing_ordered hit]
    rcases List.mem_cons.mp hz with rfl | hz
    · rw [shift_placing (List.mem_cons_self ..)]
      simp
    · exact h.shifted z hz hord
  · intro z hz hord
    rcases List.mem_cons.mp hz with rfl | hz
    · exact absurd hit hord
    · have hle := hlater z hz hord
      omega
  · refine .cons ?_ h.rising
    intro z hz hord
    have hle := hlater z hz hord
    simp only [TxPair.nOrderPos_setOrderPos]
    omega

end

/-- **The loop puts items without a position on the slots and moves the others
by them.** -/
theorem reorderLoop_repositioned
    (h : reorderLoop written (ceiling (slots.map Prod.snd) ordered) (slots.map Prod.snd) l = some r) :
    ∃ zs, l = zs.map Prod.fst ∧ r.1 = zs.map Prod.snd ∧ Repositioned slots ordered l zs r.2 := by
  induction l generalizing slots ordered r with
  | nil =>
    obtain rfl := Option.some.inj h
    exact ⟨[], rfl, rfl, repositioned_nil⟩
  | cons it rest ih =>
    by_cases hit : it.Ordered
    · have hceiling : max (ceiling (slots.map Prod.snd) ordered) (shift (slots.map Prod.snd) it.nOrderPos + 1) =
          ceiling (slots.map Prod.snd) (it.nOrderPos :: ordered) := ceiling_cons.symm
      simp only [reorderLoop, if_neg hit, TxPair.nOrderPos_setOrderPos] at h
      split at h
      · obtain ⟨r', hrun, rfl⟩ := Option.map_eq_some_iff.mp h
        rw [← shift, hceiling] at hrun
        obtain ⟨zs, hl, hr, hmoved⟩ := ih hrun
        exact ⟨(it, _) :: zs, congrArg (it :: ·) hl, congrArg (_ :: ·) hr, hmoved.move hit⟩
      · cases h
    · simp only [reorderLoop, if_pos (not_not.mp hit)] at h
      split at h
      · obtain ⟨r', hrun, rfl⟩ := Option.map_eq_some_iff.mp h
        have hslots : slots.map Prod.snd ++ [ceiling (slots.map Prod.snd) ordered] =
            (slots ++ [(it, ceiling (slots.map Prod.snd) ordered)]).map Prod.snd := by simp
        rw [hslots, ← @ceiling_slot slots ordered it] at hrun
        obtain ⟨zs, hl, hr, hmoved⟩ := ih hrun
        exact ⟨(it, _) :: zs, congrArg (it :: ·) hl, congrArg (_ :: ·) hr, hmoved.take hit⟩
      · cases h

/-! ## Items beside what becomes of them -/

/-- The items of a wallet, each beside what it is in another. -/
structure Tracked (w w' : OrderWallet) (all : List (TxPair × TxPair)) : Prop where
  before : (all.map Prod.fst).Perm w.items
  after : (all.map Prod.snd).Perm w'.items
  key : ∀ z ∈ all, z.2.key = z.1.key

/-- What `Reordered` asks of items beside what they become. -/
structure WellPlaced (all : List (TxPair × TxPair)) (next : Int) : Prop where
  distinct : ∀ y ∈ all, ∀ z ∈ all, y.2.nOrderPos = z.2.nOrderPos → y = z
  range : ∀ z ∈ all, 0 ≤ z.2.nOrderPos ∧ z.2.nOrderPos < next
  order : ∀ y ∈ all, ∀ z ∈ all, y.1.Ordered → z.1.Ordered → y.1.nOrderPos < z.1.nOrderPos →
    y.2.nOrderPos < z.2.nOrderPos
  after : ∀ y ∈ all, ∀ z ∈ all, y.1.Ordered → ¬ z.1.Ordered → y.1.time < z.1.time →
    y.2.nOrderPos < z.2.nOrderPos

namespace Tracked

variable {y z : TxPair × TxPair}

theorem fst_mem (h : Tracked w w' all) (hz : z ∈ all) : z.1 ∈ w.items :=
  h.before.mem_iff.mp (List.mem_map_of_mem hz)

theorem snd_mem (h : Tracked w w' all) (hz : z ∈ all) : z.2 ∈ w'.items :=
  h.after.mem_iff.mp (List.mem_map_of_mem hz)

theorem key_inj (h : Tracked w w' all) (hkeys : (w.items.map TxPair.key).Nodup) (hy : y ∈ all) (hz : z ∈ all)
    (hkey : y.1.key = z.1.key) : y = z := by
  have hnodup : (all.map fun z => z.1.key).Nodup := by
    rw [← (h.before.map TxPair.key).nodup_iff, List.map_map] at hkeys
    exact hkeys
  exact List.inj_on_of_nodup_map hnodup hy hz hkey

theorem nodup (h : Tracked w w' all) (hkeys : (w.items.map TxPair.key).Nodup) : all.Nodup := by
  rw [← (h.before.map TxPair.key).nodup_iff, List.map_map] at hkeys
  exact hkeys.of_map

/-- Two items of one key stand beside each other. -/
theorem pair_mem (h : Tracked w w' all) (hkeys : (w.items.map TxPair.key).Nodup) {a a' : TxPair}
    (ha : a ∈ w.items) (ha' : a' ∈ w'.items) (hkey : a'.key = a.key) : (a, a') ∈ all := by
  obtain ⟨y, hy, rfl⟩ := List.mem_map.mp (h.before.mem_iff.mpr ha)
  obtain ⟨z, hz, rfl⟩ := List.mem_map.mp (h.after.mem_iff.mpr ha')
  have hyz : y = z := h.key_inj hkeys hy hz (hkey.symm.trans (h.key z hz))
  rw [hyz]
  exact hz

theorem reordered_iff (h : Tracked w w' all) (hkeys : (w.items.map TxPair.key).Nodup) :
    Reordered w w' ↔ WellPlaced all w'.nOrderPosNext := by
  have hmap : (all.map fun z => z.2.nOrderPos).Perm (w'.items.map TxPair.nOrderPos) := by
    have hperm := h.after.map TxPair.nOrderPos
    rw [List.map_map] at hperm
    exact hperm
  refine ⟨fun hre => ⟨?_, ?_, ?_, ?_⟩, fun hwell => ⟨?_, ?_, ?_, ?_⟩⟩
  · intro y hy z hz heq
    exact List.inj_on_of_nodup_map (hmap.nodup_iff.mpr hre.distinct) hy hz heq
  · exact fun z hz => hre.range z.2 (h.snd_mem hz)
  · intro y hy z hz hyo hzo hlt
    exact hre.order y.1 (h.fst_mem hy) z.1 (h.fst_mem hz) hyo hzo hlt y.2 (h.snd_mem hy) z.2 (h.snd_mem hz)
      (h.key y hy) (h.key z hz)
  · intro y hy z hz hyo hzo hlt
    exact hre.after y.1 (h.fst_mem hy) z.1 (h.fst_mem hz) hyo hzo hlt y.2 (h.snd_mem hy) z.2 (h.snd_mem hz)
      (h.key y hy) (h.key z hz)
  · exact hmap.nodup_iff.mp ((h.nodup hkeys).map_on hwell.distinct)
  · intro it hit
    obtain ⟨z, hz, rfl⟩ := List.mem_map.mp (h.after.mem_iff.mpr hit)
    exact hwell.range z hz
  · intro a ha b hb hao hbo hlt a' ha' b' hb' hkeya hkeyb
    exact hwell.order _ (h.pair_mem hkeys ha ha' hkeya) _ (h.pair_mem hkeys hb hb' hkeyb) hao hbo hlt
  · intro a ha b hb hao hbo hlt a' ha' b' hb' hkeya hkeyb
    exact hwell.after _ (h.pair_mem hkeys ha ha' hkeya) _ (h.pair_mem hkeys hb hb' hkeyb) hao hbo hlt

end Tracked

/-- The entries that are not looked at, beside themselves. -/
def kept (w : OrderWallet) : List (TxPair × TxPair) := w.others.map fun e => (.entry e, .entry e)

open scoped List in
theorem items_perm : w.items ~ w.txByTime ++ w.others.map .entry := by
  have hentries : w.acentries.Perm (w.listAccountCreditDebit [] ++ w.others) := by
    refine (List.filter_append_perm (fun e : CAccountingEntry => decide (e.strAccount = [])) w.acentries).symm.trans ?_
    simp [listAccountCreditDebit, others]
  have hsort : w.txByTime.Perm w.listed := List.perm_insertionSort _ _
  calc w.items
      _ = w.mapWallet.map .tx ++ w.acentries.map .entry := rfl
      _ ~ w.mapWallet.map .tx ++ (w.listAccountCreditDebit [] ++ w.others).map .entry :=
        (hentries.map _).append_left _
      _ = w.listed ++ w.others.map .entry := by simp [listed]
      _ ~ w.txByTime ++ w.others.map .entry := hsort.symm.append_right _

theorem sorted_perm (l : List TxPair) :
    l.Perm ((l.filterMap TxPair.tx?).map .tx ++ (l.filterMap TxPair.entry?).map .entry) := by
  induction l with
  | nil => exact .nil
  | cons it rest ih =>
    cases it with
    | tx pwtx => exact ih.cons _
    | entry pacentry => exact (ih.cons _).trans List.perm_middle.symm

/-- The items of the wallet a reordering leaves. -/
theorem reorderTransactions_tracked (h : reorderTransactions written w = some w') :
    ∃ zs, w.txByTime = zs.map Prod.fst ∧ Repositioned [] [] w.txByTime zs w'.nOrderPosNext ∧
      Tracked w w' (zs ++ kept w) := by
  obtain ⟨r, hrun, rfl⟩ := Option.map_eq_some_iff.mp h
  obtain ⟨zs, hl, hr, hmoved⟩ := @reorderLoop_repositioned written _ [] [] r hrun
  refine ⟨zs, hl, hmoved, ⟨?_, ?_, ?_⟩⟩
  · rw [List.map_append, ← hl]
    have hkept : (kept w).map Prod.fst = w.others.map .entry := by simp [kept]
    rw [hkept]
    exact items_perm.symm
  · rw [List.map_append, ← hr]
    have hkept : (kept w).map Prod.snd = w.others.map .entry := by simp [kept]
    rw [hkept]
    refine ((sorted_perm r.1).append_right _).trans ?_
    simp [items]
  · intro z hz
    rcases List.mem_append.mp hz with hz | hz
    · rw [hmoved.item z hz, TxPair.key_setOrderPos]
    · obtain ⟨e, -, rfl⟩ := List.mem_map.mp hz
      rfl

/-! ## The items that are listed -/

theorem rel_of_mem {α : Type} {R : α → α → Prop} {l : List α} {a b : α} (h : l.Pairwise R) (ha : a ∈ l)
    (hb : b ∈ l) : a = b ∨ R a b ∨ R b a := by
  have hsymm : Std.Symm fun a b => R a b ∨ R b a := ⟨fun _ _ => Or.symm⟩
  have hboth : l.Pairwise fun a b => R a b ∨ R b a := h.imp Or.inl
  by_cases hab : a = b
  · exact .inl hab
  · exact .inr (hboth.forall ha hb hab)

section

variable {y z : TxPair × TxPair} {n : Int} {b : TxPair × Int} {e : CAccountingEntry}

theorem slots_eq (h : Repositioned [] [] w.txByTime zs next) : w.slots = slotsOf zs := h.placed

/-- The slots are those of the items that have no position. -/
theorem mem_slots (h : Repositioned [] [] w.txByTime zs next) :
    b ∈ w.slots ↔ ∃ z ∈ zs, ¬ z.1.Ordered ∧ (z.1, z.2.nOrderPos) = b := by
  rw [slots_eq h, slotsOf, List.mem_map]
  simp only [List.mem_filter, decide_eq_true_eq, and_assoc]

theorem slot_mem (h : Repositioned [] [] w.txByTime zs next) (hz : z ∈ zs) (hord : ¬ z.1.Ordered) :
    z.2.nOrderPos ∈ w.slots.map Prod.snd :=
  List.mem_map.mpr ⟨_, (mem_slots h).mpr ⟨z, hz, hord, rfl⟩, rfl⟩

theorem of_slot_mem (h : Repositioned [] [] w.txByTime zs next) (hn : n ∈ w.slots.map Prod.snd) :
    ∃ z ∈ zs, ¬ z.1.Ordered ∧ z.2.nOrderPos = n := by
  obtain ⟨b, hb, rfl⟩ := List.mem_map.mp hn
  obtain ⟨z, hz, hord, rfl⟩ := (mem_slots h).mp hb
  exact ⟨z, hz, hord, rfl⟩

theorem place_eq (h : Repositioned [] [] w.txByTime zs next) (hz : z ∈ zs) (hord : z.1.Ordered) :
    z.2.nOrderPos = w.place z.1.nOrderPos :=
  h.shifted z hz hord

theorem slot_nonneg (h : Repositioned [] [] w.txByTime zs next) (hn : n ∈ w.slots.map Prod.snd) : 0 ≤ n := by
  obtain ⟨z, hz, hord, rfl⟩ := of_slot_mem h hn
  exact h.later z hz hord

/-- The next position is just above the items that are listed. -/
theorem lt_next_iff (h : Repositioned [] [] w.txByTime zs next) (hn : 0 ≤ n) :
    n < next ↔ ∃ z ∈ zs, n ≤ z.2.nOrderPos := by
  rw [h.next]
  change n < max 0 (above (zs.map fun z => z.2.nOrderPos)) ↔ _
  rw [max_eq_right (above_nonneg _), lt_above_iff hn]
  simp

/-- An item without a position comes after all received before it. -/
theorem received (hl : w.txByTime = zs.map Prod.fst) (h : Repositioned [] [] w.txByTime zs next)
    (hy : y ∈ zs) (hz : z ∈ zs) (hord : ¬ z.1.Ordered) (hlt : y.1.time < z.1.time) :
    y.2.nOrderPos < z.2.nOrderPos := by
  have hsorted : zs.Pairwise fun y z => y.1.time ≤ z.1.time := by
    have hpairwise := List.pairwise_insertionSort (fun a b : TxPair => a.time ≤ b.time) w.listed
    rw [← txByTime, hl, List.pairwise_map] at hpairwise
    exact hpairwise
  rcases rel_of_mem (hsorted.and h.rising) hy hz with rfl | ⟨-, hyz⟩ | ⟨hle, -⟩
  · exact absurd hlt (Int.lt_irrefl _)
  · exact hyz hord
  · exact absurd hlt (by omega)

/-- No two items are put on one slot. -/
theorem slot_inj (h : Repositioned [] [] w.txByTime zs next) (hy : y ∈ zs) (hz : z ∈ zs) (hyo : ¬ y.1.Ordered)
    (hzo : ¬ z.1.Ordered) (heq : y.2.nOrderPos = z.2.nOrderPos) : y = z := by
  rcases rel_of_mem h.rising hy hz with rfl | hlt | hlt
  · rfl
  · exact absurd (hlt hzo) (by omega)
  · exact absurd (hlt hyo) (by omega)

end

/-! ## When they are well placed -/

section

variable {y z : TxPair × TxPair} {e : CAccountingEntry}

theorem kept_mem : z ∈ kept w ↔ ∃ e ∈ w.others, (.entry e, .entry e) = z := List.mem_map

/-- The entry of an account with a name is not listed. -/
theorem not_listed (he : e ∈ w.others) : .entry e ∉ w.txByTime := by
  have hname : e.strAccount ≠ [] := by simpa [others] using (List.mem_filter.mp he).2
  intro hmem
  have hlisted : .entry e ∈ w.listed := (List.mem_insertionSort _).mp hmem
  simp [listed, listAccountCreditDebit, hname] at hlisted

theorem fst_mem_txByTime (hl : w.txByTime = zs.map Prod.fst) (hz : z ∈ zs) : z.1 ∈ w.txByTime := by
  rw [hl]
  exact List.mem_map_of_mem hz

/-- Places that are well placed fit. -/
theorem WellPlaced.fits (hl : w.txByTime = zs.map Prod.fst) (h : Repositioned [] [] w.txByTime zs next)
    (hwell : WellPlaced (zs ++ kept w) next) : w.Fits := by
  have hleft : ∀ z ∈ zs, z ∈ zs ++ kept w := fun z hz => List.mem_append_left _ hz
  have hright : ∀ e ∈ w.others, ((.entry e, .entry e) : TxPair × TxPair) ∈ zs ++ kept w :=
    fun e he => List.mem_append_right _ (kept_mem.mpr ⟨e, he, rfl⟩)
  have hlisted : ∀ it ∈ w.txByTime, ∃ z ∈ zs, z.1 = it := by
    intro it hit
    rw [hl] at hit
    exact List.mem_map.mp hit
  refine ⟨?_, ?_, ?_⟩
  · intro it hit hord
    obtain ⟨z, hz, rfl⟩ := hlisted it hit
    have hrange := (hwell.range z (hleft z hz)).1
    rw [place_eq h hz hord] at hrange
    by_contra hneg
    have hself : w.place z.1.nOrderPos = z.1.nOrderPos := by
      refine shift_eq_self fun o ho => ?_
      have hnonneg := slot_nonneg h ho
      omega
    omega
  · intro it hit hord hslot
    obtain ⟨z, hz, rfl⟩ := hlisted it hit
    obtain ⟨y, hy, hyo, heq⟩ := of_slot_mem h hslot
    rw [← place_eq h hz hord] at heq
    obtain rfl := hwell.distinct y (hleft y hy) z (hleft z hz) heq
    exact hyo hord
  · intro e he
    have hrange := hwell.range _ (hright e he)
    have hord : (TxPair.entry e).Ordered := by
      intro hnone
      have hnonneg : 0 ≤ (TxPair.entry e).nOrderPos := hrange.1
      omega
    refine ⟨hrange.1, ?_, ?_, ?_, ?_⟩
    · intro hslot
      obtain ⟨y, hy, hyo, heq⟩ := of_slot_mem h hslot
      obtain rfl := hwell.distinct y (hleft y hy) _ (hright e he) heq
      exact hyo hord
    · obtain ⟨z, hz, hle⟩ := (lt_next_iff h hrange.1).mp hrange.2
      have hne : e.nOrderPos ≠ z.2.nOrderPos := by
        intro heq
        obtain rfl := hwell.distinct _ (hright e he) z (hleft z hz) heq
        exact not_listed he (fst_mem_txByTime hl hz)
      have hlt : e.nOrderPos < z.2.nOrderPos := lt_of_le_of_ne hle hne
      by_cases hzo : z.1.Ordered
      · rw [place_eq h hz hzo] at hlt
        exact .inr ⟨z.1, fst_mem_txByTime hl hz, hzo, hlt⟩
      · exact .inl ⟨_, slot_mem h hz hzo, hlt⟩
    · intro it hit hito hlt
      obtain ⟨z, hz, rfl⟩ := hlisted it hit
      have hplace := hwell.order z (hleft z hz) _ (hright e he) hito hord hlt
      rw [place_eq h hz hito] at hplace
      exact hplace
    · intro b hb hlt
      obtain ⟨z, hz, hzo, rfl⟩ := (mem_slots h).mp hb
      exact hwell.after _ (hright e he) z (hleft z hz) hord hzo hlt

/-- The items of a wallet that have a position have one of their own. -/
def Apart (w : OrderWallet) : Prop := ((w.items.filter TxPair.Ordered).map TxPair.nOrderPos).Nodup

instance : Decidable (Apart w) := inferInstanceAs (Decidable (List.Nodup _))

theorem Apart.inj {a b : TxPair} (h : Apart w) (ha : a ∈ w.items) (hb : b ∈ w.items) (hao : a.Ordered)
    (hbo : b.Ordered) (heq : a.nOrderPos = b.nOrderPos) : a = b :=
  List.inj_on_of_nodup_map h (List.mem_filter.mpr ⟨ha, decide_eq_true hao⟩)
    (List.mem_filter.mpr ⟨hb, decide_eq_true hbo⟩) heq

theorem listed_mem_items {it : TxPair} (h : it ∈ w.txByTime) : it ∈ w.items :=
  items_perm.mem_iff.mpr (List.mem_append_left _ h)

theorem entry_mem_items (h : e ∈ w.others) : .entry e ∈ w.items :=
  items_perm.mem_iff.mpr (List.mem_append_right _ (List.mem_map_of_mem h))

theorem OrderWallet.Clear.entry_ordered (hclear : w.Clear e) : (TxPair.entry e).Ordered := by
  intro hnone
  have hpos : e.nOrderPos = -1 := hnone
  have hnonneg := hclear.nonneg
  omega

/-- An entry that is clear of the listed items has a position none of them gets. -/
theorem OrderWallet.Clear.ne (hclear : w.Clear e) (hapart : Apart w) (he : e ∈ w.others)
    (hl : w.txByTime = zs.map Prod.fst) (h : Repositioned [] [] w.txByTime zs next) (hz : z ∈ zs) :
    z.2.nOrderPos ≠ e.nOrderPos := by
  intro heq
  by_cases hzo : z.1.Ordered
  · have hmem := fst_mem_txByTime hl hz
    rw [place_eq h hz hzo] at heq
    have hle : z.1.nOrderPos ≤ w.place z.1.nOrderPos := le_shift
    have hne : z.1.nOrderPos ≠ e.nOrderPos := by
      intro hsame
      have hitem := hapart.inj (listed_mem_items hmem) (entry_mem_items he) hzo hclear.entry_ordered hsame
      rw [hitem] at hmem
      exact not_listed he hmem
    have hlt := hclear.kept z.1 hmem hzo (by omega)
    omega
  · have hslot := slot_mem h hz hzo
    rw [heq] at hslot
    exact hclear.slot hslot

/-- Positions that fit are all different. -/
theorem OrderWallet.Fits.distinct (hfits : w.Fits) (hapart : Apart w) (hkeys : (zs.map fun z => z.1.key).Nodup)
    (hl : w.txByTime = zs.map Prod.fst) (h : Repositioned [] [] w.txByTime zs next) :
    ∀ y ∈ zs ++ kept w, ∀ z ∈ zs ++ kept w, y.2.nOrderPos = z.2.nOrderPos → y = z := by
  have hfst : ∀ y ∈ zs, ∀ z ∈ zs, y.1 = z.1 → y = z := by
    intro y hy z hz heq
    exact List.inj_on_of_nodup_map hkeys hy hz (congrArg TxPair.key heq)
  intro y hy z hz heq
  rcases List.mem_append.mp hy with hy | hy
  · rcases List.mem_append.mp hz with hz | hz
    · have hymem := fst_mem_txByTime hl hy
      have hzmem := fst_mem_txByTime hl hz
      by_cases hyo : y.1.Ordered
      · by_cases hzo : z.1.Ordered
        · rw [place_eq h hy hyo, place_eq h hz hzo] at heq
          refine hfst y hy z hz ?_
          exact hapart.inj (listed_mem_items hymem) (listed_mem_items hzmem) hyo hzo (shift_inj heq)
        · have hslot := slot_mem h hz hzo
          rw [← heq, place_eq h hy hyo] at hslot
          exact absurd hslot (hfits.apart y.1 hymem hyo)
      · by_cases hzo : z.1.Ordered
        · have hslot := slot_mem h hy hyo
          rw [heq, place_eq h hz hzo] at hslot
          exact absurd hslot (hfits.apart z.1 hzmem hzo)
        · exact slot_inj h hy hz hyo hzo heq
    · obtain ⟨e, he, rfl⟩ := kept_mem.mp hz
      exact absurd heq ((hfits.others e he).ne hapart he hl h hy)
  · obtain ⟨e, he, rfl⟩ := kept_mem.mp hy
    rcases List.mem_append.mp hz with hz | hz
    · exact absurd heq.symm ((hfits.others e he).ne hapart he hl h hz)
    · obtain ⟨f, hf, rfl⟩ := kept_mem.mp hz
      have hitem := hapart.inj (entry_mem_items he) (entry_mem_items hf) (hfits.others e he).entry_ordered
        (hfits.others f hf).entry_ordered heq
      rw [hitem]

theorem OrderWallet.Fits.range (hfits : w.Fits) (hl : w.txByTime = zs.map Prod.fst)
    (h : Repositioned [] [] w.txByTime zs next) :
    ∀ z ∈ zs ++ kept w, 0 ≤ z.2.nOrderPos ∧ z.2.nOrderPos < next := by
  intro z hz
  rcases List.mem_append.mp hz with hz | hz
  · have hnonneg : 0 ≤ z.2.nOrderPos := by
      by_cases hzo : z.1.Ordered
      · rw [place_eq h hz hzo]
        exact Int.le_trans (hfits.nonneg z.1 (fst_mem_txByTime hl hz) hzo) le_shift
      · exact h.later z hz hzo
    exact ⟨hnonneg, (lt_next_iff h hnonneg).mpr ⟨z, hz, Int.le_refl _⟩⟩
  · obtain ⟨e, he, rfl⟩ := kept_mem.mp hz
    have hclear := hfits.others e he
    refine ⟨hclear.nonneg, (lt_next_iff h hclear.nonneg).mpr ?_⟩
    rcases hclear.below with ⟨o, ho, hlt⟩ | ⟨it, hit, hito, hlt⟩
    · obtain ⟨z, hz, -, rfl⟩ := of_slot_mem h ho
      exact ⟨z, hz, Int.le_of_lt hlt⟩
    · rw [hl] at hit
      obtain ⟨z, hz, rfl⟩ := List.mem_map.mp hit
      rw [← place_eq h hz hito] at hlt
      exact ⟨z, hz, Int.le_of_lt hlt⟩

theorem OrderWallet.Fits.order (hfits : w.Fits) (hl : w.txByTime = zs.map Prod.fst)
    (h : Repositioned [] [] w.txByTime zs next) :
    ∀ y ∈ zs ++ kept w, ∀ z ∈ zs ++ kept w, y.1.Ordered → z.1.Ordered → y.1.nOrderPos < z.1.nOrderPos →
      y.2.nOrderPos < z.2.nOrderPos := by
  intro y hy z hz hyo hzo hlt
  rcases List.mem_append.mp hy with hy | hy
  · rw [place_eq h hy hyo]
    rcases List.mem_append.mp hz with hz | hz
    · rw [place_eq h hz hzo]
      exact shift_lt hlt
    · obtain ⟨e, he, rfl⟩ := kept_mem.mp hz
      exact (hfits.others e he).kept y.1 (fst_mem_txByTime hl hy) hyo hlt
  · obtain ⟨e, he, rfl⟩ := kept_mem.mp hy
    rcases List.mem_append.mp hz with hz | hz
    · rw [place_eq h hz hzo]
      exact Int.lt_of_lt_of_le hlt le_shift
    · obtain ⟨f, hf, rfl⟩ := kept_mem.mp hz
      exact hlt

theorem OrderWallet.Fits.after (hfits : w.Fits) (hl : w.txByTime = zs.map Prod.fst)
    (h : Repositioned [] [] w.txByTime zs next) :
    ∀ y ∈ zs ++ kept w, ∀ z ∈ zs ++ kept w, y.1.Ordered → ¬ z.1.Ordered → y.1.time < z.1.time →
      y.2.nOrderPos < z.2.nOrderPos := by
  intro y hy z hz hyo hzo hlt
  rcases List.mem_append.mp hz with hz | hz
  · rcases List.mem_append.mp hy with hy | hy
    · exact received hl h hy hz hzo hlt
    · obtain ⟨e, he, rfl⟩ := kept_mem.mp hy
      exact (hfits.others e he).later _ ((mem_slots h).mpr ⟨z, hz, hzo, rfl⟩) hlt
  · obtain ⟨e, he, rfl⟩ := kept_mem.mp hz
    exact absurd (hfits.others e he).entry_ordered hzo

end

/-- **A reordering gives every item a position of its own exactly when the
positions fit**: none is moved onto a slot, and the entries of the accounts
with a name, which are not looked at, are clear of all. -/
theorem reordered_iff_fits (hkeys : (w.items.map TxPair.key).Nodup) (hapart : Apart w)
    (h : reorderTransactions written w = some w') : Reordered w w' ↔ w.Fits := by
  obtain ⟨zs, hl, hmoved, htracked⟩ := reorderTransactions_tracked h
  rw [htracked.reordered_iff hkeys]
  have hzs : (zs.map fun z => z.1.key).Nodup := by
    have hperm := htracked.before.map TxPair.key
    rw [List.map_map, List.map_append] at hperm
    exact (hperm.nodup_iff.mpr hkeys).of_append_left
  refine ⟨fun hwell => hwell.fits hl hmoved, fun hfits => ⟨?_, ?_, ?_, ?_⟩⟩
  · exact hfits.distinct hapart hzs hl hmoved
  · exact hfits.range hl hmoved
  · exact hfits.order hl hmoved
  · exact hfits.after hl hmoved

/-! ## A wallet whose items get in each other's way -/

def sampleTx (hash nTimeReceived : Nat) (nOrderPos : Int) : OrderedTx where
  hash := hash
  nTimeReceived := nTimeReceived
  nOrderPos := nOrderPos

/-- Four transactions, of which the first and the third have no position. -/
def sampleWallet : OrderWallet where
  mapWallet := [sampleTx 1 10 (-1), sampleTx 2 20 0, sampleTx 3 30 (-1), sampleTx 4 40 1]
  acentries := []
  nOrderPosNext := 2

/-- The third and the fourth are both put on the third place. -/
def sampleReordered : OrderWallet where
  mapWallet := [sampleTx 1 10 0, sampleTx 2 20 1, sampleTx 3 30 2, sampleTx 4 40 2]
  acentries := []
  nOrderPosNext := 3

theorem reordered_iff_fits_sample : Reordered sampleWallet sampleReordered ↔ sampleWallet.Fits :=
  @reordered_iff_fits (fun _ => true) _ _ (by decide) (by decide) (by decide)

theorem not_reordered_sample : (sampleWallet.items.map TxPair.key).Nodup ∧ Apart sampleWallet ∧
    reorderTransactions (fun _ => true) sampleWallet = some sampleReordered ∧
    ¬ Reordered sampleWallet sampleReordered := by
  refine ⟨by decide, by decide, by decide, fun h => ?_⟩
  have hdistinct : ¬ (sampleReordered.items.map TxPair.nOrderPos).Nodup := by decide
  exact hdistinct h.distinct

end Pinkcoin
