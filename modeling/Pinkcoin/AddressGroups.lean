/-
Addresses that belong together: those of the inputs and of the change of each
transaction that spends from the wallet, in groups that are merged where they
share an address.
-/
import Mathlib.Data.Finset.Image
import Mathlib.Data.Finset.Option
import Mathlib.Data.Finset.Union
import Pinkcoin.Lib.Components
import Pinkcoin.Solver
import Pinkcoin.WalletSpent

namespace Pinkcoin

open Components

/-! ## The groups that are found -/

/-- What the addresses are known by: whether one is the wallet's own, and
whether it is in the address book. -/
structure GroupEnv where
  hash160 : List UInt8 → Bytes 20
  isMineDest : CTxDestination → Bool
  inAddressBook : CTxDestination → Bool

/-- An index that is not below `vout.size()`. -/
structure OutOfRange where
  prevout : COutPoint
  deriving DecidableEq

namespace GroupEnv

variable (e : GroupEnv)

/-- `ExtractDestination`. -/
def address (txout : CTxOut) : Option CTxDestination := extractDestination e.hash160 txout.scriptPubKey

/-- `IsChange`. -/
def isChange (txout : CTxOut) : Bool := (e.address txout).any fun address => e.isMineDest address && !e.inAddressBook address

end GroupEnv

namespace CWallet

variable (P : Params) (w : CWallet)

/-- `IsMine(const CTxIn&)`. -/
def isMineIn (txin : CTxIn) : Bool :=
  ((w.mapWallet.lookup txin.prevout.hash).bind fun prev => prev.tx.vout[txin.prevout.n]?).any (w.isMine P)

/-- `mapWallet[hash]`, which puts in a transaction without inputs and outputs
where there is none. -/
def mapAt (hash : Uint256) : CWallet × CWalletTx :=
  match w.mapWallet.lookup hash with
  | some wtx => (w, wtx)
  | none =>
    let wtx := CWalletTx.ofTx ⟨1, 0, [], [], 0⟩
    ({ w with mapWallet := w.mapWallet.insert hash wtx }, wtx)

end CWallet

section Groupings

variable (P : Params) (e : GroupEnv)

/-- `grouping.insert(address)`, where the output has one. -/
def insertAddress (txout : CTxOut) (grouping : Finset CTxDestination) : Finset CTxDestination :=
  match e.address txout with
  | none => grouping
  | some address => insert address grouping

/-- The body of the loop over the inputs. -/
def groupInput (acc : CWallet × Finset CTxDestination) (txin : CTxIn) : Except OutOfRange (CWallet × Finset CTxDestination) :=
  let (w, prev) := acc.1.mapAt txin.prevout.hash
  match prev.tx.vout[txin.prevout.n]? with
  | none => throw ⟨txin.prevout⟩
  | some txout => pure (w, insertAddress e txout acc.2)

/-- The body of the loop over the outputs, for change: it looks up the first
input's transaction, and does not use it. -/
def groupChange (txin : CTxIn) (acc : CWallet × Finset CTxDestination) (txout : CTxOut) : CWallet × Finset CTxDestination :=
  if e.isChange txout then ((acc.1.mapAt txin.prevout.hash).1, insertAddress e txout acc.2) else acc

/-- The addresses of the inputs and the change of a transaction whose first
input is the wallet's. -/
def groupSpend (acc : CWallet × Finset (Finset CTxDestination)) (pcoin : CWalletTx) :
    Except OutOfRange (CWallet × Finset (Finset CTxDestination)) :=
  match pcoin.tx.vin with
  | [] => pure acc
  | txin :: _ =>
    if acc.1.isMineIn P txin then do
      let inputs ← pcoin.tx.vin.foldlM (groupInput e) (acc.1, ∅)
      let (w, grouping) := pcoin.tx.vout.foldl (groupChange e txin) inputs
      pure (w, insert grouping acc.2)
    else pure acc

/-- An own output by itself. -/
def groupLone (w : CWallet) (groupings : Finset (Finset CTxDestination)) (txout : CTxOut) : Finset (Finset CTxDestination) :=
  if w.isMine P txout then
    match e.address txout with
    | none => groupings
    | some address => insert {address} groupings
  else groupings

/-- The body of the loop over the wallet. -/
def groupTx (acc : CWallet × Finset (Finset CTxDestination)) (pcoin : CWalletTx) :
    Except OutOfRange (CWallet × Finset (Finset CTxDestination)) := do
  let acc ← groupSpend P e acc pcoin
  pure (acc.1, pcoin.tx.vout.foldl (groupLone P e acc.1) acc.2)

end Groupings

/-! ## Merging them -/

/-- The groups that are there, by their pointers, and the group each address is
in. -/
structure UniqueGroups where
  uniqueGroupings : Finset Nat
  sets : Nat → Finset CTxDestination
  setmap : CTxDestination → Option Nat
  next : Nat

namespace UniqueGroups

def empty : UniqueGroups := ⟨∅, fun _ => ∅, fun _ => none, 0⟩

variable (groups : UniqueGroups)

/-- The groups that have an address of the new one. -/
def hits (grouping : Finset CTxDestination) : Finset Nat := grouping.biUnion fun address => (groups.setmap address).toFinset

def merged (grouping : Finset CTxDestination) : Finset CTxDestination :=
  grouping ∪ (groups.hits grouping).biUnion groups.sets

/-- The body of the loop over the groups: the groups that are hit are merged
into a new one and deleted. -/
def merge (grouping : Finset CTxDestination) : UniqueGroups where
  uniqueGroupings := insert groups.next (groups.uniqueGroupings \ groups.hits grouping)
  sets := Function.update groups.sets groups.next (groups.merged grouping)
  setmap := fun element => if element ∈ groups.merged grouping then some groups.next else groups.setmap element
  next := groups.next + 1

/-- `ret`. -/
def ret : Finset (Finset CTxDestination) := groups.uniqueGroupings.image groups.sets

end UniqueGroups

/-- The order in which a set of groups is gone through. -/
structure SetOrder where
  list : Finset (Finset CTxDestination) → List (Finset CTxDestination)
  toFinset : ∀ groupings, (list groupings).toFinset = groupings

/-- `GetAddressGroupings`. -/
def CWallet.getAddressGroupings (P : Params) (e : GroupEnv) (order : SetOrder) (w : CWallet) :
    Except OutOfRange (CWallet × Finset (Finset CTxDestination)) := do
  let (w, groupings) ← w.mapWallet.entries.foldlM (fun acc entry => groupTx P e acc entry.2) (w, ∅)
  pure (w, ((order.list groupings).foldl UniqueGroups.merge .empty).ret)

/-! ## What is expected -/

section Expected

variable (P : Params) (e : GroupEnv) (w : CWallet)

/-- A transaction of the wallet whose first input is the wallet's. -/
def SpendsOurs (pcoin : CWalletTx) : Prop := ∃ txin ∈ pcoin.tx.vin.head?, w.isMineIn P txin = true

/-- An input spends an output of a wallet transaction. -/
def Known (txin : CTxIn) : Prop :=
  ∃ prev, w.mapWallet.lookup txin.prevout.hash = some prev ∧ txin.prevout.n < prev.tx.vout.length

/-- The address an input spends from. -/
def SpendsFrom (txin : CTxIn) (address : CTxDestination) : Prop :=
  ∃ prev txout, w.mapWallet.lookup txin.prevout.hash = some prev ∧ prev.tx.vout[txin.prevout.n]? = some txout ∧
    e.address txout = some address

/-- An address of an input or of change. -/
def UsesAddress (pcoin : CWalletTx) (address : CTxDestination) : Prop :=
  (∃ txin ∈ pcoin.tx.vin, SpendsFrom e w txin address) ∨
    ∃ txout ∈ pcoin.tx.vout, e.isChange txout = true ∧ e.address txout = some address

/-- Two addresses that one of our transactions uses. -/
def Together (a b : CTxDestination) : Prop :=
  ∃ hash pcoin, w.mapWallet.lookup hash = some pcoin ∧ SpendsOurs P w pcoin ∧ UsesAddress e w pcoin a ∧ UsesAddress e w pcoin b

/-- An address that one of our transactions uses, or of an own output. -/
def Seen (a : CTxDestination) : Prop :=
  ∃ hash pcoin, w.mapWallet.lookup hash = some pcoin ∧
    ((SpendsOurs P w pcoin ∧ UsesAddress e w pcoin a) ∨
      ∃ txout ∈ pcoin.tx.vout, w.isMine P txout = true ∧ e.address txout = some a)

/-- **What is expected of `GetAddressGroupings`**: no index is out of range, the
wallet is unchanged, and the groups are the connected components of the
addresses that are seen. -/
def GroupsAddresses (order : SetOrder) : Prop :=
  ∃ groups, w.getAddressGroupings P e order = .ok (w, groups) ∧
    (∀ a, (∃ g ∈ groups, a ∈ g) ↔ Seen P e w a) ∧
    (∀ g ∈ groups, ∀ a ∈ g, ∀ b, b ∈ g ↔ Relation.ReflTransGen (Together P e w) a b) ∧
    ∀ g ∈ groups, ∀ g' ∈ groups, g ≠ g' → Disjoint g g'

/-- **When that is so**: a transaction whose first input is the wallet's has
all inputs from wallet transactions. -/
def AllKnown : Prop :=
  ∀ hash pcoin, w.mapWallet.lookup hash = some pcoin → SpendsOurs P w pcoin → ∀ txin ∈ pcoin.tx.vin, Known w txin

end Expected

section

variable {P : Params} {e : GroupEnv} {w : CWallet} {pcoin : CWalletTx} {grouping : Finset CTxDestination}

/-! ## What is gathered -/

theorem CWallet.mapAt_some {hash : Uint256} {wtx : CWalletTx} (h : w.mapWallet.lookup hash = some wtx) :
    w.mapAt hash = (w, wtx) := by
  rw [CWallet.mapAt, h]

@[simp] theorem mem_insertAddress {txout : CTxOut} {a : CTxDestination} :
    a ∈ insertAddress e txout grouping ↔ a ∈ grouping ∨ e.address txout = some a := by
  unfold insertAddress
  cases haddress : e.address txout with
  | none => simp
  | some address => simp [eq_comm, or_comm]

theorem groupInput_ok (grouping : Finset CTxDestination) {txin : CTxIn} (h : Known w txin) : ∃ grouping', groupInput e (w, grouping) txin = .ok (w, grouping') ∧
    ∀ a, a ∈ grouping' ↔ a ∈ grouping ∨ SpendsFrom e w txin a := by
  obtain ⟨prev, hprev, hn⟩ := h
  have htxout : prev.tx.vout[txin.prevout.n]? = some prev.tx.vout[txin.prevout.n] := List.getElem?_eq_getElem hn
  refine ⟨insertAddress e prev.tx.vout[txin.prevout.n] grouping, ?_, fun a => ?_⟩
  · simp only [groupInput, CWallet.mapAt_some hprev, htxout]
    rfl
  · rw [mem_insertAddress]
    refine or_congr_right ⟨fun ha => ⟨prev, _, hprev, htxout, ha⟩, fun ha => ?_⟩
    obtain ⟨prev', txout, hprev', htxout', ha⟩ := ha
    obtain rfl : prev = prev' := Option.some.inj (hprev.symm.trans hprev')
    obtain rfl := Option.some.inj (htxout.symm.trans htxout')
    exact ha

/-- An input that is not of a wallet transaction is out of range: a transaction
that `mapWallet[]` puts in has no outputs. -/
theorem groupInput_known {txin : CTxIn} {out : CWallet × Finset CTxDestination} (h : groupInput e (w, grouping) txin = .ok out) :
    Known w txin := by
  unfold groupInput at h
  cases hprev : w.mapWallet.lookup txin.prevout.hash with
  | none =>
    simp only [CWallet.mapAt, hprev] at h
    cases h
  | some prev =>
    rw [CWallet.mapAt_some hprev] at h
    dsimp only at h
    cases htxout : prev.tx.vout[txin.prevout.n]? with
    | none =>
      rw [htxout] at h
      cases h
    | some txout =>
      obtain ⟨hn, -⟩ := List.getElem?_eq_some_iff.mp htxout
      exact ⟨prev, hprev, hn⟩

theorem groupInputs_ok (grouping : Finset CTxDestination) {vin : List CTxIn} (h : ∀ txin ∈ vin, Known w txin) :
    ∃ grouping', vin.foldlM (groupInput e) (w, grouping) = .ok (w, grouping') ∧
      ∀ a, a ∈ grouping' ↔ a ∈ grouping ∨ ∃ txin ∈ vin, SpendsFrom e w txin a := by
  induction vin generalizing grouping with
  | nil => exact ⟨grouping, rfl, by simp⟩
  | cons txin vin ih =>
    obtain ⟨between, hfirst, hbetween⟩ := groupInput_ok (e := e) grouping (h txin (by simp))
    obtain ⟨grouping', hrest, hmem⟩ := ih between fun txin' hmem => h txin' (by simp [hmem])
    refine ⟨grouping', ?_, fun a => ?_⟩
    · rw [List.foldlM_cons, hfirst]
      exact hrest
    · rw [hmem, hbetween, or_assoc]
      simp

theorem groupInputs_known {vin : List CTxIn} {out : CWallet × Finset CTxDestination}
    (h : vin.foldlM (groupInput e) (w, grouping) = .ok out) : ∀ txin ∈ vin, Known w txin := by
  induction vin generalizing grouping with
  | nil => simp
  | cons txin vin ih =>
    rw [List.foldlM_cons] at h
    cases hfirst : groupInput e (w, grouping) txin with
    | error err =>
      rw [hfirst] at h
      cases h
    | ok between =>
      have hknown := groupInput_known hfirst
      -- a known input leaves the wallet as it is
      obtain ⟨grouping', hok, -⟩ := groupInput_ok (e := e) grouping hknown
      obtain rfl : (w, grouping') = between := Except.ok.inj (hok.symm.trans hfirst)
      rw [hfirst] at h
      intro txin' hmem
      rcases List.mem_cons.mp hmem with rfl | hmem
      · exact hknown
      · exact ih h txin' hmem

theorem groupChanges (grouping : Finset CTxDestination) {txin : CTxIn} (hknown : Known w txin) (vout : List CTxOut) :
    ∃ grouping', vout.foldl (groupChange e txin) (w, grouping) = (w, grouping') ∧
      ∀ a, a ∈ grouping' ↔ a ∈ grouping ∨ ∃ txout ∈ vout, e.isChange txout = true ∧ e.address txout = some a := by
  obtain ⟨prev, hprev, -⟩ := hknown
  induction vout generalizing grouping with
  | nil => exact ⟨grouping, rfl, by simp⟩
  | cons txout vout ih =>
    by_cases hchange : e.isChange txout = true
    · obtain ⟨grouping', hrest, hmem⟩ := ih (insertAddress e txout grouping)
      refine ⟨grouping', ?_, fun a => ?_⟩
      · rw [List.foldl_cons, groupChange, if_pos hchange, CWallet.mapAt_some hprev]
        exact hrest
      · rw [hmem, mem_insertAddress, or_assoc]
        simp [hchange]
    · obtain ⟨grouping', hrest, hmem⟩ := ih grouping
      refine ⟨grouping', ?_, fun a => ?_⟩
      · rw [List.foldl_cons, groupChange, if_neg hchange]
        exact hrest
      · rw [hmem]
        simp [hchange]

/-- The inputs and the change of one of our transactions. -/
theorem exists_used {txin : CTxIn} {vin : List CTxIn} (hvin : pcoin.tx.vin = txin :: vin) (hall : ∀ txin ∈ pcoin.tx.vin, Known w txin) :
    ∃ inputs grouping', pcoin.tx.vin.foldlM (groupInput e) (w, ∅) = .ok (w, inputs) ∧
      pcoin.tx.vout.foldl (groupChange e txin) (w, inputs) = (w, grouping') ∧ ∀ a, a ∈ grouping' ↔ UsesAddress e w pcoin a := by
  obtain ⟨inputs, hinputs, hmem⟩ := groupInputs_ok (e := e) ∅ hall
  have hknown : Known w txin := hall txin (by simp [hvin])
  obtain ⟨grouping', hchange, hmem'⟩ := groupChanges (e := e) inputs hknown pcoin.tx.vout
  refine ⟨inputs, grouping', hinputs, hchange, fun a => ?_⟩
  rw [hmem', hmem, UsesAddress]
  simp

/-- What one of our transactions gathers. -/
theorem groupSpend_ok (groupings : Finset (Finset CTxDestination))
    (h : SpendsOurs P w pcoin → ∀ txin ∈ pcoin.tx.vin, Known w txin) :
    ∃ groupings', groupSpend P e (w, groupings) pcoin = .ok (w, groupings') ∧
      ∀ g, g ∈ groupings' ↔ g ∈ groupings ∨ SpendsOurs P w pcoin ∧ ∀ a, a ∈ g ↔ UsesAddress e w pcoin a := by
  unfold groupSpend
  unfold SpendsOurs at h ⊢
  cases hvin : pcoin.tx.vin with
  | nil => exact ⟨groupings, rfl, by simp⟩
  | cons txin vin =>
    dsimp only
    by_cases hmine : w.isMineIn P txin = true
    · have hours : ∃ txin ∈ pcoin.tx.vin.head?, w.isMineIn P txin = true := ⟨txin, by simp [hvin], hmine⟩
      obtain ⟨inputs, grouping', hinputs, hchange, huses⟩ := exists_used (e := e) hvin (h hours)
      rw [hvin] at hinputs
      refine ⟨insert grouping' groupings, ?_, fun g => ?_⟩
      · rw [if_pos hmine, hinputs]
        simp only [Bind.bind, Except.bind, hchange]
        rfl
      · rw [Finset.mem_insert, or_comm]
        refine or_congr_right ⟨fun hg => ?_, fun hg => ?_⟩
        · subst hg
          exact ⟨⟨txin, rfl, hmine⟩, huses⟩
        · ext a
          rw [hg.2, huses]
    · refine ⟨groupings, ?_, fun g => ?_⟩
      · rw [if_neg hmine]
        rfl
      · simp [hmine]

theorem groupSpend_known {groupings : Finset (Finset CTxDestination)} {out : CWallet × Finset (Finset CTxDestination)}
    (h : groupSpend P e (w, groupings) pcoin = .ok out) (hours : SpendsOurs P w pcoin) : ∀ txin ∈ pcoin.tx.vin, Known w txin := by
  unfold groupSpend at h
  obtain ⟨txin, htxin, hmine⟩ := hours
  cases hvin : pcoin.tx.vin with
  | nil => simp
  | cons txin' vin =>
    rw [hvin] at h htxin
    obtain rfl : txin' = txin := by simpa using htxin
    simp only [hmine, if_true] at h
    cases hinputs : (txin' :: vin).foldlM (groupInput e) (w, ∅) with
    | error err =>
      rw [hinputs] at h
      cases h
    | ok inputs => exact groupInputs_known hinputs

/-- Own outputs, each by itself. -/
theorem mem_groupLones (vout : List CTxOut) (groupings : Finset (Finset CTxDestination)) (g : Finset CTxDestination) :
    g ∈ vout.foldl (groupLone P e w) groupings ↔ g ∈ groupings ∨
      ∃ txout ∈ vout, w.isMine P txout = true ∧ ∃ a, e.address txout = some a ∧ g = {a} := by
  induction vout generalizing groupings with
  | nil => simp
  | cons txout vout ih =>
    rw [List.foldl_cons, ih, groupLone]
    by_cases hmine : w.isMine P txout = true
    · cases haddress : e.address txout with
      | none => simp [hmine, haddress]
      | some address => simp [hmine, haddress, or_assoc, or_left_comm]
    · simp [hmine]

/-- A group that a wallet transaction gives. -/
def GroupOf (P : Params) (e : GroupEnv) (w : CWallet) (pcoin : CWalletTx) (g : Finset CTxDestination) : Prop :=
  (SpendsOurs P w pcoin ∧ ∀ a, a ∈ g ↔ UsesAddress e w pcoin a) ∨
    ∃ txout ∈ pcoin.tx.vout, w.isMine P txout = true ∧ ∃ a, e.address txout = some a ∧ g = {a}

theorem groupTx_ok (groupings : Finset (Finset CTxDestination))
    (h : SpendsOurs P w pcoin → ∀ txin ∈ pcoin.tx.vin, Known w txin) :
    ∃ groupings', groupTx P e (w, groupings) pcoin = .ok (w, groupings') ∧
      ∀ g, g ∈ groupings' ↔ g ∈ groupings ∨ GroupOf P e w pcoin g := by
  obtain ⟨between, hspend, hmem⟩ := groupSpend_ok (e := e) groupings h
  refine ⟨pcoin.tx.vout.foldl (groupLone P e w) between, ?_, fun g => ?_⟩
  · rw [groupTx, hspend]
    rfl
  · rw [mem_groupLones, hmem, or_assoc]
    rfl

theorem groupTx_known {groupings : Finset (Finset CTxDestination)} {out : CWallet × Finset (Finset CTxDestination)}
    (h : groupTx P e (w, groupings) pcoin = .ok out) (hours : SpendsOurs P w pcoin) : ∀ txin ∈ pcoin.tx.vin, Known w txin := by
  unfold groupTx at h
  cases hspend : groupSpend P e (w, groupings) pcoin with
  | error err =>
    rw [hspend] at h
    cases h
  | ok between => exact groupSpend_known hspend hours

section Entries

variable {entries : List (Σ _ : Uint256, CWalletTx)} {groupings : Finset (Finset CTxDestination)}

theorem groupTxs_ok (groupings : Finset (Finset CTxDestination)) (h : ∀ entry ∈ entries, SpendsOurs P w entry.2 → ∀ txin ∈ entry.2.tx.vin, Known w txin) :
    ∃ groupings', entries.foldlM (fun acc entry => groupTx P e acc entry.2) (w, groupings) = .ok (w, groupings') ∧
      ∀ g, g ∈ groupings' ↔ g ∈ groupings ∨ ∃ entry ∈ entries, GroupOf P e w entry.2 g := by
  induction entries generalizing groupings with
  | nil => exact ⟨groupings, rfl, by simp⟩
  | cons entry entries ih =>
    obtain ⟨between, hfirst, hbetween⟩ := groupTx_ok (e := e) groupings (h entry (by simp))
    obtain ⟨groupings', hrest, hmem⟩ := ih between fun entry' hmem => h entry' (by simp [hmem])
    refine ⟨groupings', ?_, fun g => ?_⟩
    · rw [List.foldlM_cons, hfirst]
      exact hrest
    · rw [hmem, hbetween, or_assoc]
      simp

theorem groupTxs_known {out : CWallet × Finset (Finset CTxDestination)}
    (h : entries.foldlM (fun acc entry => groupTx P e acc entry.2) (w, groupings) = .ok out) :
    ∀ entry ∈ entries, SpendsOurs P w entry.2 → ∀ txin ∈ entry.2.tx.vin, Known w txin := by
  induction entries generalizing groupings with
  | nil => simp
  | cons entry entries ih =>
    rw [List.foldlM_cons] at h
    cases hfirst : groupTx P e (w, groupings) entry.2 with
    | error err =>
      rw [hfirst] at h
      cases h
    | ok between =>
      have hknown := groupTx_known hfirst
      obtain ⟨groupings', hok, -⟩ := groupTx_ok (e := e) groupings hknown
      obtain rfl : (w, groupings') = between := Except.ok.inj (hok.symm.trans hfirst)
      rw [hfirst] at h
      intro entry' hmem
      rcases List.mem_cons.mp hmem with rfl | hmem
      · exact hknown
      · exact ih h entry' hmem

end Entries

theorem entries_iff {p : CWalletTx → Prop} :
    (∃ entry ∈ w.mapWallet.entries, p entry.2) ↔ ∃ hash pcoin, w.mapWallet.lookup hash = some pcoin ∧ p pcoin := by
  constructor
  · intro ⟨entry, hentry, hp⟩
    exact ⟨entry.1, entry.2, AList.mem_lookup_iff.mpr hentry, hp⟩
  · intro ⟨hash, pcoin, hlookup, hp⟩
    exact ⟨⟨hash, pcoin⟩, AList.mem_lookup_iff.mp hlookup, hp⟩

/-! ## The groups as components -/

namespace UniqueGroups

variable {F : Set (Finset CTxDestination)} {groups : UniqueGroups}

/-- The groups that are there are the components of what was gone through, and
each address is mapped to the group that has it. -/
structure Tracks (F : Set (Finset CTxDestination)) (groups : UniqueGroups) : Prop where
  components : IsComponents F {c | ∃ p ∈ groups.uniqueGroupings, groups.sets p = c}
  setmap : ∀ a p, groups.setmap a = some p ↔ p ∈ groups.uniqueGroupings ∧ a ∈ groups.sets p
  fresh : ∀ p ∈ groups.uniqueGroupings, p < groups.next

namespace Tracks

theorem empty : Tracks ∅ empty where
  components := by
    have hnone : {c | ∃ p ∈ UniqueGroups.empty.uniqueGroupings, UniqueGroups.empty.sets p = c} = ∅ := by
      simp [UniqueGroups.empty]
    rw [hnone]
    exact IsComponents.nil
  setmap := by simp [UniqueGroups.empty]
  fresh := by simp [UniqueGroups.empty]

/-- The groups that are hit are those that meet the new one. -/
theorem mem_hits (h : Tracks F groups) {p : Nat} :
    p ∈ groups.hits grouping ↔ p ∈ groups.uniqueGroupings ∧ ¬ Disjoint (groups.sets p) grouping := by
  simp only [hits, Finset.mem_biUnion, Option.mem_toFinset, Option.mem_def, h.setmap, Finset.not_disjoint_iff]
  constructor
  · intro ⟨a, ha, hp, hmem⟩
    exact ⟨hp, a, hmem, ha⟩
  · intro ⟨hp, a, hmem, ha⟩
    exact ⟨a, ha, hp, hmem⟩

theorem mem_merged (h : Tracks F groups) (a : CTxDestination) : a ∈ groups.merged grouping ↔
    a ∈ grouping ∨ ∃ c ∈ {c | ∃ p ∈ groups.uniqueGroupings, groups.sets p = c}, ¬ Disjoint c grouping ∧ a ∈ c := by
  simp only [merged, Finset.mem_union, Finset.mem_biUnion, h.mem_hits, Set.mem_setOf_eq]
  refine or_congr_right ⟨?_, ?_⟩
  · intro ⟨p, ⟨hp, hmeet⟩, ha⟩
    exact ⟨_, ⟨p, hp, rfl⟩, hmeet, ha⟩
  · intro ⟨_, ⟨p, hp, hsets⟩, hmeet, ha⟩
    subst hsets
    exact ⟨p, ⟨hp, hmeet⟩, ha⟩

/-- A group that stays has none of the merged addresses. -/
theorem mem_hits_of_merged (h : Tracks F groups) {a : CTxDestination} {p : Nat} (hp : p ∈ groups.uniqueGroupings)
    (ha : a ∈ groups.sets p) (hmerged : a ∈ groups.merged grouping) : p ∈ groups.hits grouping := by
  rcases Finset.mem_union.mp hmerged with hin | hin
  · exact h.mem_hits.mpr ⟨hp, Finset.not_disjoint_iff.mpr ⟨a, ha, hin⟩⟩
  · obtain ⟨p', hhit, ha'⟩ := Finset.mem_biUnion.mp hin
    have hp' := (h.mem_hits.mp hhit).1
    -- an address is in one group only
    obtain rfl : p = p' := Option.some.inj (((h.setmap a p).mpr ⟨hp, ha⟩).symm.trans ((h.setmap a p').mpr ⟨hp', ha'⟩))
    exact hhit

theorem sets_merge (h : Tracks F groups) {p : Nat} (hp : p ∈ groups.uniqueGroupings) :
    (groups.merge grouping).sets p = groups.sets p := by
  have hlt := h.fresh p hp
  exact Function.update_of_ne (by omega) _ _

/-- **One group more.** -/
theorem merge (h : Tracks F groups) (grouping : Finset CTxDestination) : Tracks (insert grouping F) (groups.merge grouping) := by
  have hnew : (groups.merge grouping).sets groups.next = groups.merged grouping := Function.update_self _ _ _
  have hlive : ∀ p, p ∈ (groups.merge grouping).uniqueGroupings ↔
      p = groups.next ∨ p ∈ groups.uniqueGroupings ∧ p ∉ groups.hits grouping := by
    simp [UniqueGroups.merge]
  refine ⟨?_, fun a p => ?_, fun p hp => ?_⟩
  · have hgroups : {c | ∃ p ∈ (groups.merge grouping).uniqueGroupings, (groups.merge grouping).sets p = c} =
        {c | c = groups.merged grouping ∨
          c ∈ {c | ∃ p ∈ groups.uniqueGroupings, groups.sets p = c} ∧ Disjoint c grouping} := by
      ext c
      simp only [Set.mem_setOf_eq, hlive]
      constructor
      · intro ⟨p, hp, hc⟩
        rcases hp with hp | ⟨hp, hhit⟩
        · exact .inl (by rw [← hc, hp, hnew])
        · rw [h.sets_merge hp] at hc
          refine .inr ⟨⟨p, hp, hc⟩, ?_⟩
          by_contra hmeet
          exact hhit (h.mem_hits.mpr ⟨hp, by rw [hc]; exact hmeet⟩)
      · intro hc
        rcases hc with hc | ⟨⟨p, hp, hc⟩, hdisjoint⟩
        · exact ⟨groups.next, .inl rfl, by rw [hnew, hc]⟩
        · refine ⟨p, .inr ⟨hp, fun hhit => (h.mem_hits.mp hhit).2 ?_⟩, by rw [h.sets_merge hp, hc]⟩
          rw [hc]
          exact hdisjoint
    rw [hgroups]
    exact h.components.insert h.mem_merged
  · rw [hlive]
    by_cases ha : a ∈ groups.merged grouping
    · have hsetmap : (groups.merge grouping).setmap a = some groups.next := if_pos ha
      rw [hsetmap]
      constructor
      · intro hp
        obtain rfl := Option.some.inj hp
        exact ⟨.inl rfl, by rw [hnew]; exact ha⟩
      · intro ⟨hp, hmem⟩
        rcases hp with rfl | ⟨hp, hhit⟩
        · rfl
        · rw [h.sets_merge hp] at hmem
          exact absurd (h.mem_hits_of_merged hp hmem ha) hhit
    · have hsetmap : (groups.merge grouping).setmap a = groups.setmap a := if_neg ha
      rw [hsetmap, h.setmap]
      constructor
      · intro ⟨hp, hmem⟩
        refine ⟨.inr ⟨hp, fun hhit => ha ?_⟩, by rw [h.sets_merge hp]; exact hmem⟩
        exact Finset.mem_union_right _ (Finset.mem_biUnion.mpr ⟨p, hhit, hmem⟩)
      · intro ⟨hp, hmem⟩
        rcases hp with rfl | ⟨hp, -⟩
        · rw [hnew] at hmem
          exact absurd hmem ha
        · rw [h.sets_merge hp] at hmem
          exact ⟨hp, hmem⟩
  · have hnext : (groups.merge grouping).next = groups.next + 1 := rfl
    rw [hnext]
    rcases (hlive p).mp hp with rfl | ⟨hp, -⟩
    · omega
    · have hlt := h.fresh p hp
      omega

/-- **All groups**, in any order. -/
theorem foldl (h : Tracks F groups) (l : List (Finset CTxDestination)) :
    Tracks (F ∪ {g | g ∈ l}) (l.foldl UniqueGroups.merge groups) := by
  induction l generalizing F groups with
  | nil => simpa using h
  | cons g l ih =>
    have hrest := ih (h.merge g)
    have hsets : insert g F ∪ {g' | g' ∈ l} = F ∪ {g' | g' ∈ g :: l} := by
      ext g'
      simp [or_assoc, or_left_comm]
    rw [← hsets]
    exact hrest

end Tracks

/-- **What is returned are the components.** -/
theorem isComponents_ret (order : SetOrder) (groupings : Finset (Finset CTxDestination)) :
    IsComponents {g | g ∈ groupings} {c | c ∈ ((order.list groupings).foldl merge empty).ret} := by
  have htracks := Tracks.empty.foldl (order.list groupings)
  have hlist : (∅ ∪ {g | g ∈ order.list groupings} : Set (Finset CTxDestination)) = {g | g ∈ groupings} := by
    ext g
    rw [Set.empty_union, Set.mem_setOf_eq, Set.mem_setOf_eq, ← List.mem_toFinset, order.toFinset]
  rw [hlist] at htracks
  have hret : {c | c ∈ ((order.list groupings).foldl merge empty).ret} =
      {c | ∃ p ∈ ((order.list groupings).foldl merge empty).uniqueGroupings, ((order.list groupings).foldl merge empty).sets p = c} := by
    ext c
    simp [ret]
  rw [hret]
  exact htracks.components

end UniqueGroups

theorem allKnown_iff : AllKnown P w ↔
    ∀ entry ∈ w.mapWallet.entries, SpendsOurs P w entry.2 → ∀ txin ∈ entry.2.tx.vin, Known w txin := by
  constructor
  · intro h entry hentry
    exact h entry.1 entry.2 (AList.mem_lookup_iff.mpr hentry)
  · intro h hash pcoin hlookup
    exact h ⟨hash, pcoin⟩ (AList.mem_lookup_iff.mp hlookup)

/-- **What is gathered** covers the addresses that are seen, and links those
that belong together. -/
theorem exists_gathered (h : AllKnown P w) :
    ∃ groupings, w.mapWallet.entries.foldlM (fun acc entry => groupTx P e acc entry.2) (w, ∅) = .ok (w, groupings) ∧
      (∀ a, (∃ g ∈ groupings, a ∈ g) ↔ Seen P e w a) ∧
      ∀ a b, Linked {g | g ∈ groupings} a b ↔ Relation.ReflTransGen (Together P e w) a b := by
  obtain ⟨groupings, hgather, hmem⟩ := groupTxs_ok (e := e) ∅ (allKnown_iff.mp h)
  have hgroup : ∀ g, g ∈ groupings ↔ ∃ hash pcoin, w.mapWallet.lookup hash = some pcoin ∧ GroupOf P e w pcoin g := by
    intro g
    rw [hmem, ← entries_iff]
    simp
  -- each transaction that spends from the wallet gives its group
  have hspend : ∀ hash pcoin, w.mapWallet.lookup hash = some pcoin → SpendsOurs P w pcoin →
      ∃ g ∈ groupings, ∀ a, a ∈ g ↔ UsesAddress e w pcoin a := by
    intro hash pcoin hlookup hours
    have hall := h hash pcoin hlookup hours
    obtain ⟨txin, htxin, hmine⟩ := hours
    obtain ⟨vin, hvin⟩ := List.head?_eq_some_iff.mp htxin
    obtain ⟨-, g, -, -, huses⟩ := exists_used (e := e) hvin hall
    exact ⟨g, (hgroup g).mpr ⟨hash, pcoin, hlookup, .inl ⟨⟨txin, htxin, hmine⟩, huses⟩⟩, huses⟩
  refine ⟨groupings, hgather, fun a => ?_, fun a b => linked_iff ?_ ?_⟩
  · constructor
    · intro ⟨g, hg, ha⟩
      obtain ⟨hash, pcoin, hlookup, hof⟩ := (hgroup g).mp hg
      refine ⟨hash, pcoin, hlookup, ?_⟩
      rcases hof with ⟨hours, huses⟩ | ⟨txout, htxout, hmine, address, haddress, hlone⟩
      · exact .inl ⟨hours, (huses a).mp ha⟩
      · rw [hlone, Finset.mem_singleton] at ha
        exact .inr ⟨txout, htxout, hmine, by rw [ha]; exact haddress⟩
    · intro ⟨hash, pcoin, hlookup, hseen⟩
      rcases hseen with ⟨hours, ha⟩ | ⟨txout, htxout, hmine, haddress⟩
      · obtain ⟨g, hg, huses⟩ := hspend hash pcoin hlookup hours
        exact ⟨g, hg, (huses a).mpr ha⟩
      · exact ⟨{a}, (hgroup _).mpr ⟨hash, pcoin, hlookup, .inr ⟨txout, htxout, hmine, a, haddress, rfl⟩⟩, by simp⟩
  · intro a b hjoined
    obtain ⟨g, hg, ha, hb⟩ := hjoined
    obtain ⟨hash, pcoin, hlookup, hof⟩ := (hgroup g).mp hg
    rcases hof with ⟨hours, huses⟩ | ⟨-, -, -, address, -, hlone⟩
    · exact .inr ⟨hash, pcoin, hlookup, hours, (huses a).mp ha, (huses b).mp hb⟩
    · rw [hlone, Finset.mem_singleton] at ha hb
      exact .inl (ha.trans hb.symm)
  · intro a b htogether
    obtain ⟨hash, pcoin, hlookup, hours, ha, hb⟩ := htogether
    obtain ⟨g, hg, huses⟩ := hspend hash pcoin hlookup hours
    exact ⟨g, hg, (huses a).mpr ha, (huses b).mpr hb⟩

/-- Where no index is out of range, all inputs are known. -/
theorem GroupsAddresses.allKnown {order : SetOrder} (h : GroupsAddresses P e w order) : AllKnown P w := by
  obtain ⟨groups, hok, -⟩ := h
  unfold CWallet.getAddressGroupings at hok
  cases hgather : w.mapWallet.entries.foldlM (fun acc entry => groupTx P e acc entry.2) (w, ∅) with
  | error err =>
    rw [hgather] at hok
    cases hok
  | ok out => exact allKnown_iff.mpr (groupTxs_known hgather)

/-- **`GetAddressGroupings`, exactly**: it groups the addresses that belong
together if and only if no transaction that spends from the wallet has an input
that the wallet does not know. -/
theorem groupsAddresses_iff (P : Params) (e : GroupEnv) (order : SetOrder) (w : CWallet) :
    GroupsAddresses P e w order ↔ AllKnown P w := by
  constructor
  · exact GroupsAddresses.allKnown
  · intro hknown
    obtain ⟨groupings, hgather, hseen, hlinked⟩ := exists_gathered (e := e) hknown
    have hcomponents := UniqueGroups.isComponents_ret order groupings
    refine ⟨((order.list groupings).foldl UniqueGroups.merge .empty).ret, ?_, fun a => ?_, fun g hg a ha b => ?_, ?_⟩
    · rw [CWallet.getAddressGroupings, hgather]
      rfl
    · exact (hcomponents.cover a).trans (hseen a)
    · exact (hcomponents.linked g hg a ha b).trans (hlinked a b)
    · intro g hg g' hg' hne
      exact hcomponents.disjoint hg hg' hne

end

/-! ## An input of someone else -/

namespace Sample

/-- A transaction that spends the payment to the wallet together with an output
of someone else. -/
def joint : CTransaction := ⟨1, 1001, [⟨⟨1000, 0⟩, [], UINT_MAX⟩, ⟨⟨9, 0⟩, [], UINT_MAX⟩], [⟨COIN, [2]⟩], 0⟩

/-- The wallet that is told of both. -/
def jointWallet : CWallet :=
  Runs.play (WalletEvent.run (params true))
    [.addToWalletIfInvolvingMe 5 true funding none true, .addToWalletIfInvolvingMe 6 true joint none true] ⟨∅, keystore, 0⟩

def groupEnv : GroupEnv := ⟨uint160OfVch, fun _ => true, fun _ => true⟩

/-- Some order. -/
noncomputable def setOrder : SetOrder := ⟨Finset.toList, Finset.toList_toFinset⟩

end Sample

/-- The output of someone else is looked up in the wallet. -/
theorem not_groupsAddresses_joint : ¬ GroupsAddresses (Sample.params true) Sample.groupEnv Sample.jointWallet Sample.setOrder := by
  intro h
  have hall := h.allKnown
  obtain ⟨w, hw⟩ : ∃ w, Sample.jointWallet = w := ⟨_, rfl⟩
  rw [hw] at hall
  have hjoint : ∃ wtx, w.mapWallet.lookup 1001 = some wtx ∧ wtx.tx = Sample.joint := by
    rw [← hw]
    decide
  have hmine : w.isMineIn (Sample.params true) ⟨⟨1000, 0⟩, [], UINT_MAX⟩ = true := by
    rw [← hw]
    decide
  have hforeign : w.mapWallet.lookup 9 = none := by
    rw [← hw]
    decide
  obtain ⟨wtx, hlookup, htx⟩ := hjoint
  have hours : SpendsOurs (Sample.params true) w wtx := ⟨⟨⟨1000, 0⟩, [], UINT_MAX⟩, by rw [htx]; rfl, hmine⟩
  obtain ⟨prev, hprev, -⟩ := hall 1001 wtx hlookup hours ⟨⟨9, 0⟩, [], UINT_MAX⟩ (by rw [htx]; decide)
  rw [hforeign] at hprev
  exact nomatch hprev

end Pinkcoin
