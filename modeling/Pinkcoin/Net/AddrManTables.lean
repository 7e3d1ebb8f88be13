/-
The five tables of the address manager agree. An id is counted in the buckets
(`newCount`, `triedCount`); in the middle of a call the counter of an id may
be off and the id in no bucket, which its `Slack` says. What a call does
whatever is drawn is said with `Yields`.
-/
import Pinkcoin.Lib.Places
import Pinkcoin.Lib.Tally
import Pinkcoin.Net.AddrMan

namespace Pinkcoin

open Std (TreeMap TreeSet)
open StateError Tally

/-! ## Runs, whatever is drawn -/

namespace AddrManM

variable {α β : Type} {x : AddrManM α} {f : α → AddrManM β} {m : CAddrMan}

/-- The call ends in every case, and `Q` holds of its value and the tables. -/
def Yields (x : AddrManM α) (m : CAddrMan) (Q : α → CAddrMan → Prop) : Prop :=
  ∀ s, s.man = m → Returns x s fun a s' => Q a s'.man

theorem Yields.mono {P Q : α → CAddrMan → Prop} (h : Yields x m P) (hPQ : ∀ a m', P a m' → Q a m') : Yields x m Q :=
  fun s hs => (h s hs).mono fun a _ ha => hPQ a _ ha

theorem Yields.bind {P : α → CAddrMan → Prop} {Q : β → CAddrMan → Prop} (hx : Yields x m P)
    (hf : ∀ a m', P a m' → Yields (f a) m' Q) : Yields (x >>= f) m Q :=
  fun s hs => (hx s hs).bind fun a t ha => hf a t.man ha t rfl

theorem yields_bind {Q : β → CAddrMan → Prop} (hx : Yields x m fun a m' => Yields (f a) m' Q) : Yields (x >>= f) m Q :=
  hx.bind fun _ _ h => h

variable {Q : α → CAddrMan → Prop}

theorem yields_pure {a : α} (h : Q a m) : Yields (pure a) m Q := fun _ hs => returns_pure (hs ▸ h)

theorem yields_man {Q : CAddrMan → CAddrMan → Prop} (h : Q m m) : Yields man m Q := by
  rintro s rfl
  exact ⟨s.man, s, rfl, h⟩

theorem yields_change {g : CAddrMan → CAddrMan} {Q : Unit → CAddrMan → Prop} (h : Q () (g m)) : Yields (change g) m Q := by
  rintro s rfl
  exact ⟨(), _, rfl, h⟩

theorem yields_getRandInt {nMax : Nat} {Q : Nat → CAddrMan → Prop} (h : ∀ r, (0 < nMax → r < nMax) → Q r m) :
    Yields (getRandInt nMax) m Q := by
  rintro s rfl
  refine ⟨_, _, rfl, h _ fun hpos => ?_⟩
  rw [if_neg (Nat.pos_iff_ne_zero.mp hpos)]
  exact Nat.mod_lt _ hpos

theorem yields_getAdjustedTime {Q : Int → CAddrMan → Prop} (h : ∀ t, Q t m) : Yields getAdjustedTime m Q := by
  rintro s rfl
  exact ⟨_, _, rfl, h _⟩

theorem yields_assertThat {c : Prop} [Decidable c] {Q : Unit → CAddrMan → Prop} (hc : c) (h : Q () m) :
    Yields (assertThat c) m Q := fun _ hs => returns_rejectIf (not_not_intro hc) (hs ▸ h)

theorem yields_orStop {e : AddrManError} {o : Option α} {a : α} (ho : o = some a) (h : Q a m) :
    Yields (orStop e o) m Q := by
  subst ho
  exact yields_pure h

theorem yields_infoAt {nId : Int} {info : CAddrInfo} {Q : CAddrInfo → CAddrMan → Prop} (hinfo : m.mapInfo[nId]? = some info)
    (h : Q info m) : Yields (infoAt nId) m Q := yields_bind (yields_man (yields_orStop hinfo h))

theorem yields_newAt {b : Nat} {S : TreeSet Int} {Q : TreeSet Int → CAddrMan → Prop} (hS : m.vvNew[b]? = some S)
    (h : Q S m) : Yields (newAt b) m Q := yields_bind (yields_man (yields_orStop hS h))

theorem yields_triedAt {b : Nat} {l : List Int} {Q : List Int → CAddrMan → Prop} (hl : m.vvTried[b]? = some l)
    (h : Q l m) : Yields (triedAt b) m Q := yields_bind (yields_man (yields_orStop hl h))

theorem yields_onlyIf {c : Prop} [Decidable c] {y : AddrManM Unit} {Q : Unit → CAddrMan → Prop} (hy : c → Yields y m Q)
    (h : ¬ c → Q () m) : Yields (onlyIf c y) m Q := fun s hs => returns_onlyIf (fun hc => hy hc s hs) fun hc => hs ▸ h hc

theorem yields_ite {c : Prop} [Decidable c] {y : AddrManM α} (hx : c → Yields x m Q) (hy : ¬ c → Yields y m Q) :
    Yields (if c then x else y) m Q := by
  split
  next hc => exact hx hc
  next hc => exact hy hc

theorem yields_foldlM {I : β → Prop} {g : β → α → AddrManM β} {l : List α} {b : β} (hb : I b)
    (h : ∀ b a, a ∈ l → I b → Yields (g b a) m fun b' m' => I b' ∧ m' = m) :
    Yields (l.foldlM g b) m fun b' m' => I b' ∧ m' = m :=
  fun _ hs => returns_foldlM (I := fun b s => I b ∧ s.man = m) ⟨hb, hs⟩ fun b a s ha hbs => h b a ha hbs.1 s hbs.2

end AddrManM

open AddrManM

namespace CAddrMan

variable {m m' : CAddrMan} {n k : Int} {b : Nat} {info : CAddrInfo}

/-! ## The tables read by id -/

def addrOf (m : CAddrMan) (n : Int) : Option CNetAddr := m.mapInfo[n]?.map (·.netAddr)

def randomPos (m : CAddrMan) (n : Int) : Option Int := m.mapInfo[n]?.map (·.nRandomPos)

/-- How many "new" buckets hold `n`. -/
def newCount (m : CAddrMan) (n : Int) : Nat := tally (fun S => if n ∈ S then 1 else 0) m.vvNew

/-- How often `n` is in the "tried" buckets. -/
def triedCount (m : CAddrMan) (n : Int) : Nat := tally (List.count n) m.vvTried

/-- How many places of the "tried" buckets are taken. -/
def triedSize (m : CAddrMan) : Nat := tally List.length m.vvTried

theorem mapInfo_updateInfo {f : CAddrInfo → CAddrInfo} :
    (m.updateInfo n f).mapInfo[k]? = if n = k then (m.mapInfo[k]?).map f else m.mapInfo[k]? := by
  rw [updateInfo, TreeMap.getElem?_modify]
  by_cases hnk : n = k
  · rw [if_pos (compare_eq_iff_eq.mpr hnk), if_pos hnk, hnk]
  · rw [if_neg fun h => hnk (compare_eq_iff_eq.mp h), if_neg hnk]

theorem mapInfo_updateInfo_of_ne {f : CAddrInfo → CAddrInfo} (h : k ≠ n) : (m.updateInfo n f).mapInfo[k]? = m.mapInfo[k]? := by
  rw [mapInfo_updateInfo, if_neg (Ne.symm h)]

theorem mapInfo_updateInfo_self {f : CAddrInfo → CAddrInfo} : (m.updateInfo n f).mapInfo[n]? = (m.mapInfo[n]?).map f := by
  rw [mapInfo_updateInfo, if_pos rfl]

/-- A field the update leaves alone. -/
theorem map_updateInfo {α : Type} {f : CAddrInfo → CAddrInfo} {p : CAddrInfo → α} (hp : ∀ i, p (f i) = p i) :
    ((m.updateInfo n f).mapInfo[k]?).map p = (m.mapInfo[k]?).map p := by
  rw [mapInfo_updateInfo]
  split
  · rw [Option.map_map]
    exact congrFun (congrArg Option.map (funext hp)) _
  · rfl

/-! ## What the tables say of each other -/

/-- What may be open about an id in the middle of a call: references counted
in `nRefCount` and not in a bucket, and whether it is in no bucket at all. -/
structure Slack where
  owed : Int
  loose : Bool

def Slack.none : Slack := ⟨0, false⟩

/-- **An entry and its places in the buckets.** -/
def Filed (info : Option CAddrInfo) (news tried : Nat) (slack : Slack) : Prop :=
  match info with
  | Option.none => (news : Int) + slack.owed = 0 ∧ tried = 0 ∧ slack.loose = false
  | some info =>
    info.nRefCount = news + slack.owed ∧ (tried = if info.fInTried then 1 else 0) ∧
      if info.fInTried ∨ slack.loose then info.nRefCount = 0 ∧ ¬ (info.fInTried ∧ slack.loose)
      else 1 ≤ info.nRefCount ∧ info.nRefCount ≤ ADDRMAN_NEW_BUCKETS_PER_ADDRESS

theorem filed_untried {news tried : Nat} {c : Slack} (h : info.fInTried = false) :
    Filed (some info) news tried c ↔ info.nRefCount = news + c.owed ∧ tried = 0 ∧
      if c.loose then info.nRefCount = 0 else 1 ≤ info.nRefCount ∧ info.nRefCount ≤ ADDRMAN_NEW_BUCKETS_PER_ADDRESS := by
  simp [Filed, h]

theorem filed_tried {news tried : Nat} {c : Slack} (h : info.fInTried = true) :
    Filed (some info) news tried c ↔ info.nRefCount = news + c.owed ∧ tried = 1 ∧ info.nRefCount = 0 ∧ c.loose = false := by
  simp [Filed, h]

/-- The buckets are there, and none is over its size. -/
structure Sizes (vvTried : List (List Int)) (vvNew : List (TreeSet Int)) : Prop where
  triedBuckets : vvTried.length = ADDRMAN_TRIED_BUCKET_COUNT
  newBuckets : vvNew.length = ADDRMAN_NEW_BUCKET_COUNT
  triedFit : ∀ l ∈ vvTried, l.length ≤ ADDRMAN_TRIED_BUCKET_SIZE
  newFit : ∀ S ∈ vvNew, S.size ≤ ADDRMAN_NEW_BUCKET_SIZE

/-- Ids, addresses and random positions name each other. -/
structure Indexed (m : CAddrMan) : Prop where
  ids : 0 ≤ m.nIdCount
  fresh : ∀ {n}, m.mapInfo[n]?.isSome → 0 ≤ n ∧ n < m.nIdCount
  addr : ∀ a n, m.mapAddr.lookup a = some n ↔ m.addrOf n = some a
  places : Places m.vRandom m.randomPos

/-- **The tables agree**, up to the slack of the ids and to `off` entries that
are not counted. -/
structure Sound (m : CAddrMan) (slack : Int → Slack) (off : Int) : Prop where
  sizes : Sizes m.vvTried m.vvNew
  indexed : m.Indexed
  filed : ∀ n, Filed m.mapInfo[n]? (m.newCount n) (m.triedCount n) (slack n)
  triedTotal : m.nTried = m.triedSize
  total : m.nTried + m.nNew + off = m.vRandom.length

/-- No call is under way. -/
abbrev Settled (m : CAddrMan) : Prop := m.Sound (fun _ => .none) 0

theorem settled_init (nKey : List UInt8) : (init nKey).Settled := by
  have hnone : ∀ n, (init nKey).mapInfo[n]? = none := fun n => TreeMap.getElem?_emptyc
  have htried : ∀ l ∈ (init nKey).vvTried, l = [] := fun l => List.eq_of_mem_replicate
  have hnew : ∀ S ∈ (init nKey).vvNew, S = ∅ := fun S => List.eq_of_mem_replicate
  refine ⟨⟨List.length_replicate, List.length_replicate, fun l hl => ?_, fun S hS => ?_⟩, ⟨le_rfl, fun hn => ?_, fun a n => ?_, ?_⟩,
    fun n => ?_, ?_, rfl⟩
  · rw [htried l hl]
    exact Nat.zero_le _
  · rw [hnew S hS, TreeSet.size_emptyc]
    exact Nat.zero_le _
  · rw [hnone] at hn
    exact nomatch hn
  · rw [addrOf, hnone]
    exact ⟨nofun, nofun⟩
  · exact Places.empty.congr fun n => by rw [randomPos, hnone]; rfl
  · have hnews : (init nKey).newCount n = 0 := tally_eq_zero fun S hS => by
      rw [hnew S hS]
      exact if_neg TreeSet.not_mem_emptyc
    have htrieds : (init nKey).triedCount n = 0 := tally_eq_zero fun l hl => by
      rw [htried l hl]
      exact List.count_nil
    rw [hnone, hnews, htrieds]
    exact ⟨rfl, rfl, rfl⟩
  · have hsize : (init nKey).triedSize = 0 := tally_eq_zero fun l hl => by
      rw [htried l hl]
      rfl
    rw [hsize]
    rfl

/-! ## One id at a time -/

/-- An edit of an entry that keeps its address and its position. -/
structure InPlace (f : CAddrInfo → CAddrInfo) : Prop where
  netAddr : ∀ i, (f i).netAddr = i.netAddr
  nRandomPos : ∀ i, (f i).nRandomPos = i.nRandomPos

theorem Indexed.updateInfo {f : CAddrInfo → CAddrInfo} (h : m.Indexed) (hf : InPlace f) : (m.updateInfo n f).Indexed where
  ids := h.ids
  fresh := by
    intro k hk
    rw [mapInfo_updateInfo] at hk
    split at hk
    · rw [Option.isSome_map] at hk
      exact h.fresh hk
    · exact h.fresh hk
  addr a k := by
    rw [addrOf, map_updateInfo hf.netAddr]
    exact h.addr a k
  places := h.places.congr fun k => map_updateInfo hf.nRandomPos

namespace Sound

variable {slack : Int → Slack} {off off' : Int}

/-- **Only the files of one id change.** -/
theorem file (h : m.Sound slack off) (hsizes : Sizes m'.vvTried m'.vvNew) (hindexed : m'.Indexed)
    (hother : ∀ k, k ≠ n → m'.mapInfo[k]? = m.mapInfo[k]? ∧ m'.newCount k = m.newCount k ∧ m'.triedCount k = m.triedCount k)
    {o : Slack} (hfiled : Filed m'.mapInfo[n]? (m'.newCount n) (m'.triedCount n) o)
    (htried : m'.nTried = m'.triedSize) (htotal : m'.nTried + m'.nNew + off' = m'.vRandom.length) :
    m'.Sound (Function.update slack n o) off' where
  sizes := hsizes
  indexed := hindexed
  filed k := by
    by_cases hk : k = n
    · subst hk
      rwa [Function.update_self]
    · obtain ⟨hinfo, hnew, htried⟩ := hother k hk
      rw [Function.update_of_ne hk, hinfo, hnew, htried]
      exact h.filed k
  triedTotal := htried
  total := htotal

/-- An edit of one entry. -/
theorem edit {f : CAddrInfo → CAddrInfo} {o : Slack} (h : m.Sound slack off) (hf : InPlace f)
    (hfiled : Filed ((m.mapInfo[n]?).map f) (m.newCount n) (m.triedCount n) o) :
    (m.updateInfo n f).Sound (Function.update slack n o) off := by
  refine h.file ?_ (h.indexed.updateInfo hf) ?_ ?_ h.triedTotal h.total
  · exact h.sizes
  · exact fun k hk => ⟨mapInfo_updateInfo_of_ne hk, rfl, rfl⟩
  · rwa [mapInfo_updateInfo_self]

/-- Fields no table is built on. -/
theorem touch {f : CAddrInfo → CAddrInfo} (h : m.Sound slack off) (hf : InPlace f) (hrefs : ∀ i, (f i).nRefCount = i.nRefCount)
    (htried : ∀ i, (f i).fInTried = i.fInTried) : (m.updateInfo n f).Sound slack off := by
  have hfiled := h.filed n
  have hsame := h.edit (o := slack n) hf <| by
    cases hn : m.mapInfo[n]? with
    | none => rwa [hn] at hfiled
    | some info =>
      rw [hn] at hfiled
      rw [Option.map_some, Filed, hrefs, htried]
      exact hfiled
  rwa [Function.update_eq_self] at hsame

end Sound

/-! ## The "new" buckets -/

theorem Sizes.modifyNew {vvTried : List (List Int)} {vvNew : List (TreeSet Int)} {f : TreeSet Int → TreeSet Int}
    (h : Sizes vvTried vvNew) (hf : ∀ S, vvNew[b]? = some S → (f S).size ≤ ADDRMAN_NEW_BUCKET_SIZE) :
    Sizes vvTried (vvNew.modify b f) where
  triedBuckets := h.triedBuckets
  newBuckets := by rw [List.length_modify, h.newBuckets]
  triedFit := h.triedFit
  newFit := by
    intro S hS
    obtain ⟨c, hc⟩ := List.getElem?_of_mem hS
    rw [List.getElem?_modify] at hc
    split at hc
    next hbc =>
      obtain ⟨T, hT, rfl⟩ := Option.map_eq_some_iff.mp hc
      exact hf T (hbc ▸ hT)
    next => exact h.newFit S (List.mem_of_getElem? (by simpa using hc))

theorem newCount_updateNew_of_ne {f : TreeSet Int → TreeSet Int} (hf : ∀ S, k ∈ f S ↔ k ∈ S) :
    (m.updateNew b f).newCount k = m.newCount k := tally_modify_of_eq fun S _ => by simp only [hf]

theorem newCount_insert {S : TreeSet Int} (hS : m.vvNew[b]? = some S) (hn : n ∉ S) :
    (m.updateNew b (·.insert n)).newCount n = m.newCount n + 1 := by
  have h := tally_modify (w := fun S : TreeSet Int => if n ∈ S then 1 else 0) (f := (·.insert n)) hS
  rw [if_neg hn, if_pos TreeSet.mem_insert_self] at h
  exact h

theorem newCount_erase {S : TreeSet Int} (hS : m.vvNew[b]? = some S) (hn : n ∈ S) :
    (m.updateNew b (·.erase n)).newCount n + 1 = m.newCount n := by
  have h := tally_modify (w := fun S : TreeSet Int => if n ∈ S then 1 else 0) (f := (·.erase n)) hS
  rw [if_pos hn, if_neg (by simp : n ∉ S.erase n)] at h
  exact h

theorem mem_insert_of_ne {S : TreeSet Int} (h : k ≠ n) : k ∈ S.insert n ↔ k ∈ S := by
  rw [TreeSet.mem_insert, compare_eq_iff_eq, or_iff_right (Ne.symm h)]

theorem mem_erase_of_ne {S : TreeSet Int} (h : k ≠ n) : k ∈ S.erase n ↔ k ∈ S := by
  rw [TreeSet.mem_erase, ne_eq, compare_eq_iff_eq, and_iff_right (Ne.symm h)]

theorem newCount_pos {S : TreeSet Int} (hS : m.vvNew[b]? = some S) (hn : n ∈ S) : 0 < m.newCount n := by
  have h := newCount_erase hS hn
  omega

namespace Sound

variable {slack : Int → Slack} {off : Int} {S : TreeSet Int}

/-- Changing whether a bucket holds `n`. -/
theorem fileNew {f : TreeSet Int → TreeSet Int} {o : Slack} (h : m.Sound slack off)
    (hfit : ∀ S, m.vvNew[b]? = some S → (f S).size ≤ ADDRMAN_NEW_BUCKET_SIZE) (hf : ∀ k, k ≠ n → ∀ S, k ∈ f S ↔ k ∈ S)
    (hfiled : Filed m.mapInfo[n]? ((m.updateNew b f).newCount n) (m.triedCount n) o) :
    (m.updateNew b f).Sound (Function.update slack n o) off := by
  refine h.file (h.sizes.modifyNew hfit) ?_ ?_ hfiled h.triedTotal h.total
  · exact ⟨h.indexed.ids, h.indexed.fresh, h.indexed.addr, h.indexed.places⟩
  · exact fun k hk => ⟨rfl, newCount_updateNew_of_ne (hf k hk), rfl⟩

/-- An owed reference is paid. -/
theorem insertNew (h : m.Sound slack off) (hS : m.vvNew[b]? = some S) (hn : n ∉ S) (hsize : S.size < ADDRMAN_NEW_BUCKET_SIZE)
    (hloose : (slack n).loose = false) :
    (m.updateNew b (·.insert n)).Sound (Function.update slack n ⟨(slack n).owed - 1, false⟩) off := by
  refine h.fileNew ?_ (fun k hk S => mem_insert_of_ne hk) ?_
  · intro T hT
    obtain rfl := Option.some.inj (hS.symm.trans hT)
    rw [TreeSet.size_insert]
    split <;> omega
  · have hfiled := h.filed n
    rw [newCount_insert hS hn]
    cases hinfo : m.mapInfo[n]? with
    | none =>
      rw [hinfo] at hfiled
      obtain ⟨hcount, htried, -⟩ := hfiled
      refine ⟨?_, htried, rfl⟩
      push_cast
      omega
    | some info =>
      rw [hinfo] at hfiled
      obtain ⟨hcount, htried, hkind⟩ := hfiled
      rw [hloose] at hkind
      refine ⟨?_, htried, hkind⟩
      push_cast
      omega

/-- An entry leaves a bucket that it still counts as left. -/
theorem eraseNew (h : m.Sound slack off) (hS : m.vvNew[b]? = some S) (hn : n ∈ S) :
    (m.updateNew b (·.erase n)).Sound (Function.update slack n ⟨(slack n).owed + 1, (slack n).loose⟩) off := by
  refine h.fileNew ?_ (fun k hk S => mem_erase_of_ne hk) ?_
  · intro T hT
    have hfit := h.sizes.newFit T (List.mem_of_getElem? hT)
    exact le_trans TreeSet.size_erase_le hfit
  · have hfiled := h.filed n
    have herase := newCount_erase hS hn
    cases hinfo : m.mapInfo[n]? with
    | none =>
      rw [hinfo] at hfiled
      obtain ⟨hcount, htried, hloose⟩ := hfiled
      refine ⟨?_, htried, hloose⟩
      simp only
      omega
    | some info =>
      rw [hinfo] at hfiled
      obtain ⟨hcount, htried, hkind⟩ := hfiled
      refine ⟨?_, htried, hkind⟩
      simp only
      omega

/-- An id in a "new" bucket is known and not tried. -/
theorem known (h : m.Sound slack off) (hS : m.vvNew[b]? = some S) (hn : n ∈ S) (howed : 0 ≤ (slack n).owed) :
    ∃ info, m.mapInfo[n]? = some info ∧ info.fInTried = false ∧ 1 ≤ info.nRefCount ∧ (slack n).loose = false := by
  have hpos := newCount_pos hS hn
  have hfiled := h.filed n
  cases hinfo : m.mapInfo[n]? with
  | none =>
    rw [hinfo] at hfiled
    have := hfiled.1
    omega
  | some info =>
    rw [hinfo] at hfiled
    obtain ⟨hcount, -, hkind⟩ := hfiled
    refine ⟨info, rfl, ?_⟩
    split at hkind
    · have := hkind.1
      omega
    next hnot => 
      obtain ⟨htried, hloose⟩ := not_or.mp hnot
      exact ⟨Bool.eq_false_iff.mpr htried, hkind.1, Bool.eq_false_iff.mpr hloose⟩

end Sound

/-! ## The random order -/

/-- Only `vRandom` and the positions in it differ. -/
structure Reordered (m m' : CAddrMan) : Prop where
  nKey : m'.nKey = m.nKey
  nIdCount : m'.nIdCount = m.nIdCount
  mapAddr : m'.mapAddr = m.mapAddr
  nTried : m'.nTried = m.nTried
  vvTried : m'.vvTried = m.vvTried
  nNew : m'.nNew = m.nNew
  vvNew : m'.vvNew = m.vvNew
  length : m'.vRandom.length = m.vRandom.length
  entry : ∀ k : Int, ∃ p : CAddrInfo → Int, m'.mapInfo[k]? = (m.mapInfo[k]?).map fun i : CAddrInfo => { i with nRandomPos := p i }
  places : Places m.vRandom m.randomPos → Places m'.vRandom m'.randomPos

theorem Reordered.refl (m : CAddrMan) : m.Reordered m := by
  refine ⟨rfl, rfl, rfl, rfl, rfl, rfl, rfl, rfl, fun k => ⟨fun i => i.nRandomPos, ?_⟩, id⟩
  exact Option.map_id'.symm

theorem Reordered.isSome (h : m.Reordered m') (k : Int) : m'.mapInfo[k]?.isSome = m.mapInfo[k]?.isSome := by
  obtain ⟨p, hp⟩ := h.entry k
  rw [hp, Option.isSome_map]

theorem Reordered.of_info (h : m.Reordered m') (hinfo : m.mapInfo[n]? = some info) :
    ∃ q, m'.mapInfo[n]? = some { info with nRandomPos := q } := by
  obtain ⟨p, hp⟩ := h.entry n
  exact ⟨p info, by rw [hp, hinfo]; rfl⟩

theorem Sound.reordered {slack : Int → Slack} {off : Int} (h : m.Sound slack off) (hm : m.Reordered m') : m'.Sound slack off where
  sizes := by
    rw [hm.vvTried, hm.vvNew]
    exact h.sizes
  indexed := by
    refine ⟨hm.nIdCount ▸ h.indexed.ids, fun {n} hn => ?_, fun a n => ?_, hm.places h.indexed.places⟩
    · rw [hm.isSome] at hn
      rw [hm.nIdCount]
      exact h.indexed.fresh hn
    · obtain ⟨p, hp⟩ := hm.entry n
      rw [hm.mapAddr, addrOf, hp, Option.map_map]
      exact h.indexed.addr a n
  filed n := by
    have hfiled := h.filed n
    obtain ⟨p, hp⟩ := hm.entry n
    rw [newCount, hm.vvNew, triedCount, hm.vvTried, hp]
    cases hinfo : m.mapInfo[n]? with
    | none => rwa [hinfo] at hfiled
    | some info => rwa [hinfo] at hfiled
  triedTotal := by
    rw [hm.nTried, triedSize, hm.vvTried]
    exact h.triedTotal
  total := by
    rw [hm.nTried, hm.nNew, hm.length]
    exact h.total

theorem mem_of_info (h : m.mapInfo[n]? = some info) : n ∈ m.mapInfo :=
  TreeMap.isSome_getElem?_iff_mem.mp (by rw [h]; rfl)

theorem info_of_place (h : Places m.vRandom m.randomPos) {p : Nat} (hp : m.vRandom[p]? = some n) :
    ∃ info, m.mapInfo[n]? = some info ∧ info.nRandomPos = p :=
  Option.map_eq_some_iff.mp (h.position hp)

/-- **`SwapRandom`** on positions that exist only reorders, and brings the
first element to the second position. -/
theorem yields_swapRandom (h : Places m.vRandom m.randomPos) {p q : Nat} (hp : m.vRandom[p]? = some n)
    (hq : m.vRandom[q]? = some k) :
    Yields (swapRandom p q) m fun _ m' => m.Reordered m' ∧ m'.vRandom[q]? = some n := by
  refine yields_onlyIf (fun hpq => ?_) fun hpq => ?_
  · obtain ⟨info₁, hinfo₁, hpos₁⟩ := info_of_place h hp
    obtain ⟨info₂, hinfo₂, hpos₂⟩ := info_of_place h hq
    have hplt := (List.getElem?_eq_some_iff.mp hp).1
    have hqlt := (List.getElem?_eq_some_iff.mp hq).1
    refine yields_bind (yields_man ?_)
    refine yields_bind (yields_assertThat ⟨hplt, hqlt⟩ ?_)
    refine yields_bind (yields_orStop hp (yields_bind (yields_orStop hq ?_)))
    refine yields_bind (yields_assertThat (mem_of_info hinfo₁) (yields_bind (yields_assertThat (mem_of_info hinfo₂) ?_)))
    refine yields_bind (yields_change (yields_bind (yields_change (yields_change ⟨⟨rfl, rfl, rfl, rfl, rfl, rfl, rfl, ?_, ?_, ?_⟩, ?_⟩))))
    · simp only [List.length_set]
      rfl
    · intro r
      refine ⟨fun i => if k = r then p else if n = r then q else i.nRandomPos, ?_⟩
      simp only [mapInfo_updateInfo]
      split
      · split
        · rw [Option.map_map]
          rfl
        · rfl
      · split
        · rfl
        · exact Option.map_id'.symm
    · intro _
      refine (h.swap hp hq hpq).congr fun r => ?_
      simp only [randomPos, mapInfo_updateInfo]
      by_cases hkr : k = r
      · subst hkr
        rw [if_pos rfl, Function.update_self]
        split <;> rw [hinfo₂] <;> rfl
      · rw [if_neg hkr, Function.update_of_ne (Ne.symm hkr)]
        by_cases hnr : n = r
        · subst hnr
          rw [if_pos rfl, Function.update_self, hinfo₁]
          rfl
        · rw [if_neg hnr, Function.update_of_ne (Ne.symm hnr)]
          rfl
    · simp only [updateInfo]
      rw [List.getElem?_set_self]
      rwa [List.length_set]
  · obtain rfl := not_not.mp hpq
    exact ⟨Reordered.refl m, hp⟩

/-! ## Entries that go -/

/-- The deletion of the entry that is last in the random order. -/
def removeLast (m : CAddrMan) (n : Int) (a : CNetAddr) : CAddrMan :=
  { m with vRandom := m.vRandom.dropLast, mapAddr := m.mapAddr.erase a, mapInfo := m.mapInfo.erase n, nNew := m.nNew - 1 }

theorem mapInfo_removeLast {a : CNetAddr} :
    (m.removeLast n a).mapInfo[k]? = if n = k then none else m.mapInfo[k]? := by
  rw [removeLast, TreeMap.getElem?_erase]
  by_cases hnk : n = k
  · rw [if_pos (compare_eq_iff_eq.mpr hnk), if_pos hnk]
  · rw [if_neg fun h => hnk (compare_eq_iff_eq.mp h), if_neg hnk]

theorem Indexed.removeLast (h : m.Indexed) (hn : m.mapInfo[n]? = some info) (hlast : m.vRandom.getLast? = some n) :
    (m.removeLast n info.netAddr).Indexed where
  ids := h.ids
  fresh := by
    intro k hk
    rw [mapInfo_removeLast] at hk
    split at hk
    · exact nomatch hk
    · exact h.fresh hk
  addr a k := by
    have hinfo : m.addrOf n = some info.netAddr := by
      rw [addrOf, hn]
      rfl
    have hk := h.addr a k
    rw [addrOf, mapInfo_removeLast]
    change (m.mapAddr.erase info.netAddr).lookup a = _ ↔ _
    by_cases ha : a = info.netAddr
    · subst ha
      rw [AList.lookup_erase]
      have hone := ((h.addr _ n).mpr hinfo)
      refine ⟨nofun, fun hc => ?_⟩
      split at hc
      next => exact nomatch hc
      next hnk =>
        rw [hone, Option.some.injEq] at hk
        exact absurd (hk.mpr hc) hnk
    · rw [AList.lookup_erase_ne ha, hk]
      split
      next hnk =>
        subst hnk
        rw [hinfo]
        exact ⟨fun hc => absurd (Option.some.inj hc).symm ha, nofun⟩
      next => exact Iff.rfl
  places := by
    refine (h.places.pop hlast).congr fun k => ?_
    rw [randomPos, mapInfo_removeLast]
    by_cases hnk : n = k
    · subst hnk
      rw [if_pos rfl, Function.update_self]
      rfl
    · rw [if_neg hnk, Function.update_of_ne (Ne.symm hnk)]
      rfl

namespace Sound

variable {slack : Int → Slack} {off : Int} {S : TreeSet Int}

/-- An entry in no bucket is deleted. -/
theorem remove (h : m.Sound slack off) (hn : m.mapInfo[n]? = some info) (htried : info.fInTried = false)
    (hrefs : info.nRefCount = 0) (hlast : m.vRandom.getLast? = some n) :
    (m.removeLast n info.netAddr).Sound (Function.update slack n ⟨(slack n).owed, false⟩) off := by
  refine h.file ?_ (h.indexed.removeLast hn hlast) ?_ ?_ h.triedTotal ?_
  · exact h.sizes
  · exact fun k hk => ⟨by rw [mapInfo_removeLast, if_neg (Ne.symm hk)], rfl, rfl⟩
  · have hfiled := h.filed n
    rw [hn] at hfiled
    obtain ⟨hcount, htriedCount, -⟩ := hfiled
    rw [htried] at htriedCount
    rw [mapInfo_removeLast, if_pos rfl]
    exact ⟨(hrefs.symm.trans hcount).symm, htriedCount, rfl⟩
  · have htotal := h.total
    have hpos : 0 < m.vRandom.length := List.length_pos_of_mem (List.mem_of_getLast? hlast)
    simp only [CAddrMan.removeLast, List.length_dropLast]
    omega

end Sound

end CAddrMan

end Pinkcoin
