/-
Runs of the key pool, its calls in any order and with any reservations. A run
whose new keys never come under an index that is reserved is safe; one in
which a reservation is out when the pool is made anew is not.
-/
import Pinkcoin.Keys.KeyPoolFacts
import Pinkcoin.Lib.Runs

namespace Pinkcoin

open Std (TreeSet)
open StateError

namespace KeyPool

/-! ## Runs -/

/-- The key a call gave out, and the key whose index it kept. -/
structure Event where
  handed : Option CPubKey
  kept : Option CPubKey
  deriving DecidableEq

/-- The wallet, and what the calls did so far. -/
structure History where
  wallet : KeyPool
  events : List Event

/-- A call, of a reservation by its number. -/
inductive Call
  | topUpKeyPool (nSize : UInt32)
  | newKeyPool
  /-- Its index and its key become those of a reservation. -/
  | reserveKeyFromKeyPool (a : Nat)
  | getReservedKey (a : Nat)
  | keepKey (a : Nat)
  | returnKey (a : Nat)
  | getKeyFromPool (fAllowReuse : Bool)
  | getOldestKeyPoolTime
  /-- `Lock` and `Unlock`. -/
  | setLocked (fLocked : Bool)

namespace Call

variable (hash160 : List UInt8 → CKeyID) (arg : Int)

def perform : Call → KeyPoolM Event
  | topUpKeyPool nSize => do
    let _ ← KeyPool.topUpKeyPool hash160 arg nSize
    pure ⟨none, none⟩
  | newKeyPool => do
    let _ ← KeyPool.newKeyPool hash160 arg
    pure ⟨none, none⟩
  | reserveKeyFromKeyPool a => do
    let reserved ← KeyPool.reserveKeyFromKeyPool hash160 arg (some a)
    match reserved with
    | none => pure ⟨none, none⟩
    | some (_, keypool) => do
      modify fun s => s.reserve a { s.reserveKeys a with vchPubKey := keypool.vchPubKey }
      pure ⟨some keypool.vchPubKey, none⟩
  | getReservedKey a => do
    let handed ← KeyPool.getReservedKey hash160 arg a
    pure ⟨handed, none⟩
  | keepKey a => do
    let s ← get
    KeyPool.keepKey a
    pure ⟨none, if (s.reserveKeys a).nIndex ≠ -1 then some (s.reserveKeys a).vchPubKey else none⟩
  | returnKey a => do
    KeyPool.returnKey a
    pure ⟨none, none⟩
  | getKeyFromPool fAllowReuse => do
    let result ← KeyPool.getKeyFromPool hash160 arg fAllowReuse
    match result with
    | none => pure ⟨none, none⟩
    | some (key, nIndex) => pure ⟨some key, nIndex.map fun _ => key⟩
  | getOldestKeyPoolTime => do
    let _ ← KeyPool.getOldestKeyPoolTime hash160 arg
    pure ⟨none, none⟩
  | setLocked fLocked => do
    modify fun s => { s with fLocked }
    pure ⟨none, none⟩

/-- A call that stops gives nothing out. -/
def step (c : Call) (h : History) : History :=
  match c.perform hash160 arg h.wallet with
  | .ok e s => ⟨s, h.events ++ [e]⟩
  | .error _ s => ⟨s, h.events⟩

/-- **No new key comes under an index that is reserved.** -/
def Clear : Call → KeyPool → Prop
  | topUpKeyPool nSize, s => s.NoneIn s.nEnd (s.missing arg nSize)
  | newKeyPool, s => s.NoneIn 1 (s.renewed arg)
  | reserveKeyFromKeyPool a, s => (s.withIndex (-1) (some a)).NoneIn s.nEnd (s.missing arg 0)
  | getReservedKey a, s => (s.reserveKeys a).nIndex = -1 → s.NoneIn s.nEnd (s.missing arg 0)
  | getKeyFromPool _, s => s.NoneIn s.nEnd (s.missing arg 0)
  | getOldestKeyPoolTime, s => s.NoneIn s.nEnd (s.missing arg 0)
  | keepKey _, _ | returnKey _, _ | setLocked _, _ => True

/-- A bound on the keys a call makes. -/
def keysMade : Call → KeyPool → Nat
  | topUpKeyPool nSize, s => s.missing arg nSize
  | newKeyPool, s => s.renewed arg
  | reserveKeyFromKeyPool _, s | getReservedKey _, s | getOldestKeyPoolTime, s => s.missing arg 0
  | getKeyFromPool _, s => s.missing arg 0 + 1
  | keepKey _, _ | returnKey _, _ | setLocked _, _ => 0

end Call

/-- A wallet as it is loaded: nothing is reserved. -/
structure Start (hash160 : List UInt8 → CKeyID) (s : KeyPool) : Prop where
  unreserved : ∀ a, (s.reserveKeys a).nIndex = -1
  positive : ∀ n ∈ s.setKeyPool, 0 < n
  recorded : ∀ n ∈ s.setKeyPool, ∃ k, s.keyAt n = some k ∧ s.haveKey hash160 k ∧ k.isValid ∧ k ≠ s.vchDefaultKey
  distinct : ∀ n ∈ s.setKeyPool, ∀ n' ∈ s.setKeyPool, ∀ k, s.keyAt n = some k → s.keyAt n' = some k → n = n'
  default : s.vchDefaultKey.isValid → s.haveKey hash160 s.vchDefaultKey

/-- **The key pool is safe**: indexes and reservations are distinct, each has
its record, and no key that was kept is given out later. -/
structure Safe (hash160 : List UInt8 → CKeyID) (h : History) : Prop where
  apart : ∀ a b, a ≠ b → (h.wallet.reserveKeys a).nIndex ≠ -1 → (h.wallet.reserveKeys a).nIndex ≠ (h.wallet.reserveKeys b).nIndex
  taken : ∀ a, (h.wallet.reserveKeys a).nIndex ≠ -1 → (h.wallet.reserveKeys a).nIndex ∉ h.wallet.setKeyPool
  recorded : ∀ n, h.wallet.Held n → ∃ k, h.wallet.keyAt n = some k ∧ h.wallet.haveKey hash160 k
  once : h.events.Pairwise fun e e' => ∀ k, e.kept = some k → e'.handed ≠ some k

variable {hash160 : List UInt8 → CKeyID} {arg : Int} {s s' t : KeyPool} {kept : List CPubKey} {n : Int} {k : CPubKey} {a : Nat}

/-- What a call leaves: the pool in agreement with one kept key more, and that
the key given out was none of those kept before. -/
def Kept (hash160 : List UInt8 → CKeyID) (kept : List CPubKey) (e : Event) (s : KeyPool) : Prop :=
  s.Sound hash160 (kept ++ e.kept.toList) ∧ ∀ k, e.handed = some k → k ∉ kept

theorem Sound.nothing (h : s.Sound hash160 kept) : Kept hash160 kept ⟨none, none⟩ s :=
  ⟨by rwa [show (⟨none, none⟩ : Event).kept.toList = [] from rfl, List.append_nil], fun _ hk => nomatch hk⟩

theorem Sound.handed (h : s.Sound hash160 kept) (hk : k ∉ kept) : Kept hash160 kept ⟨some k, none⟩ s :=
  ⟨h.nothing.1, fun _ heq => Option.some.inj heq ▸ hk⟩

section Calls

variable {keypool : CKeyPool}

theorem keyAt_of_lookup (hk : t.pool.lookup n = some keypool) : t.keyAt n = some keypool.vchPubKey := by
  rw [keyAt, hk]
  rfl

/-- The reservation that took an index gets its key. -/
theorem Sound.give (h : t.Sound hash160 kept) (hn : n ∈ t.setKeyPool) (hk : t.pool.lookup n = some keypool)
    (hs : s = { t.withIndex n (some a) with setKeyPool := t.setKeyPool.erase n }) :
    (s.reserve a { s.reserveKeys a with vchPubKey := keypool.vchPubKey }).Sound hash160 kept ∧
      keypool.vchPubKey ∉ kept ∧ keypool.vchPubKey.isValid := by
  have hkey : t.keyAt n = some keypool.vchPubKey := keyAt_of_lookup hk
  have hown : s.reserveKeys a = { t.reserveKeys a with nIndex := n } := by
    rw [hs]
    exact reserve_self
  have hstate : s.reserve a { s.reserveKeys a with vchPubKey := keypool.vchPubKey } =
      { t.reserve a ⟨n, keypool.vchPubKey⟩ with setKeyPool := t.setKeyPool.erase n } := by
    rw [hown, hs]
    simp only [reserve, withIndex, Function.update_idem]
  obtain ⟨k, hk', -, hvalid, hnot, -⟩ := h.recorded n (.inl hn)
  obtain rfl : keypool.vchPubKey = k := Option.some.inj (hkey.symm.trans hk')
  rw [hstate]
  exact ⟨h.hold hn hkey, hnot, hvalid⟩

/-- An index of the set is kept at once. -/
theorem Sound.keepAt (h : t.Sound hash160 kept) (hn : n ∈ t.setKeyPool) (hk : t.pool.lookup n = some keypool)
    (hpool : ∀ m, m ≠ n → s.pool.lookup m = t.pool.lookup m) (hs : s = { t with pool := s.pool, setKeyPool := t.setKeyPool.erase n }) :
    s.Sound hash160 (kept ++ [keypool.vchPubKey]) ∧ keypool.vchPubKey ∉ kept := by
  have hkey : t.keyAt n = some keypool.vchPubKey := keyAt_of_lookup hk
  obtain ⟨k, hk', hhave, -, hnot, hne⟩ := h.recorded n (.inl hn)
  obtain rfl : keypool.vchPubKey = k := Option.some.inj (hkey.symm.trans hk')
  have hset : s.setKeyPool = t.setKeyPool.erase n := by rw [hs]
  have hres : s.reserveKeys = t.reserveKeys := by rw [hs]
  have hkeys : s.mapKeys = t.mapKeys := by rw [hs]
  have hdefault : s.vchDefaultKey = t.vchDefaultKey := by rw [hs]
  -- what is still held is not the index
  have hheld : ∀ m, s.Held m → m ≠ n ∧ t.Held m := by
    rintro m (hm | ⟨hm, b, hb⟩)
    · rw [hset] at hm
      exact ⟨(mem_erase_iff.mp hm).1, .inl (mem_erase_iff.mp hm).2⟩
    · rw [hres] at hb
      refine ⟨fun heq => ?_, .inr ⟨hm, b, hb⟩⟩
      have htaken := h.taken b (by rwa [hb])
      rw [hb, heq] at htaken
      exact htaken hn
  have hsound : s.Sound hash160 kept := by
    refine h.shrink (fun m hm => ?_) (fun b => .inl (congrFun hres b)) (fun m hm => hpool m (hheld m hm).1) hkeys hdefault
    rw [hset] at hm
    exact (mem_erase_iff.mp hm).2
  refine ⟨hsound.keep (fun m hm hmk => ?_) ?_ ?_, hnot⟩
  · obtain ⟨hne, hm⟩ := hheld m hm
    rw [keyAt, hpool m hne] at hmk
    exact hne (h.distinct m n _ hm (.inl hn) hmk hkey)
  · rwa [haveKey, hkeys]
  · rwa [hdefault]

/-- An index that was taken for a moment. -/
theorem Sound.putBack (h : t.Sound hash160 kept) (hn : n ∈ t.setKeyPool)
    (hs : s = { t with setKeyPool := (t.setKeyPool.erase n).insert n }) : s.Sound hash160 kept := by
  rw [hs]
  refine h.shrink (fun m hm => ?_) (fun b => .inl rfl) (fun _ _ => rfl) rfl rfl
  obtain rfl | hm := mem_insert_iff.mp hm
  · exact hn
  · exact (mem_erase_iff.mp hm).2

/-- A key is made without an index. -/
theorem Sound.generated (h : s.Sound hash160 kept) (hfresh : s.Fresh hash160 1) :
    Returns (generateNewKey hash160) s fun key s' => s'.Sound hash160 kept ∧ key ∉ kept := by
  obtain ⟨-, hnew, -⟩ := hfresh 0 Nat.one_pos
  have hmore : ∀ {k}, s.haveKey hash160 k = true → decide (k.getID hash160 ∈ (s.newKeys 0).getID hash160 :: s.mapKeys) = true := by
    intro k hk
    rw [haveKey, decide_eq_true_eq] at hk
    exact decide_eq_true (List.mem_cons_of_mem _ hk)
  refine ⟨s.newKeys 0, _, rfl, ⟨h.positive, h.apart, h.taken, fun n hn => ?_, h.own, h.distinct, fun k hk => hmore (h.keptHave k hk),
    fun hd => ⟨hmore (h.default hd).1, (h.default hd).2⟩⟩, fun hk => ?_⟩
  · obtain ⟨k, hk, hhave, hrest⟩ := h.recorded n hn
    exact ⟨k, hk, hmore hhave, hrest⟩
  · have hhave := h.keptHave _ hk
    rw [hnew] at hhave
    exact Bool.false_ne_true hhave

/-- `CReserveKey::GetReservedKey` gives a key that was not kept. -/
theorem Sound.getReservedKey (h : s.Sound hash160 kept) (hfree : (s.reserveKeys a).nIndex = -1 → s.NoneIn s.nEnd (s.missing arg 0))
    (hfresh : s.Fresh hash160 (s.missing arg 0)) :
    Returns (getReservedKey hash160 arg a) s fun handed s' => Kept hash160 kept ⟨handed, none⟩ s' := by
  have hgive : ∀ {u : KeyPool} {key : CPubKey}, (u.reserve a { u.reserveKeys a with vchPubKey := key }).Sound hash160 kept →
      key ∉ kept → key.isValid → Returns (getReservedKey.give a key) u fun handed s' => Kept hash160 kept ⟨handed, none⟩ s' := by
    intro u key hu hnot hvalid
    have hgood : ¬ key.isValid = false := by simp [hvalid]
    refine returns_modify_bind (Returns.bind (P := fun _ u' => u' = u.reserve a { u.reserveKeys a with vchPubKey := key })
      (returns_rejectIf hgood rfl) fun _ u' hu' => returns_pure ?_)
    rw [hu']
    exact hu.handed hnot
  refine returns_get_bind ?_
  by_cases hindex : (s.reserveKeys a).nIndex = -1
  · rw [if_pos hindex]
    have hsame : s.withIndex (-1) (some a) = s := by
      have hr : ({ s.reserveKeys a with nIndex := -1 } : CReserveKey) = s.reserveKeys a := by rw [← hindex]
      rw [withIndex, hr, reserve, Function.update_eq_self]
    have hfree : (s.withIndex (-1) (some a)).NoneIn s.nEnd (s.missing arg 0) := by
      rw [hsame]
      exact hfree hindex
    refine (h.reserveKeyFromKeyPool (a := some a) (N := 0) hfree hfresh).bind fun reserved u hu => returns_get_bind ?_
    obtain ⟨t, hsound, hholders, -, htook⟩ := hu
    cases reserved with
    | some entry =>
      obtain ⟨n, keypool⟩ := entry
      obtain ⟨hn, hk, hu⟩ := htook
      obtain ⟨hgiven, hnot, hvalid⟩ := hsound.give hn hk hu
      exact hgive hgiven hnot hvalid
    | none =>
      obtain rfl : u = t := htook
      by_cases hdefault : u.vchDefaultKey.isValid
      · dsimp only
        rw [if_pos hdefault]
        refine hgive ?_ (hsound.default hdefault).2 hdefault
        refine hsound.shrink (fun _ => id) (fun b => ?_) (fun _ _ => rfl) rfl rfl
        by_cases hba : b = a
        · right
          rw [hba, reserve_self]
          change (u.reserveKeys a).nIndex = -1
          rw [hholders.reserveKeys, hsame, hindex]
        · exact .inl (reserve_of_ne hba)
      · dsimp only
        rw [if_neg hdefault]
        exact returns_pure hsound.nothing
  · rw [if_neg hindex]
    obtain ⟨k, hk, -, hvalid, hnot, -⟩ := h.recorded _ (Held.index hindex)
    obtain rfl : (s.reserveKeys a).vchPubKey = k := Option.some.inj ((h.own a hindex).symm.trans hk)
    refine hgive ?_ hnot hvalid
    rw [show ({ s.reserveKeys a with vchPubKey := (s.reserveKeys a).vchPubKey } : CReserveKey) = s.reserveKeys a from rfl, reserve,
      Function.update_eq_self]
    exact h

theorem lookup_keepIndex {m : Int} (hm : m ≠ n) : (if s.fFileBacked then { s with pool := s.pool.erase n } else s).pool.lookup m = s.pool.lookup m := by
  split
  · exact AList.lookup_erase_ne hm
  · rfl

theorem keepIndex_eq : (if s.fFileBacked then { s with pool := s.pool.erase n } else s) =
    { s with pool := (if s.fFileBacked then { s with pool := s.pool.erase n } else s).pool } := by
  split <;> rfl

/-- A reservation that is dropped. -/
theorem Sound.drop (h : s.Sound hash160 kept) : (s.reserve a .init).Sound hash160 kept := by
  refine h.shrink (fun _ => id) (fun b => ?_) (fun _ _ => rfl) rfl rfl
  by_cases hba : b = a
  · rw [hba]
    exact .inr (congrArg CReserveKey.nIndex reserve_self)
  · exact .inl (reserve_of_ne hba)

/-- A reservation keeps its key. -/
theorem Sound.keepOwn {pool : Map Int CKeyPool} (h : s.Sound hash160 kept) (ha : (s.reserveKeys a).nIndex ≠ -1)
    (hpool : ∀ m, m ≠ (s.reserveKeys a).nIndex → pool.lookup m = s.pool.lookup m) :
    ({ s.reserve a .init with pool } : KeyPool).Sound hash160 (kept ++ [(s.reserveKeys a).vchPubKey]) := by
  -- the index of the reservation is not held any more
  have hheld : ∀ m, (s.reserve a .init).Held m → m ≠ (s.reserveKeys a).nIndex ∧ s.Held m := by
    rintro m (hm | ⟨hne, b, hb⟩)
    · exact ⟨fun heq => h.taken a ha (heq ▸ hm), .inl hm⟩
    · by_cases hba : b = a
      · rw [hba, reserve_self] at hb
        exact absurd hb.symm hne
      · rw [reserve_of_ne hba] at hb
        exact ⟨fun heq => h.apart a b (Ne.symm hba) ha (heq ▸ hb).symm, .inr ⟨hne, b, hb⟩⟩
  have hsound : ({ s.reserve a .init with pool } : KeyPool).Sound hash160 kept :=
    h.drop.shrink (fun _ => id) (fun _ => .inl rfl) (fun m hm => hpool m (hheld m hm).1) rfl rfl
  obtain ⟨k, hk, hhave, -, -, hne⟩ := h.recorded _ (Held.index ha)
  obtain rfl : (s.reserveKeys a).vchPubKey = k := Option.some.inj ((h.own a ha).symm.trans hk)
  refine hsound.keep (fun m hm hmk => ?_) hhave hne
  obtain ⟨hne, hm⟩ := hheld m hm
  change (pool.lookup m).map _ = _ at hmk
  rw [hpool m hne] at hmk
  exact hne (h.distinct m _ _ hm (Held.index ha) hmk hk)

/-- What `GetKeyFromPool` leaves, with a key that it took, made or did not find. -/
abbrev Fetched (hash160 : List UInt8 → CKeyID) (kept : List CPubKey) : Option (CPubKey × Option Int) → KeyPool → Prop
  | none, s => s.Sound hash160 kept
  | some (key, none), s => s.Sound hash160 kept ∧ key ∉ kept
  | some (key, some _), s => s.Sound hash160 (kept ++ [key]) ∧ key ∉ kept

/-- **Every call keeps the pool in agreement**, and gives out no key that was
kept before. -/
theorem Sound.perform (h : s.Sound hash160 kept) (c : Call) (hclear : c.Clear arg s) (hfresh : s.Fresh hash160 (c.keysMade arg s)) :
    Returns (c.perform hash160 arg) s (Kept hash160 kept) := by
  cases c with
  | topUpKeyPool nSize =>
    exact (h.topUpKeyPool (N := 0) hclear hfresh).bind fun _ s' hs' => returns_pure hs'.1.nothing
  | newKeyPool =>
    exact (h.newKeyPool hclear hfresh).bind fun _ s' hs' => returns_pure hs'.1.nothing
  | reserveKeyFromKeyPool a =>
    refine (h.reserveKeyFromKeyPool (N := 0) hclear hfresh).bind fun reserved u hu => ?_
    obtain ⟨t, hsound, -, -, htook⟩ := hu
    cases reserved with
    | none =>
      obtain rfl : u = t := htook
      exact returns_pure hsound.nothing
    | some entry =>
      obtain ⟨n, keypool⟩ := entry
      obtain ⟨hn, hk, hu⟩ := htook
      obtain ⟨hgiven, hnot, -⟩ := hsound.give hn hk hu
      exact returns_modify_bind (returns_pure (hgiven.handed hnot))
  | getReservedKey a =>
    exact (h.getReservedKey hclear hfresh).bind fun handed s' hs' => returns_pure hs'
  | keepKey a =>
    refine returns_get_bind ?_
    by_cases hindex : (s.reserveKeys a).nIndex = -1
    · rw [if_neg (not_not_intro hindex)]
      have hrun : KeyPool.keepKey a s = .ok () (s.reserve a .init) := by
        simp only [KeyPool.keepKey, bind, EStateM.bind, get_run, onlyIf,
          if_neg (not_not_intro hindex)]
        rfl
      exact Returns.bind (P := fun _ u => u = s.reserve a .init) ⟨(), _, hrun, rfl⟩ fun _ u hu => returns_pure (hu ▸ h.drop.nothing)
    · rw [if_pos hindex]
      let u : KeyPool := if s.fFileBacked then { s with pool := s.pool.erase (s.reserveKeys a).nIndex } else s
      have hrun : KeyPool.keepKey a s = .ok () { s.reserve a .init with pool := u.pool } := by
        simp only [KeyPool.keepKey, bind, EStateM.bind, get_run, onlyIf, if_pos hindex]
        change EStateM.Result.ok () (u.reserve a .init) = _
        rw [show u = { s with pool := u.pool } from keepIndex_eq]
        rfl
      refine Returns.bind (P := fun _ t => t = { s.reserve a .init with pool := u.pool }) ⟨(), _, hrun, rfl⟩ fun _ t ht => ?_
      rw [ht]
      exact returns_pure ⟨h.keepOwn hindex fun m hm => lookup_keepIndex hm, fun _ hk => absurd hk (by simp)⟩
  | returnKey a =>
    by_cases hindex : (s.reserveKeys a).nIndex = -1
    · have hrun : KeyPool.returnKey a s = .ok () (s.reserve a .init) := by
        simp only [KeyPool.returnKey, bind, EStateM.bind, get_run, onlyIf,
          if_neg (not_not_intro hindex)]
        rfl
      exact Returns.bind (P := fun _ u => u = s.reserve a .init) ⟨(), _, hrun, rfl⟩ fun _ u hu => returns_pure (hu ▸ h.drop.nothing)
    · let u : KeyPool := { s.reserve a .init with setKeyPool := s.setKeyPool.insert (s.reserveKeys a).nIndex }
      have hrun : KeyPool.returnKey a s = .ok () u := by
        simp only [KeyPool.returnKey, bind, EStateM.bind, get_run, onlyIf, if_pos hindex]
        rfl
      exact Returns.bind (P := fun _ t => t = u) ⟨(), _, hrun, rfl⟩ fun _ t ht => returns_pure (ht ▸ (h.giveBack hindex).nothing)
  | getKeyFromPool fAllowReuse =>
    refine Returns.bind (P := Fetched hash160 kept) ?_ fun result s' hs' => ?_
    · refine (h.reserveKeyFromKeyPool (a := none) (N := 1) hclear hfresh).bind fun reserved u hu => ?_
      obtain ⟨t, hsound, -, hN, htook⟩ := hu
      cases reserved with
      | none =>
        obtain rfl : u = t := htook
        refine returns_get_bind ?_
        by_cases hreuse : fAllowReuse && u.vchDefaultKey.isValid
        · rw [if_pos hreuse]
          exact returns_pure ⟨hsound, (hsound.default (Bool.and_eq_true_iff.mp hreuse).2).2⟩
        · rw [if_neg hreuse]
          by_cases hlocked : u.fLocked
          · rw [if_pos hlocked]
            exact returns_pure hsound
          · rw [if_neg hlocked]
            exact (hsound.generated hN).bind fun key s' hs' => returns_pure hs'
      | some entry =>
        obtain ⟨n, keypool⟩ := entry
        obtain ⟨hn, hk, hu⟩ := htook
        refine returns_modify_bind (returns_pure (hsound.keepAt hn hk (fun m hm => ?_) ?_))
        · rw [lookup_keepIndex hm, hu]
          rfl
        · rw [keepIndex_eq, hu]
          rfl
    · obtain _ | ⟨key, _ | nIndex⟩ := result
      · exact returns_pure hs'.nothing
      · exact returns_pure (hs'.1.handed hs'.2)
      · exact returns_pure ⟨hs'.1, fun _ heq => Option.some.inj heq ▸ hs'.2⟩
  | getOldestKeyPoolTime =>
    refine Returns.bind (P := fun _ s' => s'.Sound hash160 kept) ?_ fun _ s' hs' => returns_pure hs'.nothing
    refine (h.reserveKeyFromKeyPool (a := none) (N := 0) hclear hfresh).bind fun reserved u hu => ?_
    obtain ⟨t, hsound, -, -, htook⟩ := hu
    cases reserved with
    | none =>
      obtain rfl : u = t := htook
      exact ⟨_, _, rfl, hsound.shrink (fun _ => id) (fun _ => .inl rfl) (fun _ _ => rfl) rfl rfl⟩
    | some entry =>
      obtain ⟨n, keypool⟩ := entry
      obtain ⟨hn, -, hu⟩ := htook
      exact returns_modify_bind (returns_pure (hsound.putBack hn (by rw [hu]; rfl)))
  | setLocked fLocked =>
    exact returns_modify_bind (returns_pure (Sound.nothing (h.shrink (fun _ => id) (fun _ => .inl rfl) (fun _ _ => rfl) rfl rfl)))

end Calls

/-! ## The theorem -/

theorem Start.sound (h : Start hash160 s) : s.Sound hash160 [] := by
  have hheld : ∀ n, s.Held n → n ∈ s.setKeyPool := by
    rintro n (hn | ⟨hne, a, ha⟩)
    · exact hn
    · exact absurd (ha.symm.trans (h.unreserved a)) hne
  refine ⟨fun n hn => h.positive n (hheld n hn), fun a _ _ ha => absurd (h.unreserved a) ha, fun a ha => absurd (h.unreserved a) ha,
    fun n hn => ?_, fun a ha => absurd (h.unreserved a) ha, fun n n' k hn hn' => h.distinct n (hheld n hn) n' (hheld n' hn') k,
    fun _ hk => absurd hk List.not_mem_nil, fun hd => ⟨h.default hd, List.not_mem_nil⟩⟩
  obtain ⟨k, hk, hhave, hvalid, hne⟩ := h.recorded n (hheld n hn)
  exact ⟨k, hk, hhave, hvalid, List.not_mem_nil, hne⟩

/-- What holds of the history of a run. -/
structure History.Sound (hash160 : List UInt8 → CKeyID) (h : History) : Prop where
  wallet : h.wallet.Sound hash160 (h.events.filterMap (·.kept))
  once : h.events.Pairwise fun e e' => ∀ k, e.kept = some k → e'.handed ≠ some k

theorem History.Sound.safe {h : History} (hs : h.Sound hash160) : Safe hash160 h where
  apart := hs.wallet.apart
  taken := hs.wallet.taken
  recorded n hn := by
    obtain ⟨k, hk, hhave, -⟩ := hs.wallet.recorded n hn
    exact ⟨k, hk, hhave⟩
  once := hs.once

theorem History.Sound.step {h : History} (c : Call) (hs : h.Sound hash160) (hclear : c.Clear arg h.wallet)
    (hfresh : h.wallet.Fresh hash160 (c.keysMade arg h.wallet)) : (c.step hash160 arg h).Sound hash160 := by
  obtain ⟨e, s, hrun, hsound, hhanded⟩ := hs.wallet.perform c hclear hfresh
  rw [Call.step, hrun]
  refine ⟨?_, List.pairwise_append.mpr ⟨hs.once, List.pairwise_singleton _ _, fun e' he' e'' he'' k hk hk' => ?_⟩⟩
  · change s.Sound hash160 ((h.events ++ [e]).filterMap (·.kept))
    rw [List.filterMap_append]
    obtain ⟨handed, _ | key⟩ := e <;> exact hsound
  · obtain rfl := List.mem_singleton.mp he''
    exact hhanded k hk' (List.mem_filterMap.mpr ⟨e', he', hk⟩)

/-- **A run of the key pool is safe** where no new key comes under an index
that is reserved. The keys it makes are new ones. -/
theorem Call.runs_safe (hstart : Start hash160 s) {calls : List Call}
    (hfresh : Runs.Meets (Call.step hash160 arg) (fun c h => h.wallet.Fresh hash160 (c.keysMade arg h.wallet)) calls ⟨s, []⟩)
    (hclear : Runs.Meets (Call.step hash160 arg) (fun c h => c.Clear arg h.wallet) calls ⟨s, []⟩) :
    Safe hash160 (Runs.play (Call.step hash160 arg) calls ⟨s, []⟩) := by
  refine History.Sound.safe (Runs.Meets.keeps (fun c h hs hc => hs.step c hc.1 hc.2) ⟨hstart.sound, .nil⟩ (hclear.and hfresh))

/-! ### Concrete runs -/

/-- A key by its first byte, and an id that is that byte. -/
def keyOf (b : UInt8) : CPubKey := ⟨b :: List.replicate 32 0⟩

def firstByte (l : List UInt8) : CKeyID := ⟨List.replicate 20 (l.headD 0), by rw [List.length_replicate]⟩

def emptyWallet : KeyPool where
  setKeyPool := ∅
  pool := ∅
  mapKeys := []
  vchDefaultKey := .init
  fLocked := false
  fFileBacked := true
  reserveKeys := fun _ => .init
  newKeys := fun i => keyOf (UInt8.ofNat i)
  times := fun _ => 0

instance {N : Nat} : Decidable (s.Fresh hash160 N) := inferInstanceAs (Decidable (∀ i, i < N → _))

theorem emptyWallet_start : Start firstByte emptyWallet := by
  refine ⟨fun _ => rfl, fun n hn => ?_, fun n hn => ?_, fun n hn => ?_, fun h => absurd h (by decide)⟩ <;>
    exact absurd hn TreeSet.not_mem_emptyc

/-- The first key is taken and its index kept, with a refill between. -/
theorem runs_safe_kept : Safe firstByte (Runs.play (Call.step firstByte 1) [.getReservedKey 1, .topUpKeyPool 0, .keepKey 1] ⟨emptyWallet, []⟩) := by
  refine Call.runs_safe emptyWallet_start ⟨by decide, by decide, by decide, trivial⟩ ⟨fun _ a ha => absurd rfl ha, fun a _ hin => ?_, trivial, trivial⟩
  have hreserved : ((Call.getReservedKey 1).step firstByte 1 ⟨emptyWallet, []⟩).wallet.reserveKeys =
      Function.update (Function.update (Function.update (fun _ => .init) 1 .init) 1 ⟨1, .init⟩) 1 ⟨1, keyOf 0⟩ := rfl
  have hend : ((Call.getReservedKey 1).step firstByte 1 ⟨emptyWallet, []⟩).wallet.nEnd = 3 := by decide
  rw [hreserved, hend] at hin
  by_cases ha : a = 1
  · rw [ha, Function.update_self] at hin
    exact absurd hin.1 (by decide)
  · rw [Function.update_of_ne ha, Function.update_of_ne ha, Function.update_of_ne ha] at hin
    exact absurd hin.1 (by decide)

/-- **A reservation and a new pool**: the key of the reservation has index 1,
and so has the key of the new pool. -/
theorem newKeyPool_reserved : Start firstByte emptyWallet ∧
    Runs.Meets (Call.step firstByte 1) (fun c h => h.wallet.Fresh firstByte (c.keysMade 1 h.wallet)) [.getReservedKey 1, .newKeyPool]
      ⟨emptyWallet, []⟩ ∧
    ¬ Safe firstByte (Runs.play (Call.step firstByte 1) [.getReservedKey 1, .newKeyPool] ⟨emptyWallet, []⟩) :=
  ⟨emptyWallet_start, ⟨by decide, by decide, trivial⟩, fun h => h.taken 1 (by decide) (by decide)⟩

end KeyPool

end Pinkcoin
