/-
What the calls of the key pool keep. A new key is filed under the index after
the last one of the set, or from 1 on in a new pool; a reservation takes its
index out of the set. Each call keeps the pool and its reservations in
agreement while no new key is filed under an index that is reserved.
-/
import Pinkcoin.Keys.KeyPool

namespace Pinkcoin

open Std (TreeSet)
open StateError

namespace KeyPool

variable {hash160 : List UInt8 → CKeyID} {arg : Int} {s s' : KeyPool} {kept : List CPubKey} {n : Int} {k : CPubKey} {a : Nat}

/-! ## What holds -/

/-- An index that can be taken, or is reserved. -/
def Held (s : KeyPool) (n : Int) : Prop := n ∈ s.setKeyPool ∨ n ≠ -1 ∧ ∃ a, (s.reserveKeys a).nIndex = n

/-- The key of the record an index names. -/
def keyAt (s : KeyPool) (n : Int) : Option CPubKey := (s.pool.lookup n).map (·.vchPubKey)

/-- **The pool and its reservations agree.** `kept` are the keys that were
kept. -/
structure Sound (hash160 : List UInt8 → CKeyID) (s : KeyPool) (kept : List CPubKey) : Prop where
  positive : ∀ n, s.Held n → 0 < n
  apart : ∀ a b, a ≠ b → (s.reserveKeys a).nIndex ≠ -1 → (s.reserveKeys a).nIndex ≠ (s.reserveKeys b).nIndex
  taken : ∀ a, (s.reserveKeys a).nIndex ≠ -1 → (s.reserveKeys a).nIndex ∉ s.setKeyPool
  recorded : ∀ n, s.Held n → ∃ k, s.keyAt n = some k ∧ s.haveKey hash160 k ∧ k.isValid ∧ k ∉ kept ∧ k ≠ s.vchDefaultKey
  own : ∀ a, (s.reserveKeys a).nIndex ≠ -1 → s.keyAt (s.reserveKeys a).nIndex = some (s.reserveKeys a).vchPubKey
  distinct : ∀ n n' k, s.Held n → s.Held n' → s.keyAt n = some k → s.keyAt n' = some k → n = n'
  keptHave : ∀ k ∈ kept, s.haveKey hash160 k
  default : s.vchDefaultKey.isValid → s.haveKey hash160 s.vchDefaultKey ∧ s.vchDefaultKey ∉ kept

/-- The state after a new key is filed. -/
def filed (hash160 : List UInt8 → CKeyID) (s : KeyPool) (n : Int) : KeyPool :=
  { s with pool := s.pool.insert n ⟨s.times 0, s.newKeys 0⟩, setKeyPool := s.setKeyPool.insert n,
           mapKeys := (s.newKeys 0).getID hash160 :: s.mapKeys, newKeys := fun i => s.newKeys (i + 1),
           times := fun i => s.times (i + 1) }

/-- The next `N` keys that are made are new. -/
def Fresh (hash160 : List UInt8 → CKeyID) (s : KeyPool) (N : Nat) : Prop :=
  ∀ i, i < N → (s.newKeys i).isValid ∧ s.haveKey hash160 (s.newKeys i) = false ∧
    ∀ j, j < i → (s.newKeys j).getID hash160 ≠ (s.newKeys i).getID hash160

theorem Fresh.mono {N M : Nat} (h : s.Fresh hash160 N) (hle : M ≤ N) : s.Fresh hash160 M :=
  fun i hi => h i (Nat.lt_of_lt_of_le hi hle)

theorem Fresh.filed {N : Nat} (h : s.Fresh hash160 (N + 1)) : (s.filed hash160 n).Fresh hash160 N := by
  intro i hi
  obtain ⟨hvalid, hnew, hother⟩ := h (i + 1) (Nat.succ_lt_succ hi)
  refine ⟨hvalid, ?_, fun j hj => hother (j + 1) (Nat.succ_lt_succ hj)⟩
  rw [haveKey, decide_eq_false_iff_not] at hnew ⊢
  exact List.not_mem_cons_of_ne_of_not_mem (fun heq => hother 0 (Nat.succ_pos i) heq.symm) hnew

theorem mem_erase_iff {S : TreeSet Int} {m : Int} : m ∈ S.erase n ↔ m ≠ n ∧ m ∈ S := by
  rw [TreeSet.mem_erase, ne_eq, Std.LawfulEqCmp.compare_eq_iff_eq, ne_comm]

theorem mem_insert_iff {S : TreeSet Int} {m : Int} : m ∈ S.insert n ↔ m = n ∨ m ∈ S := by
  rw [TreeSet.mem_insert, Std.LawfulEqCmp.compare_eq_iff_eq, eq_comm]

/-- A change of one reservation. -/
def reserve (s : KeyPool) (a : Nat) (r : CReserveKey) : KeyPool := { s with reserveKeys := Function.update s.reserveKeys a r }

theorem reserve_self {r : CReserveKey} : (s.reserve a r).reserveKeys a = r := Function.update_self _ _ _

theorem reserve_of_ne {r : CReserveKey} {b : Nat} (h : b ≠ a) : (s.reserve a r).reserveKeys b = s.reserveKeys b :=
  Function.update_of_ne h _ _

theorem Held.index (h : (s.reserveKeys a).nIndex ≠ -1) : s.Held (s.reserveKeys a).nIndex := .inr ⟨h, a, rfl⟩

namespace Sound

/-- Less is held, and what is held keeps its record. -/
theorem shrink (h : s.Sound hash160 kept) (hset : ∀ n, n ∈ s'.setKeyPool → n ∈ s.setKeyPool)
    (hres : ∀ a, s'.reserveKeys a = s.reserveKeys a ∨ (s'.reserveKeys a).nIndex = -1)
    (hpool : ∀ n, s'.Held n → s'.pool.lookup n = s.pool.lookup n) (hkeys : s'.mapKeys = s.mapKeys)
    (hdefault : s'.vchDefaultKey = s.vchDefaultKey) : s'.Sound hash160 kept := by
  have hsame : ∀ {a}, (s'.reserveKeys a).nIndex ≠ -1 → s'.reserveKeys a = s.reserveKeys a := fun {a} ha => (hres a).resolve_right ha
  have hheld : ∀ n, s'.Held n → s.Held n := by
    rintro n (hn | ⟨hne, a, rfl⟩)
    · exact .inl (hset n hn)
    · exact .inr ⟨hne, a, by rw [hsame hne]⟩
  have hkey : ∀ n, s'.Held n → s'.keyAt n = s.keyAt n := fun n hn => by rw [keyAt, keyAt, hpool n hn]
  have hhave : ∀ k, s'.haveKey hash160 k = s.haveKey hash160 k := fun k => by rw [haveKey, haveKey, hkeys]
  refine ⟨fun n hn => h.positive n (hheld n hn), fun a b hab ha => ?_, fun a ha hn => ?_, fun n hn => ?_, fun a ha => ?_,
    fun n n' k hn hn' hk hk' => ?_, fun k hk => ?_, fun hvalid => ?_⟩
  · have heq := hsame ha
    rw [heq] at ha ⊢
    obtain hb | hb := hres b
    · rw [hb]
      exact h.apart a b hab ha
    · rwa [hb]
  · have heq := hsame ha
    rw [heq] at ha hn
    exact h.taken a ha (hset _ hn)
  · rw [hkey n hn, hdefault]
    simp only [hhave]
    exact h.recorded n (hheld n hn)
  · rw [hkey _ (Held.index ha)]
    have heq := hsame ha
    rw [heq] at ha ⊢
    exact h.own a ha
  · rw [hkey n hn] at hk
    rw [hkey n' hn'] at hk'
    exact h.distinct n n' k (hheld n hn) (hheld n' hn') hk hk'
  · rw [hhave]
    exact h.keptHave k hk
  · rw [hhave, hdefault]
    exact h.default (hdefault ▸ hvalid)

/-- A key that no held index names is kept. -/
theorem keep (h : s.Sound hash160 kept) (hk : ∀ n, s.Held n → s.keyAt n ≠ some k) (hhave : s.haveKey hash160 k)
    (hdefault : k ≠ s.vchDefaultKey) : s.Sound hash160 (kept ++ [k]) where
  positive := h.positive
  apart := h.apart
  taken := h.taken
  recorded n hn := by
    obtain ⟨k', hk', hhave', hvalid, hnot, hne⟩ := h.recorded n hn
    refine ⟨k', hk', hhave', hvalid, fun hmem => ?_, hne⟩
    obtain hmem | hmem := List.mem_append.mp hmem
    · exact hnot hmem
    · rw [List.mem_singleton.mp hmem] at hk'
      exact hk n hn hk'
  own := h.own
  distinct := h.distinct
  keptHave k' hk' := by
    obtain hmem | hmem := List.mem_append.mp hk'
    · exact h.keptHave k' hmem
    · rwa [List.mem_singleton.mp hmem]
  default hvalid := by
    obtain ⟨hd, hnot⟩ := h.default hvalid
    refine ⟨hd, fun hmem => ?_⟩
    obtain hmem | hmem := List.mem_append.mp hmem
    · exact hnot hmem
    · exact hdefault (List.mem_singleton.mp hmem).symm

/-- **A reservation takes an index** out of the set. -/
theorem hold (h : s.Sound hash160 kept) (hn : n ∈ s.setKeyPool) (hk : s.keyAt n = some k) :
    ({ s.reserve a ⟨n, k⟩ with setKeyPool := s.setKeyPool.erase n } : KeyPool).Sound hash160 kept := by
  have hpos := h.positive n (.inl hn)
  have hheld : ∀ m, ({ s.reserve a ⟨n, k⟩ with setKeyPool := s.setKeyPool.erase n } : KeyPool).Held m → s.Held m := by
    rintro m (hm | ⟨hne, b, hb⟩)
    · exact .inl (mem_erase_iff.mp hm).2
    · change ((s.reserve a ⟨n, k⟩).reserveKeys b).nIndex = m at hb
      by_cases hba : b = a
      · rw [hba, reserve_self] at hb
        exact .inl (hb ▸ hn)
      · rw [reserve_of_ne hba] at hb
        exact .inr ⟨hne, b, hb⟩
  -- no other reservation has the index
  have hfree : ∀ b, (s.reserveKeys b).nIndex ≠ n := fun b hb => by
    refine h.taken b ?_ (hb ▸ hn)
    omega
  refine ⟨fun m hm => h.positive m (hheld m hm), fun b c hbc hb => ?_, fun b hb hm => ?_, fun m hm => h.recorded m (hheld m hm),
    fun b hb => ?_, fun m m' k hm hm' => h.distinct m m' k (hheld m hm) (hheld m' hm'), h.keptHave, h.default⟩
  · change ((s.reserve a ⟨n, k⟩).reserveKeys b).nIndex ≠ -1 at hb
    change ((s.reserve a ⟨n, k⟩).reserveKeys b).nIndex ≠ ((s.reserve a ⟨n, k⟩).reserveKeys c).nIndex
    by_cases hba : b = a
    · rw [hba, reserve_self, reserve_of_ne (hba ▸ hbc.symm)]
      exact (hfree c).symm
    · rw [reserve_of_ne hba] at hb ⊢
      by_cases hca : c = a
      · rw [hca, reserve_self]
        exact hfree b
      · rw [reserve_of_ne hca]
        exact h.apart b c hbc hb
  · change ((s.reserve a ⟨n, k⟩).reserveKeys b).nIndex ≠ -1 at hb
    change ((s.reserve a ⟨n, k⟩).reserveKeys b).nIndex ∈ s.setKeyPool.erase n at hm
    obtain ⟨hne, hm⟩ := mem_erase_iff.mp hm
    by_cases hba : b = a
    · rw [hba, reserve_self] at hne
      exact hne rfl
    · rw [reserve_of_ne hba] at hb hm
      exact h.taken b hb hm
  · change ((s.reserve a ⟨n, k⟩).reserveKeys b).nIndex ≠ -1 at hb
    change s.keyAt ((s.reserve a ⟨n, k⟩).reserveKeys b).nIndex = some ((s.reserve a ⟨n, k⟩).reserveKeys b).vchPubKey
    by_cases hba : b = a
    · rw [hba, reserve_self]
      exact hk
    · rw [reserve_of_ne hba] at hb ⊢
      exact h.own b hb

/-- A reservation puts its index back. -/
theorem giveBack (h : s.Sound hash160 kept) (ha : (s.reserveKeys a).nIndex ≠ -1) :
    ({ s.reserve a .init with setKeyPool := s.setKeyPool.insert (s.reserveKeys a).nIndex } : KeyPool).Sound hash160 kept := by
  have hheld : ∀ m, ({ s.reserve a .init with setKeyPool := s.setKeyPool.insert (s.reserveKeys a).nIndex } : KeyPool).Held m →
      s.Held m := by
    rintro m (hm | ⟨hne, b, hb⟩)
    · obtain rfl | hm := mem_insert_iff.mp hm
      · exact Held.index ha
      · exact .inl hm
    · change ((s.reserve a .init).reserveKeys b).nIndex = m at hb
      by_cases hba : b = a
      · rw [hba, reserve_self] at hb
        exact absurd hb.symm hne
      · rw [reserve_of_ne hba] at hb
        exact .inr ⟨hne, b, hb⟩
  have hinit : ∀ {b}, ((s.reserve a .init).reserveKeys b).nIndex ≠ -1 →
      b ≠ a ∧ (s.reserve a .init).reserveKeys b = s.reserveKeys b := fun {b} hb => by
    by_cases hba : b = a
    · rw [hba, reserve_self] at hb
      exact absurd rfl hb
    · exact ⟨hba, reserve_of_ne hba⟩
  refine ⟨fun m hm => h.positive m (hheld m hm), fun b c hbc hb => ?_, fun b hb hm => ?_, fun m hm => h.recorded m (hheld m hm),
    fun b hb => ?_, fun m m' k hm hm' => h.distinct m m' k (hheld m hm) (hheld m' hm'), h.keptHave, h.default⟩
  · change ((s.reserve a .init).reserveKeys b).nIndex ≠ ((s.reserve a .init).reserveKeys c).nIndex
    obtain ⟨-, heq⟩ := hinit hb
    change ((s.reserve a .init).reserveKeys b).nIndex ≠ -1 at hb
    rw [heq] at hb ⊢
    by_cases hca : c = a
    · rw [hca, reserve_self]
      exact hb
    · rw [reserve_of_ne hca]
      exact h.apart b c hbc hb
  · obtain ⟨hba, heq⟩ := hinit hb
    change ((s.reserve a .init).reserveKeys b).nIndex ≠ -1 at hb
    change ((s.reserve a .init).reserveKeys b).nIndex ∈ s.setKeyPool.insert _ at hm
    rw [heq] at hb hm
    obtain hm | hm := mem_insert_iff.mp hm
    · exact h.apart b a hba hb hm
    · exact h.taken b hb hm
  · obtain ⟨-, heq⟩ := hinit hb
    change ((s.reserve a .init).reserveKeys b).nIndex ≠ -1 at hb
    change s.keyAt ((s.reserve a .init).reserveKeys b).nIndex = some ((s.reserve a .init).reserveKeys b).vchPubKey
    rw [heq] at hb ⊢
    exact h.own b hb

/-- **A new key is filed** under an index nobody has. -/
theorem filed (h : s.Sound hash160 kept) (hn : ¬ s.Held n) (hpos : 0 < n) (hfresh : s.Fresh hash160 1) :
    (s.filed hash160 n).Sound hash160 kept := by
  let k := s.newKeys 0
  let t := s.filed hash160 n
  obtain ⟨hvalid, hnew, -⟩ := hfresh 0 Nat.one_pos
  have hheld : ∀ m, t.Held m → m = n ∨ s.Held m := by
    rintro m (hm | hm)
    · exact (mem_insert_iff.mp hm).imp_right .inl
    · exact .inr (.inr hm)
  have hself : t.keyAt n = some k := by
    change ((s.pool.insert n ⟨s.times 0, k⟩).lookup n).map _ = _
    rw [AList.lookup_insert]
    rfl
  have hother : ∀ {m}, s.Held m → t.keyAt m = s.keyAt m := fun {m} hm => by
    have hne : m ≠ n := fun heq => hn (heq ▸ hm)
    change ((s.pool.insert n ⟨s.times 0, k⟩).lookup m).map _ = _
    rw [AList.lookup_insert_ne hne]
    rfl
  have hmore : ∀ {k'}, s.haveKey hash160 k' = true → t.haveKey hash160 k' = true := fun {k'} hk' => by
    rw [haveKey, decide_eq_true_eq] at hk' ⊢
    exact List.mem_cons_of_mem _ hk'
  have hdiff : ∀ {k'}, s.haveKey hash160 k' = true → k' ≠ k := fun hk' heq => by
    rw [heq, hnew] at hk'
    exact Bool.false_ne_true hk'
  refine ⟨fun m hm => ?_, h.apart, fun b hb hm => ?_, fun m hm => ?_, fun b hb => ?_, fun m m' k' hm hm' hk hk' => ?_,
    fun k' hk' => hmore (h.keptHave k' hk'), fun hd => ⟨hmore (h.default hd).1, (h.default hd).2⟩⟩
  · obtain rfl | hm := hheld m hm
    · exact hpos
    · exact h.positive m hm
  · obtain hm | hm := mem_insert_iff.mp hm
    · exact hn (hm ▸ Held.index hb)
    · exact h.taken b hb hm
  · obtain rfl | hm := hheld m hm
    · refine ⟨k, hself, ?_, hvalid, fun hk => hdiff (h.keptHave k hk) rfl, fun heq => ?_⟩
      · rw [haveKey, decide_eq_true_eq]
        exact List.mem_cons_self
      · have heq : k = s.vchDefaultKey := heq
        exact hdiff (h.default (heq ▸ hvalid)).1 heq.symm
    · obtain ⟨k', hk', hhave, hrest⟩ := h.recorded m hm
      exact ⟨k', (hother hm).trans hk', hmore hhave, hrest⟩
  · exact (hother (Held.index hb)).trans (h.own b hb)
  · obtain rfl | hm := hheld m hm
    · obtain rfl | hm' := hheld m' hm'
      · rfl
      · obtain ⟨k'', hk'', hhave, -⟩ := h.recorded m' hm'
        rw [hself] at hk
        rw [hother hm', hk''] at hk'
        exact absurd ((Option.some.inj hk').trans (Option.some.inj hk).symm) (hdiff hhave)
    · obtain ⟨k'', hk'', hhave, -⟩ := h.recorded m hm
      rw [hother hm] at hk
      obtain rfl | hm' := hheld m' hm'
      · rw [hself] at hk'
        rw [hk''] at hk
        exact absurd ((Option.some.inj hk).trans (Option.some.inj hk').symm) (hdiff hhave)
      · rw [hother hm'] at hk'
        exact h.distinct m m' k' hm hm' hk hk'

end Sound

/-! ## Making keys -/

/-- No reservation has one of the `count` indexes from `start` on. -/
def NoneIn (s : KeyPool) (start : Int) (count : Nat) : Prop :=
  ∀ a, (s.reserveKeys a).nIndex ≠ -1 → ¬ (start ≤ (s.reserveKeys a).nIndex ∧ (s.reserveKeys a).nIndex < start + count)

/-- What a call that makes keys leaves alone. -/
structure SameHolders (s s' : KeyPool) : Prop where
  reserveKeys : s'.reserveKeys = s.reserveKeys
  fLocked : s'.fLocked = s.fLocked
  vchDefaultKey : s'.vchDefaultKey = s.vchDefaultKey

theorem SameHolders.refl (s : KeyPool) : s.SameHolders s := ⟨rfl, rfl, rfl⟩

theorem lt_nEnd (hn : n ∈ s.setKeyPool) : n < s.nEnd := by
  rw [nEnd, ← TreeSet.max?_eq_getLast?_toList]
  cases hmax : s.setKeyPool.max? with
  | none =>
    rw [TreeSet.max?_eq_none_iff] at hmax
    exact absurd hn (TreeSet.not_mem_of_isEmpty hmax)
  | some m =>
    have hle := (TreeSet.max?_eq_some_iff_mem_and_forall.mp hmax).2 n hn
    have hle : n ≤ m := Std.isLE_compare.mp hle
    exact Int.lt_add_one_of_le hle

theorem Sound.nEnd_pos (h : s.Sound hash160 kept) : 0 < s.nEnd := by
  rw [nEnd, ← TreeSet.max?_eq_getLast?_toList]
  cases hmax : s.setKeyPool.max? with
  | none => exact Int.one_pos
  | some m =>
    have hpos := h.positive m (.inl (TreeSet.max?_eq_some_iff_mem_and_forall.mp hmax).1)
    exact Int.lt_add_one_of_le (Int.le_of_lt hpos)

theorem nEnd_filed : (s.filed hash160 s.nEnd).nEnd = s.nEnd + 1 := by
  have hmax : (s.setKeyPool.insert s.nEnd).max? = some s.nEnd := by
    refine TreeSet.max?_eq_some_iff_mem_and_forall.mpr ⟨TreeSet.mem_insert_self, fun m hm => Std.isLE_compare.mpr ?_⟩
    obtain rfl | hm := mem_insert_iff.mp hm
    · exact Int.le_refl _
    · exact Int.le_of_lt (lt_nEnd hm)
  rw [nEnd, show (s.filed hash160 s.nEnd).setKeyPool = s.setKeyPool.insert s.nEnd from rfl, ← TreeSet.max?_eq_getLast?_toList, hmax]

/-- A new key under an index past those of the set. -/
theorem Sound.filed_of (h : s.Sound hash160 kept) (hset : n ∉ s.setKeyPool) (hpos : 0 < n)
    (hfree : ∀ a, (s.reserveKeys a).nIndex ≠ n) (hfresh : s.Fresh hash160 1) : (s.filed hash160 n).Sound hash160 kept :=
  h.filed (fun hn => hn.elim hset fun ⟨_, a, ha⟩ => hfree a ha) hpos hfresh

/-- **The loop of `TopUpKeyPool`**, and that its rounds are enough. -/
theorem Sound.topUpLoop {nTarget fuel N : Nat} (h : s.Sound hash160 kept) (hfree : s.NoneIn s.nEnd fuel)
    (hfresh : s.Fresh hash160 N) (hle : fuel ≤ N) :
    Returns (topUpLoop hash160 nTarget fuel) s fun _ s' => s'.Sound hash160 kept ∧ s.SameHolders s' ∧ s'.Fresh hash160 (N - fuel) ∧
      (nTarget ≤ s.setKeyPool.size + fuel → nTarget ≤ s'.setKeyPool.size) := by
  induction fuel generalizing s N with
  | zero => exact returns_pure ⟨h, SameHolders.refl s, hfresh, id⟩
  | succ fuel ih =>
    by_cases hlt : s.setKeyPool.size < nTarget
    · obtain ⟨N, rfl⟩ : ∃ M, N = M + 1 := Nat.exists_eq_add_one_of_ne_zero (by omega)
      have hset : s.nEnd ∉ s.setKeyPool := fun hn => absurd (lt_nEnd hn) (Int.lt_irrefl _)
      have hpos := h.nEnd_pos
      have hnone : ∀ a, (s.reserveKeys a).nIndex ≠ s.nEnd := fun a ha => by
        refine hfree a (by omega) ⟨Int.le_of_eq ha.symm, ?_⟩
        rw [ha]
        omega
      have hsize : (s.filed hash160 s.nEnd).setKeyPool.size = s.setKeyPool.size + 1 := by
        change (s.setKeyPool.insert s.nEnd).size = _
        rw [TreeSet.size_insert, if_neg (by simpa using hset)]
      have hfree' : (s.filed hash160 s.nEnd).NoneIn (s.filed hash160 s.nEnd).nEnd fuel := by
        rw [nEnd_filed]
        intro a ha hin
        obtain ⟨hge, hlt⟩ : s.nEnd + 1 ≤ (s.reserveKeys a).nIndex ∧ (s.reserveKeys a).nIndex < s.nEnd + 1 + fuel := hin
        refine hfree a ha ⟨by omega, ?_⟩
        push_cast
        omega
      obtain ⟨u, s', hrun, hs', hsame, hfresh', hsize'⟩ := ih (h.filed_of hset hpos hnone (hfresh.mono (by omega))) hfree' hfresh.filed
        (Nat.le_of_succ_le_succ hle)
      refine ⟨u, s', ?_, hs', ⟨hsame.reserveKeys, hsame.fLocked, hsame.vchDefaultKey⟩, ?_, fun hT => hsize' (by omega)⟩
      · rw [KeyPool.topUpLoop]
        simp only [bind, EStateM.bind, get_run, if_pos hlt]
        exact hrun
      · rwa [Nat.add_sub_add_right]
    · refine ⟨(), s, ?_, h, .refl s, hfresh.mono (Nat.sub_le _ _), fun _ => Nat.not_lt.mp hlt⟩
      rw [KeyPool.topUpLoop]
      simp only [bind, EStateM.bind, get_run, if_neg hlt]
      rfl

/-- The keys `TopUpKeyPool` makes. -/
def missing (arg : Int) (nSize : UInt32) (s : KeyPool) : Nat := if s.fLocked then 0 else target arg nSize - s.setKeyPool.size

/-- `TopUpKeyPool`. -/
theorem Sound.topUpKeyPool {nSize : UInt32} {N : Nat} (h : s.Sound hash160 kept) (hfree : s.NoneIn s.nEnd (s.missing arg nSize))
    (hfresh : s.Fresh hash160 (s.missing arg nSize + N)) :
    Returns (topUpKeyPool hash160 arg nSize) s fun _ s' => s'.Sound hash160 kept ∧ s.SameHolders s' ∧ s'.Fresh hash160 N := by
  refine returns_get_bind ?_
  by_cases hlocked : s.fLocked
  · rw [missing, if_pos hlocked, Nat.zero_add] at hfresh
    rw [if_pos hlocked]
    exact returns_pure ⟨h, .refl s, hfresh⟩
  · rw [missing, if_neg hlocked] at hfree hfresh
    rw [if_neg hlocked]
    refine (h.topUpLoop hfree hfresh (Nat.le_add_right _ _)).bind fun _ s' hs' => returns_pure ?_
    rw [Nat.add_sub_cancel_left] at hs'
    exact ⟨hs'.1, hs'.2.1, hs'.2.2.1⟩

/-- The loop of `NewKeyPool`. -/
theorem Sound.writeNewKeys {left i N : Nat} (h : s.Sound hash160 kept) (hset : ∀ n ∈ s.setKeyPool, n ≤ i)
    (hfree : s.NoneIn (i + 1) left) (hfresh : s.Fresh hash160 (left + N)) :
    Returns (writeNewKeys hash160 left i) s fun _ s' => s'.Sound hash160 kept ∧ s.SameHolders s' ∧ s'.Fresh hash160 N := by
  induction left generalizing s i with
  | zero => exact returns_pure ⟨h, .refl s, by rwa [Nat.zero_add] at hfresh⟩
  | succ left ih =>
    have hnot : (i + 1 : Int) ∉ s.setKeyPool := fun hn => by
      have hle := hset _ hn
      omega
    have hnone : ∀ a, (s.reserveKeys a).nIndex ≠ i + 1 := fun a ha => by
      refine hfree a (by omega) ⟨Int.le_of_eq ha.symm, ?_⟩
      push_cast
      omega
    have hsound := h.filed_of hnot (by omega) hnone (hfresh.mono (by omega))
    have hset' : ∀ n ∈ (s.filed hash160 (i + 1)).setKeyPool, n ≤ (i + 1 : Nat) := fun n hn => by
      obtain rfl | hn := mem_insert_iff.mp hn
      · exact Int.le_of_eq (Int.natCast_add i 1).symm
      · have hle := hset n hn
        push_cast
        omega
    have hfree' : (s.filed hash160 (i + 1)).NoneIn ((i + 1 : Nat) + 1) left := fun a ha hin => by
      refine hfree a ha ?_
      push_cast at hin ⊢
      change i + 1 + 1 ≤ (s.reserveKeys a).nIndex ∧ (s.reserveKeys a).nIndex < _ at hin
      omega
    have hfresh' : (s.filed hash160 (i + 1)).Fresh hash160 (left + N) :=
      Fresh.filed (by rwa [Nat.succ_add] at hfresh)
    obtain ⟨u, s', hrun, hs', hsame, hN⟩ := ih hsound hset' hfree' hfresh'
    exact ⟨u, s', hrun, hs', ⟨hsame.reserveKeys, hsame.fLocked, hsame.vchDefaultKey⟩, hN⟩

/-- The pool without the records of the set, and without the set. -/
def cleared (s : KeyPool) : KeyPool :=
  { s with pool := s.setKeyPool.toList.foldl (fun pool nIndex => pool.erase nIndex) s.pool, setKeyPool := ∅ }

theorem lookup_foldl_erase {l : List Int} {pool : Map Int CKeyPool} (hn : n ∉ l) :
    (l.foldl (fun pool nIndex => pool.erase nIndex) pool).lookup n = pool.lookup n := by
  induction l generalizing pool with
  | nil => rfl
  | cons m l ih =>
    obtain ⟨hne, hl⟩ := List.ne_and_not_mem_of_not_mem_cons hn
    rw [List.foldl_cons, ih hl, AList.lookup_erase_ne hne]

theorem Sound.cleared (h : s.Sound hash160 kept) : s.cleared.Sound hash160 kept := by
  refine h.shrink (fun n hn => absurd hn TreeSet.not_mem_emptyc) (fun a => .inl rfl) (fun n hn => ?_) rfl rfl
  obtain hn | ⟨hne, a, rfl⟩ := hn
  · exact absurd hn TreeSet.not_mem_emptyc
  · exact lookup_foldl_erase fun hmem => h.taken a hne (TreeSet.mem_toList.mp hmem)

/-- The keys `NewKeyPool` makes. -/
def renewed (arg : Int) (s : KeyPool) : Nat := if s.fLocked then 0 else nKeys arg

/-- `NewKeyPool`. -/
theorem Sound.newKeyPool (h : s.Sound hash160 kept) (hfree : s.NoneIn 1 (s.renewed arg))
    (hfresh : s.Fresh hash160 (s.renewed arg)) :
    Returns (newKeyPool hash160 arg) s fun _ s' => s'.Sound hash160 kept ∧ s.SameHolders s' := by
  refine returns_modify_bind (returns_get_bind (s := s.cleared) ?_)
  by_cases hlocked : s.fLocked
  · rw [if_pos (show s.cleared.fLocked = true from hlocked)]
    exact returns_pure ⟨h.cleared, rfl, rfl, rfl⟩
  · rw [renewed, if_neg hlocked] at hfree hfresh
    rw [if_neg (show ¬ s.cleared.fLocked = true from hlocked)]
    have hset : ∀ n ∈ s.cleared.setKeyPool, n ≤ (0 : Nat) := fun n hn => absurd hn TreeSet.not_mem_emptyc
    refine (h.cleared.writeNewKeys (N := 0) hset ?_ hfresh).bind fun _ s' hs' => returns_pure ⟨hs'.1, ?_⟩
    · intro a ha hin
      have hin : (0 : Nat) + 1 ≤ (s.reserveKeys a).nIndex ∧ (s.reserveKeys a).nIndex < (0 : Nat) + 1 + nKeys arg := hin
      exact hfree a ha (by omega)
    · exact ⟨hs'.2.1.reserveKeys, hs'.2.1.fLocked, hs'.2.1.vchDefaultKey⟩

/-! ## Taking keys -/

/-- The state with an index set. -/
def withIndex (s : KeyPool) (nIndex : Int) : Option Nat → KeyPool
  | some a => s.reserve a { s.reserveKeys a with nIndex }
  | none => s

/-- What `ReserveKeyFromKeyPool` takes from the state `t` with its keys made,
and what it leaves. -/
def TookFrom (t : KeyPool) (a : Option Nat) (s' : KeyPool) : Option (Int × CKeyPool) → Prop
  | none => s' = t
  | some (n, keypool) => n ∈ t.setKeyPool ∧ t.pool.lookup n = some keypool ∧
      s' = { t.withIndex n a with setKeyPool := t.setKeyPool.erase n }

theorem Sound.withoutIndex (h : s.Sound hash160 kept) (a : Option Nat) : (s.withIndex (-1) a).Sound hash160 kept := by
  cases a with
  | none => exact h
  | some a =>
    refine h.shrink (fun _ => id) (fun b => ?_) (fun _ _ => rfl) rfl rfl
    by_cases hba : b = a
    · rw [hba]
      exact .inr (congrArg CReserveKey.nIndex reserve_self)
    · exact .inl (reserve_of_ne hba)

theorem setIndex_run (nIndex : Int) (a : Option Nat) : setIndex nIndex a s = .ok () (s.withIndex nIndex a) := by
  cases a <;> rfl

@[simp] theorem withIndex_setKeyPool (a : Option Nat) : (s.withIndex n a).setKeyPool = s.setKeyPool := by cases a <;> rfl
@[simp] theorem withIndex_pool (a : Option Nat) : (s.withIndex n a).pool = s.pool := by cases a <;> rfl
@[simp] theorem withIndex_mapKeys (a : Option Nat) : (s.withIndex n a).mapKeys = s.mapKeys := by cases a <;> rfl
@[simp] theorem withIndex_fLocked (a : Option Nat) : (s.withIndex n a).fLocked = s.fLocked := by cases a <;> rfl
@[simp] theorem withIndex_newKeys (a : Option Nat) : (s.withIndex n a).newKeys = s.newKeys := by cases a <;> rfl

/-- **`ReserveKeyFromKeyPool` returns**: its checks cannot fail. -/
theorem Sound.reserveKeyFromKeyPool {a : Option Nat} {N : Nat} (h : s.Sound hash160 kept)
    (hfree : (s.withIndex (-1) a).NoneIn s.nEnd (s.missing arg 0)) (hfresh : s.Fresh hash160 (s.missing arg 0 + N)) :
    Returns (reserveKeyFromKeyPool hash160 arg a) s fun reserved s' =>
      ∃ t : KeyPool, t.Sound hash160 kept ∧ (s.withIndex (-1) a).SameHolders t ∧ t.Fresh hash160 N ∧ t.TookFrom a s' reserved := by
  have hnEnd : (s.withIndex (-1) a).nEnd = s.nEnd := by rw [nEnd, nEnd, withIndex_setKeyPool]
  have hmissing : (s.withIndex (-1) a).missing arg 0 = s.missing arg 0 := by
    rw [missing, missing, withIndex_setKeyPool, withIndex_fLocked]
  have hmore : ∀ M, s.Fresh hash160 M → (s.withIndex (-1) a).Fresh hash160 M := fun M hM => by
    unfold Fresh haveKey at hM ⊢
    rwa [withIndex_newKeys, withIndex_mapKeys]
  refine Returns.bind (P := fun _ t => t = s.withIndex (-1) a) ⟨(), _, setIndex_run _ _, rfl⟩ fun _ t ht => ?_
  subst ht
  refine returns_get_bind (Returns.bind (P := fun _ t => t.Sound hash160 kept ∧ (s.withIndex (-1) a).SameHolders t ∧
    t.Fresh hash160 N) (returns_onlyIf (fun _ => ?_) fun hlocked => ?_) fun _ t ht => returns_get_bind ?_)
  · refine ((h.withoutIndex a).topUpKeyPool ?_ ?_).bind fun _ t ht => returns_pure ht
    · rw [hnEnd, hmissing]
      exact hfree
    · rw [hmissing]
      exact hmore _ hfresh
  · refine ⟨h.withoutIndex a, .refl _, (hmore _ hfresh).mono ?_⟩
    exact Nat.le_add_left _ _
  obtain ⟨hsound, hsame, hN⟩ := ht
  rw [← TreeSet.min?_eq_head?_toList]
  cases hmin : t.setKeyPool.min? with
  | none => exact returns_pure ⟨t, hsound, hsame, hN, rfl⟩
  | some n =>
    have hn := (TreeSet.min?_eq_some_iff_mem_and_forall.mp hmin).1
    obtain ⟨k, hk, hhave, hvalid, -⟩ := hsound.recorded n (.inl hn)
    obtain ⟨keypool, hlookup, rfl⟩ := Option.map_eq_some_iff.mp hk
    refine Returns.bind (P := fun _ t' => t' = t.withIndex n a) ⟨(), _, setIndex_run _ _, rfl⟩ fun _ t' ht' => ?_
    subst ht'
    refine returns_modify_bind ?_
    rw [hlookup]
    let t' : KeyPool := { t.withIndex n a with setKeyPool := t.setKeyPool.erase n }
    have ht' : { t.withIndex n a with setKeyPool := (t.withIndex n a).setKeyPool.erase n } = t' := by
      rw [withIndex_setKeyPool]
    rw [ht']
    have hknown : ¬ t.haveKey hash160 keypool.vchPubKey = false := by simp [hhave]
    have hgood : ¬ keypool.vchPubKey.isValid = false := by simp [hvalid]
    dsimp only
    refine (returns_rejectIf (Q := fun _ u => u = t') hknown rfl).bind fun _ u hu => ?_
    refine (returns_rejectIf (Q := fun _ u => u = t') hgood hu).bind fun _ u hu => ?_
    exact returns_pure ⟨t, hsound, hsame, hN, hn, hlookup, hu⟩

end KeyPool

end Pinkcoin
