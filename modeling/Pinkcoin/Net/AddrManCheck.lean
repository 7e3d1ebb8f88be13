/-
`Check_` and the tables: what the check finds in order, and that it finds
everything in order when the tables agree and the times are possible.
-/
import Pinkcoin.Net.AddrManFacts

namespace Pinkcoin

open Std (TreeMap TreeSet)
open StateError Tally

namespace CAddrMan

variable {m : CAddrMan} {n : Int} {info : CAddrInfo}

/-! ## The loops of the check -/

/-- The loop removes what the buckets hold, no more and no less, when the two
lists have the same members as often. -/
theorem strike_ok {α : Type} (code : Int) {remove : Int → α → Option α} (items : α → List Int) {V : α → Prop}
    (hsome : ∀ {n a b}, V a → remove n a = some b → (items a).Perm (n :: items b) ∧ V b)
    (hnone : ∀ {n a}, remove n a = none → n ∉ items a) (slots : List Int) {a : α} (ha : V a) :
    (∃ b, strike code remove slots a = .ok b ∧ V b ∧ items b = []) ↔ slots.Perm (items a) := by
  induction slots generalizing a with
  | nil =>
    constructor
    · rintro ⟨_, ⟨⟩, -, hb⟩
      rw [hb]
    · exact fun h => ⟨a, rfl, ha, List.nil_perm.mp h⟩
  | cons n slots ih =>
    rw [strike, List.foldlM_cons]
    cases hremove : remove n a with
    | none =>
      refine iff_of_false (fun ⟨b, hb, _⟩ => ?_) fun h => hnone hremove (h.mem_iff.mp List.mem_cons_self)
      exact nomatch hb
    | some rest =>
      obtain ⟨hperm, hrest⟩ := hsome ha hremove
      exact (ih hrest).trans ⟨fun h => (h.cons n).trans hperm.symm, fun h => (h.trans hperm).cons_inv⟩

theorem perm_crossOff {l r : List Int} (h : crossOff n l = some r) : l.Perm (n :: r) := by
  unfold crossOff at h
  split at h
  next hn => exact Option.some.inj h ▸ List.perm_cons_erase hn
  next => exact nomatch h

theorem notMem_of_crossOff {l : List Int} (h : crossOff n l = none) : n ∉ l := by
  unfold crossOff at h
  split at h
  next => exact nomatch h
  next hn => exact hn

/-- The ids of `mapNew`, as often as they are counted. -/
def copies (l : List (Int × Int)) : List Int := l.flatMap fun e => List.replicate e.2.toNat e.1

/-- Each id is counted at least once. -/
def Counted (l : List (Int × Int)) : Prop := ∀ e ∈ l, 0 < e.2

theorem countDown_some {l r : List (Int × Int)} (h : countDown n l = some r) (hl : Counted l) :
    (copies l).Perm (n :: copies r) ∧ Counted r := by
  induction l generalizing r with
  | nil => exact nomatch h
  | cons e l ih =>
    obtain ⟨k, c⟩ := e
    obtain ⟨hc, hl⟩ := List.forall_mem_cons.mp hl
    have hc : 0 < c := hc
    rw [countDown] at h
    split at h
    next hk =>
      subst hk
      obtain rfl := Option.some.inj h
      obtain ⟨j, hj⟩ : ∃ j, c.toNat = j + 1 := Nat.exists_eq_add_one_of_ne_zero (by omega)
      have hcopies : copies ((k, c) :: l) = k :: (List.replicate j k ++ copies l) := by
        simp only [copies, List.flatMap_cons, hj, List.replicate_succ, List.cons_append]
      rw [hcopies]
      split
      · have hzero : j = 0 := by omega
        subst hzero
        exact ⟨List.Perm.refl _, hl⟩
      · have hpred : (c - 1).toNat = j := by omega
        refine ⟨?_, List.forall_mem_cons.mpr ⟨by simp only; omega, hl⟩⟩
        simp only [copies, List.flatMap_cons, hpred]
        exact List.Perm.refl _
    next hk =>
      obtain ⟨r', hr', rfl⟩ := Option.map_eq_some_iff.mp h
      obtain ⟨hperm, hr⟩ := ih hr' hl
      refine ⟨?_, List.forall_mem_cons.mpr ⟨hc, hr⟩⟩
      simp only [copies, List.flatMap_cons] at hperm ⊢
      exact (hperm.append_left _).trans List.perm_middle

theorem countDown_none {l : List (Int × Int)} (h : countDown n l = none) : n ∉ copies l := by
  induction l with
  | nil => exact List.not_mem_nil
  | cons e l ih =>
    obtain ⟨k, c⟩ := e
    rw [countDown] at h
    split at h
    next => exact nomatch h
    next hk =>
      have hrest := ih (Option.map_eq_none_iff.mp h)
      simp only [copies, List.flatMap_cons, List.mem_append, List.mem_replicate, not_or] at hrest ⊢
      exact ⟨fun hn => hk hn.2.symm, hrest⟩

theorem copies_eq_nil {l : List (Int × Int)} (hl : Counted l) : copies l = [] ↔ l = [] := by
  cases l with
  | nil => exact iff_of_true rfl rfl
  | cons e l =>
    have hc := (List.forall_mem_cons.mp hl).1
    refine iff_of_false (fun h => ?_) nofun
    simp only [copies, List.flatMap_cons, List.append_eq_nil_iff, List.replicate_eq_nil_iff] at h
    omega

theorem strike_tried {slots left : List Int} :
    (∃ b, strike (-11) crossOff slots left = .ok b ∧ b = []) ↔ slots.Perm left := by
  refine Iff.trans ?_ (strike_ok (-11) id (V := fun _ => True)
    (fun _ h => ⟨perm_crossOff h, trivial⟩) notMem_of_crossOff slots (a := left) trivial)
  simp

theorem strike_new {slots : List Int} {left : List (Int × Int)} (hleft : Counted left) :
    (∃ b, strike (-12) countDown slots left = .ok b ∧ b = []) ↔ slots.Perm (copies left) := by
  refine Iff.trans ?_ (strike_ok (-12) copies (fun ha h => countDown_some h ha) countDown_none slots hleft)
  constructor
  · rintro ⟨b, hb, rfl⟩
    exact ⟨[], hb, nofun, rfl⟩
  · rintro ⟨b, hb, hcounted, hnil⟩
    exact ⟨b, hb, (copies_eq_nil hcounted).mp hnil⟩

/-! ## What the check asks -/

/-- What `Check_` asks of an entry. -/
structure EntryChecked (m : CAddrMan) (n : Int) (info : CAddrInfo) : Prop where
  tried : info.fInTried = true → info.nLastSuccess ≠ 0 ∧ info.nRefCount = 0
  new : info.fInTried = false → 0 < info.nRefCount ∧ info.nRefCount ≤ ADDRMAN_NEW_BUCKETS_PER_ADDRESS
  addr : (m.mapAddr.lookup info.netAddr).getD 0 = n
  place : 0 ≤ info.nRandomPos ∧ m.vRandom[info.nRandomPos.toNat]? = some n
  nLastTry : 0 ≤ info.nLastTry
  nLastSuccess : 0 ≤ info.nLastSuccess

theorem checkKind_ok {u : Unit} : checkKind info = .ok u ↔
    (info.fInTried = true → info.nLastSuccess ≠ 0 ∧ info.nRefCount = 0) ∧
    (info.fInTried = false → 0 < info.nRefCount ∧ info.nRefCount ≤ ADDRMAN_NEW_BUCKETS_PER_ADDRESS) := by
  unfold checkKind
  cases info.fInTried with
  | true => simp
  | false =>
    simp only [Bool.false_eq_true, if_false, except_bind_ok, except_rejectIf_ok, false_implies, true_and, forall_const]
    constructor
    · rintro ⟨_, hrange, hzero⟩
      omega
    · intro h
      exact ⟨(), by omega, by omega⟩

theorem checkInfo_ok {u : Unit} : m.checkInfo (n, info) = .ok u ↔ m.EntryChecked n info := by
  simp only [checkInfo, except_bind_ok, except_rejectIf_ok, checkKind_ok]
  constructor
  · rintro ⟨_, ⟨htried, hnew⟩, _, haddr, _, hplace, _, htry, hsuccess⟩
    obtain ⟨hneg, hat⟩ := not_or.mp hplace
    exact ⟨htried, hnew, not_not.mp haddr, ⟨Int.not_lt.mp hneg, not_not.mp hat⟩, Int.not_lt.mp htry, Int.not_lt.mp hsuccess⟩
  · intro h
    exact ⟨(), ⟨h.tried, h.new⟩, (), not_not_intro h.addr, (), not_or.mpr ⟨Int.not_lt.mpr h.place.1, not_not_intro h.place.2⟩,
      (), Int.not_lt.mpr h.nLastTry, Int.not_lt.mpr h.nLastSuccess⟩

/-- **What `Check_` asks of the tables.** -/
structure Checked (m : CAddrMan) : Prop where
  random : (m.vRandom.length : Int) = m.nTried + m.nNew
  entries : ∀ n info, m.mapInfo[n]? = some info → m.EntryChecked n info
  nTried : (m.triedIds.length : Int) = m.nTried
  nNew : (m.newRefs.length : Int) = m.nNew
  tried : m.vvTried.flatten.Perm m.triedIds
  new : m.newSlots.Perm (copies m.newRefs)

theorem check_ok : m.check = .ok () ↔ m.Checked := by
  unfold check
  have hentries : (∀ e ∈ m.mapInfo.toList, m.checkInfo e = .ok ()) ↔ ∀ n info, m.mapInfo[n]? = some info → m.EntryChecked n info := by
    refine ⟨fun h n info hinfo => checkInfo_ok.mp (h (n, info) ?_), fun h e he => checkInfo_ok.mpr (h e.1 e.2 ?_)⟩
    · exact TreeMap.mem_toList_iff_getElem?_eq_some.mpr hinfo
    · exact TreeMap.mem_toList_iff_getElem?_eq_some.mp he
  have hcounted : (∀ n info, m.mapInfo[n]? = some info → m.EntryChecked n info) → Counted m.newRefs := by
    intro h e he
    obtain ⟨⟨n, info⟩, hmem, rfl⟩ := List.mem_map.mp he
    obtain ⟨hmem, htried⟩ := List.mem_filter.mp hmem
    exact ((h n info (TreeMap.mem_toList_iff_getElem?_eq_some.mp hmem)).new (by simpa using htried)).1
  simp only [except_bind_ok, except_rejectIf_ok, except_forM_ok, not_not]
  constructor
  · rintro ⟨_, hrandom, _, hall, _, htried, _, hnew, setTried, hset, mapNew, hmap, _, hnil, hnil'⟩
    have hall := hentries.mp hall
    exact ⟨hrandom, hall, htried, hnew, strike_tried.mp ⟨_, hset, hnil⟩, (strike_new (hcounted hall)).mp ⟨_, hmap, hnil'⟩⟩
  · intro h
    obtain ⟨setTried, hset, hnil⟩ := strike_tried.mpr h.tried
    obtain ⟨mapNew, hmap, hnil'⟩ := (strike_new (hcounted h.entries)).mpr h.new
    exact ⟨(), h.random, (), hentries.mpr h.entries, (), h.nTried, (), h.nNew, setTried, hset, mapNew, hmap, (), hnil, hnil'⟩

/-! ## The ids in order -/

theorem mem_toList : (n, info) ∈ m.mapInfo.toList ↔ m.mapInfo[n]? = some info := TreeMap.mem_toList_iff_getElem?_eq_some

theorem nodup_ids (p : Int × CAddrInfo → Bool) : ((m.mapInfo.toList.filter p).map Prod.fst).Nodup := by
  have hkeys : m.mapInfo.toList.Pairwise fun a b => a.1 ≠ b.1 :=
    TreeMap.distinct_keys_toList.imp fun {a b} h heq => h (compare_eq_iff_eq.mpr heq)
  exact List.pairwise_map.mpr (hkeys.filter p)

theorem mem_triedIds : n ∈ m.triedIds ↔ ∃ info, m.mapInfo[n]? = some info ∧ info.fInTried = true := by
  simp only [triedIds, List.mem_map, List.mem_filter, Prod.exists, mem_toList, exists_and_right, exists_eq_right]

theorem mem_newRefs {c : Int} : (n, c) ∈ m.newRefs ↔ ∃ info, m.mapInfo[n]? = some info ∧ info.fInTried = false ∧ info.nRefCount = c := by
  simp only [newRefs, List.mem_map, List.mem_filter, Prod.exists, mem_toList, Bool.not_eq_true', Prod.mk.injEq]
  constructor
  · rintro ⟨k, info, ⟨hinfo, htried⟩, rfl, hc⟩
    exact ⟨info, hinfo, htried, hc⟩
  · rintro ⟨info, hinfo, htried, hc⟩
    exact ⟨n, info, ⟨hinfo, htried⟩, rfl, hc⟩

theorem count_flatten (n : Int) : m.vvTried.flatten.count n = m.triedCount n := List.count_flatten

theorem count_newSlots (n : Int) : m.newSlots.count n = m.newCount n := by
  rw [newSlots, List.count_flatten, List.map_map, newCount, tally]
  refine congrArg List.sum (List.map_congr_left fun S _ => ?_)
  have hnodup : S.toList.Nodup := TreeSet.distinct_toList.imp fun {a b} h heq => h (compare_eq_iff_eq.mpr heq)
  rw [Function.comp_apply, hnodup.count]
  simp only [TreeSet.mem_toList]

theorem count_copies {l : List (Int × Int)} (hl : (l.map Prod.fst).Nodup) {c : Int} (hn : (n, c) ∈ l) :
    (copies l).count n = c.toNat := by
  induction l with
  | nil => exact absurd hn List.not_mem_nil
  | cons e l ih =>
    obtain ⟨k, d⟩ := e
    rw [List.map_cons, List.nodup_cons] at hl
    have hcons : copies ((k, d) :: l) = List.replicate d.toNat k ++ copies l := rfl
    rw [hcons, List.count_append, List.count_replicate]
    obtain heq | hmem := List.mem_cons.mp hn
    · obtain ⟨rfl, rfl⟩ := Prod.mk.inj heq
      have hnot : n ∉ copies l := fun hmem => by
        obtain ⟨e, he, hrep⟩ := List.mem_flatMap.mp hmem
        exact hl.1 (List.mem_map.mpr ⟨e, he, (List.eq_of_mem_replicate hrep).symm⟩)
      rw [List.count_eq_zero.mpr hnot, if_pos (beq_self_eq_true _), Nat.add_zero]
    · have hne : k ≠ n := by
        rintro rfl
        exact hl.1 (List.mem_map.mpr ⟨_, hmem, rfl⟩)
      rw [if_neg (by simpa using hne), Nat.zero_add, ih hl.2 hmem]

theorem mem_copies {l : List (Int × Int)} (h : n ∈ copies l) : ∃ c, (n, c) ∈ l := by
  obtain ⟨e, he, hrep⟩ := List.mem_flatMap.mp h
  exact ⟨e.2, by rwa [List.eq_of_mem_replicate hrep]⟩

theorem nodup_newRefs : (m.newRefs.map Prod.fst).Nodup := by
  rw [newRefs, List.map_map]
  exact nodup_ids fun e => !e.2.fInTried

/-! ## The tables agree -/

/-- **The invariant of the address manager.** An id is in no bucket when it is
unknown, in one "tried" bucket, or in as many "new" buckets as `nRefCount`
says; ids, addresses and random positions name each other; the counters are
exact; no bucket is over its size. -/
structure Consistent (m : CAddrMan) : Prop where
  unknown : ∀ n, m.mapInfo[n]? = none → m.newCount n = 0 ∧ m.triedCount n = 0
  tried : ∀ n info, m.mapInfo[n]? = some info → info.fInTried = true →
    info.nRefCount = 0 ∧ m.newCount n = 0 ∧ m.triedCount n = 1
  new : ∀ n info, m.mapInfo[n]? = some info → info.fInTried = false →
    info.nRefCount = (m.newCount n : Int) ∧ m.triedCount n = 0 ∧
      1 ≤ info.nRefCount ∧ info.nRefCount ≤ ADDRMAN_NEW_BUCKETS_PER_ADDRESS
  indexed : m.Indexed
  nTried : m.nTried = m.triedIds.length
  nNew : m.nNew = m.newRefs.length
  sizes : Sizes m.vvTried m.vvNew

theorem filed_iff : (∀ n, Filed m.mapInfo[n]? (m.newCount n) (m.triedCount n) .none) ↔
    (∀ n, m.mapInfo[n]? = none → m.newCount n = 0 ∧ m.triedCount n = 0) ∧
    (∀ n info, m.mapInfo[n]? = some info → info.fInTried = true → info.nRefCount = 0 ∧ m.newCount n = 0 ∧ m.triedCount n = 1) ∧
    (∀ n info, m.mapInfo[n]? = some info → info.fInTried = false → info.nRefCount = (m.newCount n : Int) ∧ m.triedCount n = 0 ∧
      1 ≤ info.nRefCount ∧ info.nRefCount ≤ ADDRMAN_NEW_BUCKETS_PER_ADDRESS) := by
  constructor
  · refine fun h => ⟨fun n hn => ?_, fun n info hn ht => ?_, fun n info hn ht => ?_⟩
    · have hfiled := h n
      rw [hn] at hfiled
      obtain ⟨hcount, htried, -⟩ := hfiled
      simp only [Slack.none] at hcount
      exact ⟨by omega, htried⟩
    · have hfiled := h n
      rw [hn, filed_tried ht] at hfiled
      obtain ⟨hcount, htried, hzero, -⟩ := hfiled
      simp only [Slack.none] at hcount
      exact ⟨hzero, by omega, htried⟩
    · have hfiled := h n
      rw [hn, filed_untried ht] at hfiled
      obtain ⟨hcount, htried, hkind⟩ := hfiled
      simp only [Slack.none, Bool.false_eq_true, if_false, Int.add_zero] at hcount hkind
      exact ⟨hcount, htried, hkind⟩
  · rintro ⟨hunknown, htried, hnew⟩ n
    cases hn : m.mapInfo[n]? with
    | none =>
      obtain ⟨hzero, htrieds⟩ := hunknown n hn
      exact ⟨by rw [hzero]; rfl, htrieds, rfl⟩
    | some info =>
      cases ht : info.fInTried with
      | true =>
        obtain ⟨hzero, hnews, hone⟩ := htried n info hn ht
        rw [filed_tried ht]
        exact ⟨by rw [hzero, hnews]; rfl, hone, hzero, rfl⟩
      | false =>
        obtain ⟨hcount, hzero, hrange⟩ := hnew n info hn ht
        rw [filed_untried ht]
        exact ⟨by simp only [Slack.none, Int.add_zero]; exact hcount, hzero, hrange⟩

/-- The buckets hold what the entries say, taken together. -/
theorem perm_of_filed (h : ∀ n, Filed m.mapInfo[n]? (m.newCount n) (m.triedCount n) .none) :
    m.vvTried.flatten.Perm m.triedIds ∧ m.newSlots.Perm (copies m.newRefs) := by
  obtain ⟨hunknown, htried, hnew⟩ := filed_iff.mp h
  have hnodup : m.triedIds.Nodup := nodup_ids _
  constructor
  · refine List.perm_iff_count.mpr fun n => ?_
    rw [count_flatten, hnodup.count]
    cases hn : m.mapInfo[n]? with
    | none =>
      rw [if_neg fun hmem => by simpa [hn] using mem_triedIds.mp hmem]
      exact (hunknown n hn).2
    | some info =>
      cases ht : info.fInTried with
      | true =>
        rw [if_pos (mem_triedIds.mpr ⟨info, hn, ht⟩)]
        exact (htried n info hn ht).2.2
      | false =>
        rw [if_neg fun hmem => by simpa [hn, ht] using mem_triedIds.mp hmem]
        exact (hnew n info hn ht).2.1
  · refine List.perm_iff_count.mpr fun n => ?_
    have hnot : (∀ info, m.mapInfo[n]? = some info → info.fInTried = true) → (copies m.newRefs).count n = 0 := fun hall => by
      refine List.count_eq_zero.mpr fun hmem => ?_
      obtain ⟨c, hc⟩ := mem_copies hmem
      obtain ⟨info, hinfo, hfalse, -⟩ := mem_newRefs.mp hc
      exact Bool.false_ne_true (hfalse.symm.trans (hall info hinfo))
    rw [count_newSlots]
    cases hn : m.mapInfo[n]? with
    | none => rw [hnot (by rw [hn]; exact nofun), (hunknown n hn).1]
    | some info =>
      cases ht : info.fInTried with
      | true =>
        rw [hnot (by rw [hn]; rintro _ ⟨⟩; exact ht), (htried n info hn ht).2.1]
      | false =>
        rw [count_copies nodup_newRefs (mem_newRefs.mpr ⟨info, hn, ht, rfl⟩), (hnew n info hn ht).1, Int.toNat_natCast]

/-- Each entry has one random position. -/
theorem Indexed.length (h : m.Indexed) : m.vRandom.length = m.triedIds.length + m.newRefs.length := by
  have hids : m.vRandom.Perm (m.mapInfo.toList.map Prod.fst) := by
    refine (List.perm_ext_iff_of_nodup h.places.nodup ?_).mpr fun n => ?_
    · have hall := nodup_ids (m := m) fun _ => true
      rwa [List.filter_true] at hall
    · rw [h.places.mem_iff, randomPos, Option.isSome_map, List.mem_map]
      constructor
      · intro hn
        obtain ⟨info, hinfo⟩ := Option.isSome_iff_exists.mp hn
        exact ⟨(n, info), mem_toList.mpr hinfo, rfl⟩
      · rintro ⟨⟨k, info⟩, hmem, rfl⟩
        rw [mem_toList.mp hmem]
        rfl
  rw [hids.length_eq, List.length_map, triedIds, newRefs, List.length_map, List.length_map]
  exact List.length_eq_length_filter_add _

theorem settled_iff : m.Settled ↔ m.Consistent := by
  have hsize : m.triedSize = m.vvTried.flatten.length := by rw [List.length_flatten]; rfl
  constructor
  · intro h
    obtain ⟨hunknown, htried, hnew⟩ := filed_iff.mp h.filed
    have htotal := h.total
    have htriedTotal := h.triedTotal
    rw [hsize, (perm_of_filed h.filed).1.length_eq] at htriedTotal
    rw [h.indexed.length] at htotal
    exact ⟨hunknown, htried, hnew, h.indexed, htriedTotal, by omega, h.sizes⟩
  · intro h
    have hfiled := filed_iff.mpr ⟨h.unknown, h.tried, h.new⟩
    refine ⟨h.sizes, h.indexed, hfiled, ?_, ?_⟩
    · rw [hsize, (perm_of_filed hfiled).1.length_eq]
      exact h.nTried
    · rw [h.indexed.length, h.nTried, h.nNew]
      push_cast
      omega

/-! ## The times -/

/-- What `Check_` asks of the times. -/
def Timed (m : CAddrMan) : Prop := ∀ (n : Int) (info : CAddrInfo), m.mapInfo[n]? = some info →
  0 ≤ info.nLastTry ∧ 0 ≤ info.nLastSuccess ∧ (info.fInTried = true → info.nLastSuccess ≠ 0)

/-- The sizes of the buckets are not checked. -/
theorem check_of_filed (hfiled : ∀ n, Filed m.mapInfo[n]? (m.newCount n) (m.triedCount n) .none) (hindexed : m.Indexed)
    (hnTried : m.nTried = m.triedIds.length) (hnNew : m.nNew = m.newRefs.length) (htimed : m.Timed) : m.check = .ok () := by
  obtain ⟨htried, hnew⟩ := perm_of_filed hfiled
  obtain ⟨-, htriedOnly, hnewOnly⟩ := filed_iff.mp hfiled
  refine check_ok.mpr ⟨?_, fun n info hinfo => ?_, hnTried.symm, hnNew.symm, htried, hnew⟩
  · rw [hindexed.length, hnTried, hnNew]
    push_cast
    rfl
  · obtain ⟨htry, hsuccess, hne⟩ := htimed n info hinfo
    refine ⟨fun ht => ⟨hne ht, (htriedOnly n info hinfo ht).1⟩, fun ht => ?_, ?_, ?_, htry, hsuccess⟩
    · obtain ⟨-, -, hpos, hle⟩ := hnewOnly n info hinfo ht
      exact ⟨hpos, hle⟩
    · have haddr : m.addrOf n = some info.netAddr := by
        rw [addrOf, hinfo]
        rfl
      rw [(hindexed.addr _ n).mpr haddr]
      rfl
    · have hpos : m.randomPos n = some info.nRandomPos := by
        rw [randomPos, hinfo]
        rfl
      exact hindexed.places.placed hpos

/-- **`Check_` finds consistent tables in order** when the times are. -/
theorem Consistent.check (h : m.Consistent) (htimed : m.Timed) : m.check = .ok () :=
  check_of_filed (filed_iff.mpr ⟨h.unknown, h.tried, h.new⟩) h.indexed h.nTried h.nNew htimed

end CAddrMan

end Pinkcoin
