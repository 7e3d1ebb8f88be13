/-
The address manager written to disk and read back: which entries the file
lists and under which numbers, what the loops of `Unserialize` make of them,
and when the result is as good as what was written.
-/
import Pinkcoin.Net.AddrManReload

namespace Pinkcoin

open Std (TreeMap TreeSet)
open CScript (leBytes)
open Codec StateError Tally
open CDataStream (stream)

namespace CAddrMan

variable {m r : CAddrMan} {n : Int} {b : Nat} {info : CAddrInfo} {done : List (CAddrInfo × Bool)}

/-! ## What is written -/

/-- The entries that are not tried, in the order of their ids. -/
def news (m : CAddrMan) : List (Int × CAddrInfo) := m.mapInfo.toList.filter fun e => !e.2.fInTried

/-- The tried entries, in the order of their ids. -/
def trieds (m : CAddrMan) : List (Int × CAddrInfo) := m.mapInfo.toList.filter fun e => e.2.fInTried

/-- Entries that are not tried are the ones with references; each is numbered
by its place among them. -/
theorem writeNew_spec {l : List (Int × CAddrInfo)} {nNew nIds : Int} (hkeys : l.Pairwise fun a b => a.1 ≠ b.1)
    (hrefs : ∀ e ∈ l, e.2.nRefCount ≠ 0 ↔ e.2.fInTried = false) (hcount : nNew = nIds + (l.filter fun e => !e.2.fInTried).length) :
    (writeNew nNew l nIds).2 = (l.filter fun e => !e.2.fInTried).map Prod.snd ∧
      ∀ (p : Nat) (n : Int) (info : CAddrInfo), (l.filter fun e => !e.2.fInTried)[p]? = some (n, info) →
        (writeNew nNew l nIds).1.lookup n = some (nIds + p) := by
  induction l generalizing nIds with
  | nil => exact ⟨rfl, nofun⟩
  | cons e l ih =>
    obtain ⟨k, i⟩ := e
    obtain ⟨hne, hkeys⟩ := List.pairwise_cons.mp hkeys
    obtain ⟨hi, hrefs⟩ := List.forall_mem_cons.mp hrefs
    have hi : i.nRefCount ≠ 0 ↔ i.fInTried = false := hi
    have hlater : ∀ {p : Nat} {n : Int} {info : CAddrInfo}, (l.filter fun e => !e.2.fInTried)[p]? = some (n, info) → (n == k) = false :=
      fun hp => beq_eq_false_iff_ne.mpr (hne _ (List.mem_of_mem_filter (List.mem_of_getElem? hp))).symm
    rw [writeNew]
    by_cases hall : nIds = nNew
    · have hnil : ((k, i) :: l).filter (fun e => !e.2.fInTried) = [] := List.length_eq_zero_iff.mp (by omega)
      rw [if_pos hall, hnil]
      exact ⟨rfl, nofun⟩
    · rw [if_neg hall]
      cases htried : i.fInTried with
      | false =>
        have hfilter : ((k, i) :: l).filter (fun e => !e.2.fInTried) = (k, i) :: l.filter fun e => !e.2.fInTried :=
          List.filter_cons_of_pos (by simp [htried])
        rw [hfilter, List.length_cons] at hcount
        have hcount' : nNew = nIds + 1 + (l.filter fun e => !e.2.fInTried).length := by
          push_cast at hcount
          omega
        obtain ⟨hwritten, hids⟩ := ih hkeys hrefs hcount'
        rw [if_pos (hi.mpr htried), hfilter]
        change i :: (writeNew nNew l (nIds + 1)).2 = _ ∧ ∀ (p : Nat) (n : Int) (info : CAddrInfo), _ →
          ((k, nIds) :: (writeNew nNew l (nIds + 1)).1).lookup n = _
        refine ⟨by rw [List.map_cons, hwritten], fun p n info hp => ?_⟩
        cases p with
        | zero =>
          obtain ⟨rfl, rfl⟩ := Prod.mk.inj (Option.some.inj hp)
          rw [List.lookup_cons_self]
          exact congrArg some (Int.add_zero nIds).symm
        | succ p =>
          rw [List.lookup_cons, hlater hp]
          refine (hids p n info hp).trans (congrArg some ?_)
          push_cast
          omega
      | true =>
        have hfilter : ((k, i) :: l).filter (fun e => !e.2.fInTried) = l.filter fun e => !e.2.fInTried :=
          List.filter_cons_of_neg (by simp [htried])
        rw [hfilter] at hcount
        obtain ⟨hwritten, hids⟩ := ih hkeys hrefs hcount
        rw [if_neg fun hrefs => by simp [hi.mp hrefs] at htried, hfilter]
        change (writeNew nNew l nIds).2 = _ ∧ ∀ (p : Nat) (n : Int) (info : CAddrInfo), _ →
          ((k, nIds) :: (writeNew nNew l nIds).1).lookup n = _
        refine ⟨hwritten, fun p n info hp => ?_⟩
        rw [List.lookup_cons, hlater hp]
        exact hids p n info hp

theorem writeTried_spec {l : List (Int × CAddrInfo)} {nTried nIds : Int}
    (hcount : nTried = nIds + (l.filter fun e => e.2.fInTried).length) :
    writeTried nTried l nIds = (l.filter fun e => e.2.fInTried).map Prod.snd := by
  induction l generalizing nIds with
  | nil => rfl
  | cons e l ih =>
    obtain ⟨k, i⟩ := e
    rw [writeTried]
    by_cases hall : nIds = nTried
    · have hnil : ((k, i) :: l).filter (fun e => e.2.fInTried) = [] := List.length_eq_zero_iff.mp (by omega)
      rw [if_pos hall, hnil]
      rfl
    · rw [if_neg hall]
      cases htried : i.fInTried with
      | false =>
        have hfilter : ((k, i) :: l).filter (fun e => e.2.fInTried) = l.filter fun e => e.2.fInTried :=
          List.filter_cons_of_neg (by simp [htried])
        rw [hfilter] at hcount ⊢
        exact ih hcount
      | true =>
        have hfilter : ((k, i) :: l).filter (fun e => e.2.fInTried) = (k, i) :: l.filter fun e => e.2.fInTried :=
          List.filter_cons_of_pos (by simp [htried])
        rw [hfilter, List.length_cons] at hcount
        rw [hfilter, if_pos rfl, ih (by push_cast at hcount; omega)]
        rfl

/-! ## Tables that were checked -/

namespace Checked

variable {S : TreeSet Int} {k : Int} {i j : CAddrInfo}

/-- The "new" buckets hold entries that are not tried. -/
theorem of_slot (h : m.Checked) (hS : S ∈ m.vvNew) (hn : n ∈ S) : ∃ info, m.mapInfo[n]? = some info ∧ info.fInTried = false := by
  have hslot : n ∈ m.newSlots := List.mem_flatten.mpr ⟨S.toList, List.mem_map_of_mem hS, TreeSet.mem_toList.mpr hn⟩
  obtain ⟨c, hc⟩ := mem_copies (h.new.mem_iff.mp hslot)
  obtain ⟨info, hinfo, htried, -⟩ := mem_newRefs.mp hc
  exact ⟨info, hinfo, htried⟩

theorem newCount_eq (h : m.Checked) (hinfo : m.mapInfo[n]? = some info) (htried : info.fInTried = false) :
    (m.newCount n : Int) = info.nRefCount := by
  have hcount := count_newSlots (m := m) n
  rw [h.new.count_eq, count_copies nodup_newRefs (mem_newRefs.mpr ⟨info, hinfo, htried, rfl⟩)] at hcount
  have hpos := ((h.entries n info hinfo).new htried).1
  omega

/-- No entry is in more "new" buckets than it may be in. -/
theorem newCount_le (h : m.Checked) (n : Int) : (m.newCount n : Int) ≤ ADDRMAN_NEW_BUCKETS_PER_ADDRESS := by
  by_cases hzero : m.newCount n = 0
  · rw [hzero]
    decide
  · obtain ⟨S, hS, hpos⟩ := exists_of_tally_pos (Nat.pos_of_ne_zero hzero)
    have hn : n ∈ S := by
      by_contra hnot
      rw [if_neg hnot] at hpos
      exact absurd hpos (Nat.lt_irrefl 0)
    obtain ⟨info, hinfo, htried⟩ := h.of_slot hS hn
    rw [h.newCount_eq hinfo htried]
    exact ((h.entries n info hinfo).new htried).2

/-- An entry that is not tried is in a bucket. -/
theorem slot (h : m.Checked) (hinfo : m.mapInfo[n]? = some info) (htried : info.fInTried = false) : ∃ S ∈ m.vvNew, n ∈ S := by
  have hpos := ((h.entries n info hinfo).new htried).1
  rw [← h.newCount_eq hinfo htried] at hpos
  obtain ⟨S, hS, hpos⟩ := exists_of_tally_pos (Int.natCast_pos.mp hpos)
  refine ⟨S, hS, ?_⟩
  by_contra hnot
  rw [if_neg hnot] at hpos
  exact absurd hpos (Nat.lt_irrefl 0)

/-- An address has one entry. -/
theorem id_unique (h : m.Checked) (hi : m.mapInfo[n]? = some i) (hj : m.mapInfo[k]? = some j) (haddr : i.netAddr = j.netAddr) :
    n = k := by
  have hn := (h.entries n i hi).addr
  have hk := (h.entries k j hj).addr
  rw [haddr, hk] at hn
  exact hn.symm

theorem nodup_netAddr (h : m.Checked) : (m.news.map (·.2.netAddr) ++ m.trieds.map (·.2.netAddr)).Nodup := by
  have hperm : (m.news ++ m.trieds).Perm m.mapInfo.toList := by
    have hall := List.filter_append_perm (fun e : Int × CAddrInfo => !e.2.fInTried) m.mapInfo.toList
    simp only [Bool.not_not] at hall
    exact hall
  rw [← List.map_append]
  refine (hperm.map _).nodup_iff.mpr ?_
  have hkeys : m.mapInfo.toList.Nodup :=
    TreeMap.distinct_keys_toList.imp fun {a b} h heq => h (compare_eq_iff_eq.mpr (congrArg Prod.fst heq))
  refine hkeys.map_on fun x hx y hy hxy => ?_
  have hid := h.id_unique (mem_toList.mp hx) (mem_toList.mp hy) hxy
  refine Prod.ext hid (Option.some.inj ?_)
  rw [← mem_toList.mp hx, ← mem_toList.mp hy, hid]

/-- The entries with references are the ones that are not tried. -/
theorem refs (h : m.Checked) : ∀ e ∈ m.mapInfo.toList, e.2.nRefCount ≠ 0 ↔ e.2.fInTried = false := by
  intro e he
  have hentry := h.entries e.1 e.2 (mem_toList.mp he)
  cases htried : e.2.fInTried with
  | true => exact iff_of_false (not_not_intro (hentry.tried htried).2) nofun
  | false =>
    have hpos := (hentry.new htried).1
    exact iff_of_true (by omega) rfl

theorem nNew_eq (h : m.Checked) : m.nNew = m.news.length := by
  rw [← h.nNew, newRefs, List.length_map]
  rfl

theorem nTried_eq (h : m.Checked) : m.nTried = m.trieds.length := by
  rw [← h.nTried, triedIds, List.length_map]
  rfl

end Checked

/-! ## Tables that were loaded -/

section Check

variable {A B : List CAddrInfo}

/-- **Loaded tables agree** when each entry that is not tried is in a bucket,
and in no more than it may be in. -/
theorem Loaded.check (h : r.Loaded (A.map (·, false) ++ B.map (·, true))) (hnew : ∀ p : Nat, p < A.length →
      1 ≤ r.newCount p ∧ (r.newCount p : Int) ≤ ADDRMAN_NEW_BUCKETS_PER_ADDRESS)
    (htried : ∀ p : Nat, A.length ≤ p → r.newCount p = 0) (hnNew : r.nNew = A.length) (hnTried : r.nTried = B.length)
    (hA : ∀ i ∈ A, 0 ≤ i.nLastSuccess) (hB : ∀ i ∈ B, 0 < i.nLastSuccess) : r.check = .ok () := by
  have hkind : ∀ {n : Int} {info : CAddrInfo}, r.mapInfo[n]? = some info → ∃ p : Nat, n = p ∧
      (info.fInTried = false ∧ p < A.length ∧ info.saved ∈ A ∨ info.fInTried = true ∧ A.length ≤ p ∧ info.saved ∈ B) := by
    intro n info hinfo
    obtain ⟨p, hp, hdone⟩ := h.position hinfo
    refine ⟨p, hp, ?_⟩
    rw [List.getElem?_append, List.length_map] at hdone
    split at hdone
    next hlt =>
      obtain ⟨i, hi, hpair⟩ := List.mem_map.mp (List.mem_of_getElem? hdone)
      obtain ⟨rfl, hfalse⟩ := Prod.mk.inj hpair
      exact .inl ⟨hfalse.symm, hlt, hi⟩
    next hge =>
      obtain ⟨i, hi, hpair⟩ := List.mem_map.mp (List.mem_of_getElem? hdone)
      obtain ⟨rfl, htrue⟩ := Prod.mk.inj hpair
      exact .inr ⟨htrue.symm, Nat.not_lt.mp hge, hi⟩
  have hfiled : ∀ n, Filed r.mapInfo[n]? (r.newCount n) (r.triedCount n) .none := by
    refine filed_iff.mpr ⟨h.unknown, fun n info hinfo ht => ?_, fun n info hinfo ht => ?_⟩
    · obtain ⟨hrefs, hcount⟩ := h.counts n info hinfo
      obtain ⟨p, rfl, ⟨hf, -⟩ | ⟨-, hge, -⟩⟩ := hkind hinfo
      · exact absurd (ht.symm.trans hf) (by decide)
      · rw [if_pos ht] at hcount
        rw [htried p hge] at hrefs
        exact ⟨hrefs, htried p hge, hcount⟩
    · obtain ⟨hrefs, hcount⟩ := h.counts n info hinfo
      obtain ⟨p, rfl, ⟨-, hlt, -⟩ | ⟨hf, -⟩⟩ := hkind hinfo
      · rw [if_neg (by rw [ht]; decide)] at hcount
        obtain ⟨hone, hfour⟩ := hnew p hlt
        exact ⟨hrefs, hcount, by omega, by omega⟩
      · exact absurd (ht.symm.trans hf) (by decide)
  have htriedIds : r.triedIds.length = B.length := by
    have htotal := h.total
    have hsize : r.triedSize = r.vvTried.flatten.length := by rw [List.length_flatten]; rfl
    have hA : (A.map fun i => (i, false)).filter (·.2) = [] := List.filter_eq_nil_iff.mpr fun e he => by
      obtain ⟨i, -, rfl⟩ := List.mem_map.mp he
      exact Bool.false_ne_true
    have hB : (B.map fun i => (i, true)).filter (·.2) = B.map fun i => (i, true) := List.filter_eq_self.mpr fun e he => by
      obtain ⟨i, -, rfl⟩ := List.mem_map.mp he
      rfl
    rw [hsize, (perm_of_filed hfiled).1.length_eq, List.filter_append, hA, hB, List.nil_append, List.length_map] at htotal
    exact htotal
  refine check_of_filed hfiled h.indexed (by rw [hnTried, htriedIds]) ?_ fun n info hinfo => ?_
  · have hlength := h.indexed.length
    rw [h.random, htriedIds, List.length_append, List.length_map, List.length_map] at hlength
    rw [hnNew]
    omega
  · rw [h.untouched n info hinfo]
    obtain ⟨p, rfl, ⟨hf, -, hmem⟩ | ⟨-, -, hmem⟩⟩ := hkind hinfo
    · have hnonneg : 0 ≤ info.nLastSuccess := hA info.saved hmem
      exact ⟨le_rfl, hnonneg, fun ht => absurd (ht.symm.trans hf) (by decide)⟩
    · have hpos : 0 < info.nLastSuccess := hB info.saved hmem
      exact ⟨le_rfl, by omega, fun _ => by omega⟩

end Check

/-! ## The file read back -/

/-- The numbers are in the ranges of their types. -/
structure InRange (m : CAddrMan) : Prop where
  nKey : m.nKey.length ≤ MAX_SIZE
  nNew : IntRange 4 m.nNew
  nTried : IntRange 4 m.nTried
  entries : ∀ (n : Int) (info : CAddrInfo), m.mapInfo[n]? = some info → info.InRange

/-- The place of an id among the "new" entries, as written. -/
def newIndex (m : CAddrMan) (n : Int) : Int := unkId (writeNew m.nNew m.mapInfo.toList 0).1 n

/-- The "new" buckets as written. -/
def rows (m : CAddrMan) : List (List Int) := m.vvNew.map fun vNew => vNew.toList.map m.newIndex

theorem Loaded.of_nTried (h : r.Loaded done) (nTried : Int) : ({ r with nTried } : CAddrMan).Loaded done :=
  ⟨⟨⟨h.indexed.ids, h.indexed.fresh, h.indexed.addr, h.indexed.places⟩, h.nIdCount, h.random, h.entries, h.untouched⟩,
    h.unknown, h.counts, h.total, h.triedBuckets, h.newBuckets⟩

section Read

variable (hash : List UInt8 → Uint256) {N : Nat} {S : TreeSet Int}

/-- Which "tried" entries find room when the file is read. -/
def keptTried (m : CAddrMan) : List CAddrInfo :=
  fill (CAddrInfo.getTriedBucket hash m.nKey) ADDRMAN_TRIED_BUCKET_SIZE [] (m.trieds.map Prod.snd)

/-- The tables after the first loop. -/
def afterNew (N : Nat) (m : CAddrMan) : CAddrMan :=
  { loadNewList hash N (m.news.map Prod.snd) 0 { init m.nKey with nNew := m.nNew, nTried := m.nTried } with nIdCount := m.nNew }

/-- The tables after the second loop, and `nLost`. -/
def afterTried (N : Nat) (m : CAddrMan) : CAddrMan × Int := loadTriedList hash (m.trieds.map Prod.snd) (m.afterNew hash N, 0)

/-- The tables before the third loop. -/
def loadEntries (N : Nat) (m : CAddrMan) : CAddrMan :=
  { (m.afterTried hash N).1 with nTried := (m.afterTried hash N).1.nTried - (m.afterTried hash N).2 }

/-- The entries, of which the "new" ones come first. -/
def loadedEntries (m : CAddrMan) : List (CAddrInfo × Bool) :=
  (m.news.map (·.2.saved)).map (·, false) ++ ((m.keptTried hash).map (·.saved)).map (·, true)

theorem Checked.afterNew (h : m.Checked) : (m.afterNew hash N).NewLoaded N m.nNew m.nTried m.nKey
    ((m.news.map (·.2.saved)).map (·, false)) ∧ (m.afterNew hash N).Loaded ((m.news.map (·.2.saved)).map (·, false)) := by
  have hfirst := (newLoaded_init m.nKey N m.nNew m.nTried).loadNewList hash (l := m.news.map Prod.snd) <| by
    rw [List.map_map]
    exact (List.nodup_append.mp h.nodup_netAddr).1
  have hentries : ((m.news.map Prod.snd).map fun i : CAddrInfo => (i.saved, false)) = (m.news.map (·.2.saved)).map (·, false) := by
    rw [List.map_map, List.map_map]
    rfl
  rw [List.nil_append, hentries] at hfirst
  have hloaded := hfirst.loaded
  have hlen : (((m.news.map (·.2.saved)).map fun i => (i, false)).length : Int) = m.nNew := by
    rw [List.length_map, List.length_map, h.nNew_eq]
  rw [hlen] at hloaded
  refine ⟨⟨?_, hfirst.nKey, hfirst.nNew, hfirst.nTried, hfirst.triedEmpty, hfirst.new, hfirst.waiting, hfirst.refilled⟩, hloaded⟩
  rw [hlen]
  exact hloaded

theorem Checked.afterTried (h : m.Checked) : TriedLoaded hash (m.afterTried hash N) (m.afterNew hash N)
      ((m.news.map (·.2.saved)).map (·, false)) (m.keptTried hash) ∧
    (CAddrMan.afterTried hash N m).2 + (m.keptTried hash).length = m.trieds.length := by
  obtain ⟨hfirst, hloaded⟩ := h.afterNew hash (N := N)
  have hstart : TriedLoaded hash (m.afterNew hash N, 0) (m.afterNew hash N) ((m.news.map (·.2.saved)).map (·, false)) [] := by
    refine ⟨?_, rfl, rfl, rfl, rfl, fun k l hl => ?_⟩
    · rw [List.map_nil, List.append_nil]
      exact hloaded
    · rw [hfirst.triedEmpty l (List.mem_of_getElem? hl)]
      rfl
  have hsecond := hstart.loadTriedList (l := m.trieds.map Prod.snd) <| by
    rw [List.map_map, List.map_map, List.map_nil, List.nil_append, List.map_map]
    exact h.nodup_netAddr
  rw [hfirst.nKey, List.length_map, List.length_nil] at hsecond
  exact ⟨hsecond.1, hsecond.2.trans (by simp)⟩

/-- **The first two loops** file all entries, but for those lost. -/
theorem Checked.loadEntries (h : m.Checked) :
    (m.loadEntries hash N).Loaded (m.loadedEntries hash) ∧ (CAddrMan.loadEntries hash N m).nNew = m.nNew ∧
      (CAddrMan.loadEntries hash N m).nTried = (m.keptTried hash).length ∧
      (CAddrMan.loadEntries hash N m).vvNew = (m.afterNew hash N).vvNew := by
  obtain ⟨hfirst, -⟩ := h.afterNew hash (N := N)
  obtain ⟨hsecond, hlost⟩ := h.afterTried hash (N := N)
  refine ⟨?_, hsecond.nNew.trans hfirst.nNew, ?_, hsecond.vvNew⟩
  · have hkept : ((m.keptTried hash).map fun i => (i.saved, true)) = ((m.keptTried hash).map (·.saved)).map (·, true) := by
      rw [List.map_map]
      rfl
    have hall := hsecond.loaded
    rw [hkept] at hall
    exact hall.of_nTried _
  · have htried : (m.afterTried hash N).1.nTried = m.nTried := hsecond.nTried.trans hfirst.nTried
    change (m.afterTried hash N).1.nTried - (m.afterTried hash N).2 = _
    rw [htried, h.nTried_eq]
    omega

/-- Entries filed later are in no "new" bucket. -/
theorem Checked.newCount_tried (h : m.Checked) {p : Nat} (hp : m.news.length ≤ p) : (m.afterNew hash N).newCount p = 0 := by
  obtain ⟨-, hloaded⟩ := h.afterNew hash (N := N)
  refine (hloaded.unknown p ?_).1
  cases hinfo : (m.afterNew hash N).mapInfo[(p : Int)]? with
  | none => rfl
  | some info =>
    obtain ⟨q, hq, hdone⟩ := hloaded.position hinfo
    have hlt := (List.getElem?_eq_some_iff.mp hdone).1
    rw [List.length_map, List.length_map] at hlt
    omega

theorem Checked.writeNew (h : m.Checked) : (writeNew m.nNew m.mapInfo.toList 0).2 = m.news.map Prod.snd ∧
    ∀ (p : Nat) (n : Int) (info : CAddrInfo), m.news[p]? = some (n, info) →
      (CAddrMan.writeNew m.nNew m.mapInfo.toList 0).1.lookup n = some (0 + p : Int) := by
  have hkeys : m.mapInfo.toList.Pairwise fun a b => a.1 ≠ b.1 :=
    TreeMap.distinct_keys_toList.imp fun {a b} h heq => h (compare_eq_iff_eq.mpr heq)
  have hcount : m.nNew = 0 + (m.mapInfo.toList.filter fun e => !e.2.fInTried).length := by
    rw [h.nNew_eq, Int.zero_add]
    rfl
  exact writeNew_spec hkeys h.refs hcount

/-- Each id in a bucket is written as its place among the "new" entries. -/
theorem Checked.newIndex (h : m.Checked) (hS : S ∈ m.vvNew) (hn : n ∈ S) :
    ∃ q : Nat, m.newIndex n = q ∧ (m.news.map Prod.fst)[q]? = some n := by
  obtain ⟨info, hinfo, htried⟩ := h.of_slot hS hn
  have hmem : (n, info) ∈ m.news := List.mem_filter.mpr ⟨mem_toList.mpr hinfo, by simp [htried]⟩
  obtain ⟨q, hq⟩ := List.getElem?_of_mem hmem
  refine ⟨q, ?_, ?_⟩
  · rw [CAddrMan.newIndex, unkId, h.writeNew.2 q n info hq]
    exact Int.zero_add _
  · rw [List.getElem?_map, hq]
    rfl

/-- The rows can be written: they name "new" entries, each once. -/
theorem Checked.rows (h : m.Checked) (hm : m.InRange) : ∀ row ∈ m.rows, Writable row ∧ ∀ i ∈ row, ∃ p : Nat, i = p ∧ p < m.news.length := by
  intro row hrow
  obtain ⟨S, hS, rfl⟩ := List.mem_map.mp hrow
  have hindex : ∀ i ∈ S.toList.map m.newIndex, ∃ p : Nat, i = p ∧ p < m.news.length := by
    intro i hi
    obtain ⟨n, hn, rfl⟩ := List.mem_map.mp hi
    obtain ⟨q, hq, hid⟩ := h.newIndex hS (TreeSet.mem_toList.mp hn)
    have hlt := (List.getElem?_eq_some_iff.mp hid).1
    rw [List.length_map] at hlt
    exact ⟨q, hq, hlt⟩
  have hle : S.toList.length ≤ m.news.length := by
    have hnodup : S.toList.Nodup := TreeSet.distinct_toList.imp fun {a b} h heq => h (compare_eq_iff_eq.mpr heq)
    have hsub : S.toList ⊆ m.news.map Prod.fst := fun n hn => by
      obtain ⟨q, -, hid⟩ := h.newIndex hS (TreeSet.mem_toList.mp hn)
      exact List.mem_of_getElem? hid
    have hperm := (hnodup.subperm hsub).length_le
    rwa [List.length_map] at hperm
  have hmax := hm.nNew.2
  rw [h.nNew_eq] at hmax
  refine ⟨⟨⟨?_, ?_⟩, fun i hi => ?_⟩, hindex⟩
  · exact Int.le_trans (by decide) (Int.natCast_nonneg _)
  · rw [List.length_map]
    omega
  · obtain ⟨p, rfl, hp⟩ := hindex i hi
    exact ⟨Int.le_trans (by decide) (Int.natCast_nonneg _), by omega⟩

/-- The file, part by part. -/
theorem Checked.serialize (h : m.Checked) : m.serialize N =
    leBytes 1 0 ++ (serializeBytes m.nKey ++ (writeInt 4 m.nNew ++ (writeInt 4 m.nTried ++ (writeInt 4 N ++
      (writeAll CAddrInfo.serialize (m.news.map Prod.snd) ++ (writeAll CAddrInfo.serialize (m.trieds.map Prod.snd) ++
        writeAll serializeBucket m.rows)))))) := by
  have hcount : m.nTried = 0 + (m.mapInfo.toList.filter fun e => e.2.fInTried).length := by
    rw [h.nTried_eq, Int.zero_add]
    rfl
  change leBytes 1 0 ++ (serializeBytes m.nKey ++ (writeInt 4 m.nNew ++ (writeInt 4 m.nTried ++ (writeInt 4 N ++
    (writeAll CAddrInfo.serialize (CAddrMan.writeNew m.nNew m.mapInfo.toList 0).2 ++
      (writeAll CAddrInfo.serialize (writeTried m.nTried m.mapInfo.toList 0) ++ writeAll serializeBucket m.rows)))))) = _
  rw [h.writeNew.1, writeTried_spec hcount]
  rfl

theorem mem_news (h : info ∈ m.news.map Prod.snd) : ∃ n : Int, m.mapInfo[n]? = some info ∧ info.fInTried = false := by
  obtain ⟨e, he, rfl⟩ := List.mem_map.mp h
  obtain ⟨hmem, htried⟩ := List.mem_filter.mp he
  exact ⟨e.1, mem_toList.mp hmem, by simpa using htried⟩

theorem mem_trieds (h : info ∈ m.trieds.map Prod.snd) : ∃ n : Int, m.mapInfo[n]? = some info ∧ info.fInTried = true := by
  obtain ⟨e, he, rfl⟩ := List.mem_map.mp h
  obtain ⟨hmem, htried⟩ := List.mem_filter.mp he
  exact ⟨e.1, mem_toList.mp hmem, htried⟩

/-- **`Unserialize` of the file**, up to the third loop and with it. -/
theorem Checked.unserialize (h : m.Checked) (hm : m.InRange) (hlen : m.vvNew.length = N) (hN : IntRange 4 N) :
    if N ≤ ADDRMAN_NEW_BUCKET_COUNT then
      Recovers stream (m.serialize N) (unserialize hash) (loadBucketList N m.rows 0 (m.loadEntries hash N))
    else Refuses stream (m.serialize N) (unserialize hash) outOfRange := by
  have hversion : Recovers stream (leBytes 1 0) (readUInt 1) 0 := (reads_readUInt (by decide)).recovers (by decide)
  have hkey : Recovers stream (serializeBytes m.nKey) unserializeBytes m.nKey := reads_unserializeBytes.recovers hm.nKey
  have hnNew : Recovers stream (writeInt 4 m.nNew) (readInt 4) m.nNew := (reads_readInt (by decide) (by decide)).recovers hm.nNew
  have hnTried : Recovers stream (writeInt 4 m.nTried) (readInt 4) m.nTried :=
    (reads_readInt (by decide) (by decide)).recovers hm.nTried
  have hcount : Recovers stream (writeInt 4 N) (readInt 4) (N : Int) := (reads_readInt (by decide) (by decide)).recovers hN
  have hnews := recovers_loadNews hash N 0 { init m.nKey with nNew := m.nNew, nTried := m.nTried }
    fun i hi => let ⟨n, hinfo, _⟩ := mem_news hi; hm.entries n i hinfo
  have htrieds := recovers_loadTrieds hash (m.afterNew hash N, 0)
    fun i hi => let ⟨n, hinfo, _⟩ := mem_trieds hi; hm.entries n i hinfo
  have hrows : ∀ row ∈ m.rows, Writable row := fun row hrow => (h.rows hm row hrow).1
  have hbuckets := (h.loadEntries hash (N := N)).1.newBuckets
  have hrowCount : m.rows.length = N := by rw [CAddrMan.rows, List.length_map, hlen]
  have hnNew' : m.nNew.toNat = (m.news.map Prod.snd).length := by rw [h.nNew_eq, Int.toNat_natCast, List.length_map]
  have hnTried' : m.nTried.toNat = (m.trieds.map Prod.snd).length := by rw [h.nTried_eq, Int.toNat_natCast, List.length_map]
  rw [h.serialize]
  split
  next hle =>
    refine hversion.bind (hkey.bind (hnNew.bind (hnTried.bind (hcount.bind ?_))))
    rw [hnNew', hnTried']
    refine hnews.bind (htrieds.bind ?_)
    have hall := recovers_loadBuckets N (b := 0) (m := m.loadEntries hash N) hrows (by omega)
    rw [hrowCount] at hall
    exact hall
  next hgt =>
    refine hversion.refuses (hkey.refuses (hnNew.refuses (hnTried.refuses (hcount.refuses ?_))))
    rw [hnNew', hnTried']
    refine hnews.refuses (htrieds.refuses ?_)
    have hall := refuses_loadBuckets N (b := 0) (m := m.loadEntries hash N) hrows (Nat.zero_le _) (by omega)
    rw [hrowCount] at hall
    exact hall

end Read

/-! ## What is restored -/

/-- The entries that are not tried. -/
def newSet (m : CAddrMan) : Set CAddrInfo :=
  {i | ∃ (n : Int) (info : CAddrInfo), m.mapInfo[n]? = some info ∧ info.fInTried = false ∧ info.saved = i}

/-- The entries in a "new" bucket. -/
def newIn (m : CAddrMan) (b : Nat) : Set CAddrInfo :=
  {i | ∃ (n : Int) (info : CAddrInfo) (S : TreeSet Int), m.mapInfo[n]? = some info ∧ m.vvNew[b]? = some S ∧ n ∈ S ∧ info.saved = i}

def triedSet (m : CAddrMan) : Set CAddrInfo :=
  {i | ∃ (n : Int) (info : CAddrInfo), m.mapInfo[n]? = some info ∧ info.fInTried = true ∧ info.saved = i}

/-- The same entries are known, in the same "new" buckets. -/
structure Restored (m r : CAddrMan) : Prop where
  newSet : r.newSet = m.newSet
  newIn : ∀ b, r.newIn b = m.newIn b
  triedSet : r.triedSet = m.triedSet

/-- **Reading the stream gives tables that agree**, and what was written when
the number of buckets is the same. -/
def Restores (hash : List UInt8 → Uint256) (N : Nat) (m : CAddrMan) (s : CDataStream) : Prop :=
  ∃ r s', unserialize hash s = .ok r s' ∧ r.check = .ok () ∧ (N = ADDRMAN_NEW_BUCKET_COUNT → m.Restored r)

section Restored

variable (hash : List UInt8 → Uint256) {N : Nat} {S : TreeSet Int} {q : Nat} {i : CAddrInfo}

theorem mem_newSet : i ∈ m.newSet ↔ i ∈ m.news.map (·.2.saved) := by
  constructor
  · rintro ⟨n, info, hinfo, htried, rfl⟩
    exact List.mem_map.mpr ⟨(n, info), List.mem_filter.mpr ⟨mem_toList.mpr hinfo, by simp [htried]⟩, rfl⟩
  · intro hi
    obtain ⟨e, he, rfl⟩ := List.mem_map.mp hi
    obtain ⟨hmem, htried⟩ := List.mem_filter.mp he
    exact ⟨e.1, e.2, mem_toList.mp hmem, by simpa using htried, rfl⟩

theorem mem_triedSet : i ∈ m.triedSet ↔ i ∈ (m.trieds.map Prod.snd).map (·.saved) := by
  constructor
  · rintro ⟨n, info, hinfo, htried, rfl⟩
    exact List.mem_map_of_mem (List.mem_map.mpr ⟨(n, info), List.mem_filter.mpr ⟨mem_toList.mpr hinfo, htried⟩, rfl⟩)
  · intro hi
    obtain ⟨info, hinfo, rfl⟩ := List.mem_map.mp hi
    obtain ⟨n, hn, htried⟩ := mem_trieds hinfo
    exact ⟨n, info, hn, htried, rfl⟩

/-- What was loaded, by kind. -/
theorem Listed.mem_done (h : r.Listed done) (fInTried : Bool) : (i, fInTried) ∈ done ↔
    ∃ (n : Int) (info : CAddrInfo), r.mapInfo[n]? = some info ∧ info.fInTried = fInTried ∧ info.saved = i := by
  constructor
  · intro hi
    obtain ⟨p, hp⟩ := List.getElem?_of_mem hi
    obtain ⟨info, hinfo, hsaved, htried⟩ := h.entry hp
    exact ⟨p, info, hinfo, htried, hsaved⟩
  · rintro ⟨n, info, hinfo, rfl, rfl⟩
    obtain ⟨p, -, hp⟩ := h.position hinfo
    exact List.mem_of_getElem? hp

theorem mem_loadedEntries_new : (i, false) ∈ m.loadedEntries hash ↔ i ∈ m.newSet := by
  rw [mem_newSet, loadedEntries, List.mem_append]
  simp

theorem mem_loadedEntries_tried : (i, true) ∈ m.loadedEntries hash ↔ i ∈ (m.keptTried hash).map (·.saved) := by
  rw [loadedEntries, List.mem_append]
  simp

/-- **No tried entry is lost** when, and only when, none of their buckets gets
too many. -/
theorem Checked.kept_iff (h : m.Checked) : {i | i ∈ (m.keptTried hash).map (·.saved)} = m.triedSet ↔
    ∀ k, (m.trieds.map Prod.snd).countP (CAddrInfo.getTriedBucket hash m.nKey · = k) ≤ ADDRMAN_TRIED_BUCKET_SIZE := by
  rw [← fill_eq_iff]
  change _ ↔ m.keptTried hash = _
  have hsub : (m.keptTried hash).Sublist (m.trieds.map Prod.snd) := fill_sublist
  have hnodup : ((m.trieds.map Prod.snd).map (·.saved)).Nodup := by
    have haddr := (List.nodup_append.mp h.nodup_netAddr).2.1
    refine List.Nodup.of_map CAddrInfo.netAddr ?_
    rw [List.map_map, List.map_map]
    exact haddr
  constructor
  · intro heq
    refine hsub.eq_of_length_le ?_
    have hperm := (List.perm_ext_iff_of_nodup hnodup (hnodup.sublist (hsub.map _))).mpr fun i => by
      rw [← mem_triedSet, ← heq]
      rfl
    have hlen := hperm.length_eq
    simp only [List.length_map] at hlen ⊢
    exact hlen.le
  · intro heq
    rw [heq]
    exact Set.ext fun i => mem_triedSet.symm

theorem Checked.nLastSuccess (h : m.Checked) : (∀ i ∈ m.news.map (·.2.saved), 0 ≤ i.nLastSuccess) ∧
    ∀ i ∈ (m.keptTried hash).map (·.saved), 0 < i.nLastSuccess := by
  constructor
  · intro i hi
    obtain ⟨n, info, hinfo, -, rfl⟩ := mem_newSet.mpr hi
    exact (h.entries n info hinfo).nLastSuccess
  · intro i hi
    obtain ⟨info, hinfo, rfl⟩ := List.mem_map.mp hi
    have hsub : (m.keptTried hash).Sublist (m.trieds.map Prod.snd) := fill_sublist
    obtain ⟨n, hn, htried⟩ := mem_trieds (hsub.subset hinfo)
    have hentry := h.entries n info hn
    have hne := (hentry.tried htried).1
    have hnonneg := hentry.nLastSuccess
    change 0 < info.nLastSuccess
    omega

/-- The entry an id of the file stands for. -/
theorem of_id (hq : (m.news.map Prod.fst)[q]? = some n) : ∃ info, m.mapInfo[n]? = some info ∧ info.fInTried = false ∧
    (m.loadedEntries hash)[q]? = some (info.saved, false) := by
  rw [List.getElem?_map] at hq
  obtain ⟨e, he, rfl⟩ := Option.map_eq_some_iff.mp hq
  obtain ⟨hmem, htried⟩ := List.mem_filter.mp (List.mem_of_getElem? he)
  refine ⟨e.2, mem_toList.mp hmem, by simpa using htried, ?_⟩
  have hlt := (List.getElem?_eq_some_iff.mp he).1
  rw [loadedEntries, List.getElem?_append_left (by rwa [List.length_map, List.length_map]), List.getElem?_map, List.getElem?_map, he]
  rfl

/-- The file is read into as many buckets as it has. -/
theorem Checked.refilled (h : m.Checked) (hlen : m.vvNew.length = ADDRMAN_NEW_BUCKET_COUNT) :
    ∃ r, loadBucketList ADDRMAN_NEW_BUCKET_COUNT m.rows 0 (m.loadEntries hash ADDRMAN_NEW_BUCKET_COUNT) = r ∧
      r.Loaded (m.loadedEntries hash) ∧ r.check = .ok () ∧ r.newSet = m.newSet ∧ (∀ b, r.newIn b = m.newIn b) := by
  obtain ⟨hloaded, hnNew, hnTried, hvvNew⟩ := h.loadEntries hash (N := ADDRMAN_NEW_BUCKET_COUNT)
  have hempty : ∀ S ∈ (m.loadEntries hash ADDRMAN_NEW_BUCKET_COUNT).vvNew, S = ∅ := by
    rw [hvvNew]
    exact (h.afterNew hash (N := ADDRMAN_NEW_BUCKET_COUNT)).1.waiting rfl
  have hids : (m.news.map Prod.fst).length ≤ (m.loadedEntries hash).length := by
    simp only [loadedEntries, List.length_append, List.length_map]
    omega
  have hbelow : (m.loadEntries hash ADDRMAN_NEW_BUCKET_COUNT).Below m (m.news.map Prod.fst) := by
    intro c S p hS hp
    rw [hempty S (List.mem_of_getElem? hS)] at hp
    exact absurd hp TreeSet.not_mem_emptyc
  obtain ⟨r, hrun, hl, hb, hnew, htried, hall⟩ := hloaded.refill hbelow (hloaded.newBuckets.trans hlen.symm) h.newCount_le hids
    (fun T hT n hn => h.newIndex hT hn) (List.nil_append _).symm (fun c T hc => absurd hc (Nat.not_lt_zero _))
    fun c S _ hS => hempty S (List.mem_of_getElem? hS)
  have hunique : ∀ {p q : Nat} {n : Int}, (m.news.map Prod.fst)[p]? = some n → (m.news.map Prod.fst)[q]? = some n → p = q :=
    fun hp hq => (List.getElem?_inj (List.getElem?_eq_some_iff.mp hp).1 (nodup_ids fun e => !e.2.fInTried)).mp (hp.trans hq.symm)
  -- an id is in the bucket that its entry was in
  have hcopy : ∀ {c q : Nat} {n : Int} {T : TreeSet Int}, (m.news.map Prod.fst)[q]? = some n → m.vvNew[c]? = some T → n ∈ T →
      ∃ S, r.vvNew[c]? = some S ∧ (q : Int) ∈ S := by
    intro c q n T hq hT hn
    obtain ⟨S, hS, hmem⟩ := hall c T hT
    obtain ⟨p, hp, hid⟩ := h.newIndex (List.mem_of_getElem? hT) hn
    refine ⟨S, hS, (hmem q).mpr (List.mem_map.mpr ⟨n, TreeSet.mem_toList.mpr hn, ?_⟩)⟩
    rw [hp, hunique hid hq]
  refine ⟨r, hrun, hl, ?_, Set.ext fun i => ?_, fun c => Set.ext fun i => ?_⟩
  · have hlast := h.nLastSuccess hash
    refine hl.check (fun p hp => ?_) (fun p hp => ?_) ?_ ?_ hlast.1 hlast.2
    · rw [List.length_map] at hp
      have hp' : p < (m.news.map Prod.fst).length := by rwa [List.length_map]
      have hq := List.getElem?_eq_getElem hp'
      obtain ⟨info, hinfo, huntried, -⟩ := of_id hash hq
      obtain ⟨T, hT, hn⟩ := h.slot hinfo huntried
      obtain ⟨c, hc⟩ := List.getElem?_of_mem hT
      obtain ⟨S, hS, hmem⟩ := hcopy hq hc hn
      have hle := hb.newCount_le (hl.newBuckets.trans hlen.symm) hq
      have hfew := h.newCount_le (m.news.map Prod.fst)[p]
      exact ⟨newCount_pos hS hmem, by omega⟩
    · rw [List.length_map] at hp
      by_contra hne
      obtain ⟨S, hS, hpos⟩ := exists_of_tally_pos (Nat.pos_of_ne_zero hne)
      have hmem : (p : Int) ∈ S := by
        by_contra hnot
        rw [if_neg hnot] at hpos
        exact absurd hpos (Nat.lt_irrefl 0)
      obtain ⟨c, hc⟩ := List.getElem?_of_mem hS
      obtain ⟨q, n, T, hpq, hid, -⟩ := hb c S p hc hmem
      have hlt := (List.getElem?_eq_some_iff.mp hid).1
      rw [List.length_map] at hlt
      omega
    · rw [hnew, hnNew, h.nNew_eq, List.length_map]
    · rw [htried, hnTried, List.length_map]
  · exact (hl.mem_done false).symm.trans (mem_loadedEntries_new hash)
  · constructor
    · rintro ⟨p, info, S, hinfo, hS, hp, rfl⟩
      obtain ⟨q, n, T, rfl, hid, hT, hn⟩ := hb c S p hS hp
      obtain ⟨info', hinfo', -, hdone⟩ := of_id hash hid
      obtain ⟨info'', hinfo'', hsaved, -⟩ := hl.entry hdone
      obtain rfl := Option.some.inj (hinfo.symm.trans hinfo'')
      exact ⟨n, info', T, hinfo', hT, hn, hsaved.symm⟩
    · rintro ⟨n, info, T, hinfo, hT, hn, rfl⟩
      obtain ⟨q, -, hid⟩ := h.newIndex (List.mem_of_getElem? hT) hn
      obtain ⟨S, hS, hmem⟩ := hcopy hid hT hn
      obtain ⟨info', hinfo', -, hdone⟩ := of_id hash hid
      obtain rfl := Option.some.inj (hinfo.symm.trans hinfo')
      obtain ⟨info'', hinfo'', hsaved, -⟩ := hl.entry hdone
      exact ⟨q, info'', S, hinfo'', hS, hmem, hsaved⟩

/-- **A file with fewer buckets** is read, and its entries fill the buckets anew. -/
theorem Checked.rebuilt (h : m.Checked) (hm : m.InRange) (hne : N ≠ ADDRMAN_NEW_BUCKET_COUNT) :
    (loadBucketList N m.rows 0 (m.loadEntries hash N)).check = .ok () := by
  obtain ⟨hloaded, hnNew, hnTried, hvvNew⟩ := h.loadEntries hash (N := N)
  have hrows : ∀ row ∈ m.rows, ∀ i ∈ row, ∃ p : Nat, i = p ∧ p < (m.loadedEntries hash).length := by
    intro row hrow i hi
    obtain ⟨p, hp, hlt⟩ := (h.rows hm row hrow).2 i hi
    refine ⟨p, hp, ?_⟩
    simp only [loadedEntries, List.length_append, List.length_map]
    omega
  have hne' : (N : Int) ≠ ADDRMAN_NEW_BUCKET_COUNT := fun hc => hne (Int.ofNat.inj hc)
  obtain ⟨hl, hnew, htried, hsame⟩ := hloaded.loadBucketList (b := 0) hne' hrows
  have hcount : ∀ p : Nat, (loadBucketList N m.rows 0 (m.loadEntries hash N)).newCount p = (m.afterNew hash N).newCount p := by
    intro p
    unfold newCount
    rw [hsame, hvvNew]
  have hlast := h.nLastSuccess hash
  refine hl.check (fun p hp => ?_) (fun p hp => ?_) ?_ ?_ hlast.1 hlast.2
  · have hone := (h.afterNew hash (N := N)).1.refilled hne' p (by rwa [List.length_map])
    rw [hcount, hone]
    exact ⟨le_rfl, by decide⟩
  · rw [List.length_map] at hp
    rw [hcount, h.newCount_tried hash hp]
  · rw [hnew, hnNew, h.nNew_eq, List.length_map]
  · rw [htried, hnTried, List.length_map]

/-- Each case of the number of buckets in the file. -/
theorem Checked.restores_iff (h : m.Checked) (hm : m.InRange) (hlen : m.vvNew.length = N) (hN : IntRange 4 N) {s : CDataStream}
    {more : List UInt8} (hs : stream.Ok s) (hrest : stream.rest s = m.serialize N ++ more) :
    Restores hash N m s ↔ if N = ADDRMAN_NEW_BUCKET_COUNT then
      ∀ k, (m.trieds.map Prod.snd).countP (CAddrInfo.getTriedBucket hash m.nKey · = k) ≤ ADDRMAN_TRIED_BUCKET_SIZE
    else N < ADDRMAN_NEW_BUCKET_COUNT := by
  have hread := h.unserialize hash hm hlen hN
  split at hread
  next hle =>
    obtain ⟨s', hrun, -⟩ := hread.back hs hrest
    have hiff : Restores hash N m s ↔ (loadBucketList N m.rows 0 (m.loadEntries hash N)).check = .ok () ∧
        (N = ADDRMAN_NEW_BUCKET_COUNT → m.Restored (loadBucketList N m.rows 0 (m.loadEntries hash N))) := by
      constructor
      · rintro ⟨r, t, hr, hcheck, hrestored⟩
        obtain ⟨rfl, rfl⟩ := EStateM.Result.ok.inj (hrun.symm.trans hr)
        exact ⟨hcheck, hrestored⟩
      · exact fun hc => ⟨_, s', hrun, hc⟩
    rw [hiff]
    split
    next heq =>
      subst heq
      obtain ⟨r, hrefill, hl, hcheck, hnew, hin⟩ := h.refilled hash hlen
      have htried : r.triedSet = {i | i ∈ (m.keptTried hash).map (·.saved)} :=
        Set.ext fun i => (hl.mem_done true).symm.trans (mem_loadedEntries_tried hash)
      rw [hrefill, ← h.kept_iff hash, ← htried]
      exact ⟨fun hr => (hr.2 rfl).triedSet, fun hr => ⟨hcheck, fun _ => ⟨hnew, hin, hr⟩⟩⟩
    next hne => exact iff_of_true ⟨h.rebuilt hash hm hne, fun hc => absurd hc hne⟩ (Nat.lt_of_le_of_ne hle hne)
  next hgt =>
    obtain ⟨s', hrun⟩ := hread.back hs hrest
    rw [if_neg (by omega)]
    refine iff_of_false ?_ (by omega)
    rintro ⟨r, t, hr, -⟩
    exact nomatch hrun.symm.trans hr

end Restored

/-- Tables without entries, of a program with `N` "new" buckets. -/
def emptied (N : Nat) : CAddrMan := { init [] with vvNew := List.replicate N ∅ }

theorem emptied_check (N : Nat) : (emptied N).Checked := by
  have hslots : (emptied N).newSlots = [] := List.flatten_eq_nil_iff.mpr fun l hl => by
    obtain ⟨S, hS, rfl⟩ := List.mem_map.mp hl
    rw [List.eq_of_mem_replicate hS]
    rfl
  have htried : (emptied N).vvTried.flatten = [] := List.flatten_eq_nil_iff.mpr fun l => List.eq_of_mem_replicate
  refine ⟨rfl, fun n info hinfo => ?_, rfl, rfl, ?_, ?_⟩
  · exact nomatch (TreeMap.getElem?_emptyc (a := n)).symm.trans hinfo
  · rw [htried]
    rfl
  · rw [hslots]
    rfl

theorem emptied_inRange (N : Nat) : (emptied N).InRange :=
  ⟨Nat.zero_le _, (by decide : IntRange 4 0), (by decide : IntRange 4 0), fun n _ hinfo => nomatch (TreeMap.getElem?_emptyc (a := n)).symm.trans hinfo⟩

theorem length_emptied (N : Nat) : (emptied N).vvNew.length = N := List.length_replicate

/-- The file of tables without entries, as a stream. -/
def emptiedFile (N : Nat) : CDataStream := ⟨(emptied N).serialize N, 0⟩

theorem emptiedFile_ok {N : Nat} (hN : N ≤ 1000) : stream.Ok (emptiedFile N) := by
  have hrows : (emptied N).rows = List.replicate N [] := List.map_replicate
  have hlen : ((emptied N).serialize N).length = 14 + 4 * N := by
    rw [(emptied_check N).serialize, hrows]
    have hall : (writeAll serializeBucket (List.replicate N [])).length = 4 * N := by
      rw [length_writeAll, List.map_replicate, List.sum_replicate_nat, Nat.mul_comm]
      rfl
    simp only [List.length_append, hall, writeInt, CScript.length_leBytes]
    change 1 + (1 + (4 + (4 + (4 + (0 + (0 + 4 * N)))))) = _
    omega
  refine ⟨Nat.zero_le _, ?_⟩
  change ((emptied N).serialize N).length < _
  rw [hlen, CDataStream.maxLength, CDataStream.blockSize]
  omega

theorem rest_emptiedFile (N : Nat) : stream.rest (emptiedFile N) = (emptied N).serialize N ++ [] := (List.append_nil _).symm

end CAddrMan

end Pinkcoin
