/-
What `Unserialize` makes of what `Serialize` wrote: the entries come back
under ids in the order they were written in. The tables agree again, whether
the "new" buckets are read or filled anew; only a "tried" bucket with more
entries than it holds loses some, and only a file with more "new" buckets than
there are is read past the last one.
-/
import Pinkcoin.Net.AddrManDisk

namespace Pinkcoin

open Std (TreeMap TreeSet)
open CScript (leBytes)
open Codec StateError Tally
open CDataStream (stream)

namespace CAddrMan

variable {m m' : CAddrMan} {n k : Int} {b : Nat} {info : CAddrInfo} {done : List (CAddrInfo × Bool)}

/-! ## Tables being loaded -/

/-- **The entries while they are loaded.** Ids are handed out in the order of
the entries, which are `done`, each with whether it is tried. -/
structure Listed (m : CAddrMan) (done : List (CAddrInfo × Bool)) : Prop where
  indexed : m.Indexed
  nIdCount : m.nIdCount = done.length
  random : m.vRandom.length = done.length
  entries : ∀ p : Nat, (m.mapInfo[(p : Int)]?).map (fun i => (i.saved, i.fInTried)) = done[p]?
  untouched : ∀ (n : Int) (info : CAddrInfo), m.mapInfo[n]? = some info → info.nLastTry = 0

/-- **The tables while they are loaded.** The references are the ones in the
buckets, which may be none yet. -/
structure Loaded (m : CAddrMan) (done : List (CAddrInfo × Bool)) : Prop extends Listed m done where
  unknown : ∀ n : Int, m.mapInfo[n]? = none → m.newCount n = 0 ∧ m.triedCount n = 0
  counts : ∀ (n : Int) (info : CAddrInfo), m.mapInfo[n]? = some info →
    info.nRefCount = (m.newCount n : Int) ∧ m.triedCount n = if info.fInTried then 1 else 0
  total : m.triedSize = (done.filter (·.2)).length
  triedBuckets : m.vvTried.length = ADDRMAN_TRIED_BUCKET_COUNT
  newBuckets : m.vvNew.length = ADDRMAN_NEW_BUCKET_COUNT

namespace Listed

/-- The ids are the positions in `done`. -/
theorem position (h : m.Listed done) (hinfo : m.mapInfo[n]? = some info) :
    ∃ p : Nat, n = p ∧ done[p]? = some (info.saved, info.fInTried) := by
  have hrange := h.indexed.fresh (n := n) (by rw [hinfo]; rfl)
  refine ⟨n.toNat, (Int.toNat_of_nonneg hrange.1).symm, ?_⟩
  rw [← h.entries, Int.toNat_of_nonneg hrange.1, hinfo]
  rfl

theorem entry (h : m.Listed done) {p : Nat} {e : CAddrInfo × Bool} (he : done[p]? = some e) :
    ∃ info, m.mapInfo[(p : Int)]? = some info ∧ info.saved = e.1 ∧ info.fInTried = e.2 := by
  obtain ⟨info, hinfo, heq⟩ := Option.map_eq_some_iff.mp ((h.entries p).trans he)
  exact ⟨info, hinfo, congrArg Prod.fst heq, congrArg Prod.snd heq⟩

/-- An address that was not loaded is not known. -/
theorem lookup_eq_none (h : m.Listed done) {a : CNetAddr} (ha : ∀ e ∈ done, e.1.netAddr ≠ a) : m.mapAddr.lookup a = none := by
  cases hlookup : m.mapAddr.lookup a with
  | none => rfl
  | some n =>
    obtain ⟨info, hinfo, heq⟩ := Option.map_eq_some_iff.mp ((h.indexed.addr a n).mp hlookup)
    obtain ⟨p, -, hp⟩ := h.position hinfo
    exact absurd heq (ha _ (List.mem_of_getElem? hp))

/-- The entries change in the fields that are not saved, or not at all. -/
theorem congr (h : m.Listed done) {f : Int → CAddrInfo → CAddrInfo}
    (hinfo : ∀ n : Int, m'.mapInfo[n]? = (m.mapInfo[n]?).map (f n)) (hf : ∀ n i, (f n i).saved = i.saved)
    (htried : ∀ n i, (f n i).fInTried = i.fInTried) (hpos : ∀ n i, (f n i).nRandomPos = i.nRandomPos)
    (htry : ∀ n i, (f n i).nLastTry = i.nLastTry) (haddr : m'.mapAddr = m.mapAddr) (hids : m'.nIdCount = m.nIdCount)
    (hrandom : m'.vRandom = m.vRandom) : m'.Listed done where
  indexed := by
    refine ⟨hids ▸ h.indexed.ids, fun {n} hn => ?_, fun a n => ?_, ?_⟩
    · rw [hids]
      exact h.indexed.fresh (by rwa [hinfo, Option.isSome_map] at hn)
    · rw [haddr, addrOf, hinfo, Option.map_map]
      have hsame : (fun i : CAddrInfo => i.netAddr) ∘ f n = fun i => i.netAddr :=
        funext fun i => show (f n i).saved.netAddr = i.saved.netAddr by rw [hf]
      rw [hsame]
      exact h.indexed.addr a n
    · rw [hrandom]
      refine h.indexed.places.congr fun n => ?_
      rw [randomPos, hinfo, Option.map_map]
      exact congrFun (congrArg Option.map (funext (hpos n))) _
  nIdCount := hids.trans h.nIdCount
  random := by rw [hrandom, h.random]
  entries p := by
    rw [hinfo, Option.map_map, ← h.entries]
    exact congrFun (congrArg Option.map (funext fun i => Prod.ext (hf p i) (htried p i))) _
  untouched n info hn := by
    rw [hinfo] at hn
    obtain ⟨i, hi, rfl⟩ := Option.map_eq_some_iff.mp hn
    rw [htry, h.untouched n i hi]

/-- The next entry. -/
theorem append (h : m.Listed done) (hpos : info.nRandomPos = m.vRandom.length) (htry : info.nLastTry = 0)
    (haddr : ∀ e ∈ done, e.1.netAddr ≠ info.netAddr) : (m.append info).Listed (done ++ [(info.saved, info.fInTried)]) := by
  refine ⟨Indexed.append h.indexed hpos (h.lookup_eq_none haddr), ?_, ?_, fun p => ?_, fun n i hn => ?_⟩
  · change m.nIdCount + 1 = _
    rw [h.nIdCount, List.length_append, List.length_singleton]
    rfl
  · change (m.vRandom ++ [m.nIdCount]).length = _
    rw [List.length_append, List.length_append, h.random]
    rfl
  · rw [mapInfo_append, h.nIdCount]
    split
    next hp =>
      obtain rfl := Int.ofNat.inj hp
      rw [List.getElem?_concat_length]
      rfl
    next hp =>
      have hne : done.length ≠ p := fun heq => hp (congrArg Int.ofNat heq)
      rw [h.entries, List.getElem?_append]
      split
      · rfl
      · rw [List.getElem?_eq_none (by omega), List.getElem?_eq_none (by rw [List.length_singleton]; omega)]
  · rw [mapInfo_append] at hn
    split at hn
    · obtain rfl := Option.some.inj hn
      exact htry
    · exact h.untouched n i hn

end Listed

namespace Loaded

theorem of_init (nKey : List UInt8) (nNew nTried : Int) : ({ init nKey with nNew, nTried } : CAddrMan).Loaded [] := by
  have hinit := settled_init nKey
  have hnone : ∀ n : Int, (init nKey).mapInfo[n]? = none := fun n => TreeMap.getElem?_emptyc
  refine ⟨⟨⟨hinit.indexed.ids, hinit.indexed.fresh, hinit.indexed.addr, hinit.indexed.places⟩, rfl, rfl, fun p => ?_,
    fun n info hn => ?_⟩, fun n _ => ?_, fun n info hn => ?_, ?_, hinit.sizes.triedBuckets, hinit.sizes.newBuckets⟩
  · change ((init nKey).mapInfo[(p : Int)]?).map _ = none
    rw [hnone]
    rfl
  · exact nomatch (hnone n).symm.trans hn
  · have hfiled := hinit.filed n
    rw [hnone] at hfiled
    have hzero := hfiled.1
    simp only [Slack.none] at hzero
    change (init nKey).newCount n = 0 ∧ (init nKey).triedCount n = 0
    exact ⟨by omega, hfiled.2.1⟩
  · exact nomatch (hnone n).symm.trans hn
  · have htotal := hinit.triedTotal
    change (init nKey).triedSize = 0
    have hzero : (init nKey).nTried = 0 := rfl
    omega

/-- The next entry, in no bucket. -/
theorem append (h : m.Loaded done) (hpos : info.nRandomPos = m.vRandom.length) (hrefs : info.nRefCount = 0)
    (htry : info.nLastTry = 0) (htried : info.fInTried = false) (haddr : ∀ e ∈ done, e.1.netAddr ≠ info.netAddr) :
    (m.append info).Loaded (done ++ [(info.saved, false)]) := by
  have hlisted := h.toListed.append hpos htry haddr
  rw [htried] at hlisted
  obtain ⟨hnews, htrieds⟩ := h.unknown _ h.indexed.next
  refine ⟨hlisted, fun n hn => ?_, fun n i hn => ?_, ?_, h.triedBuckets, h.newBuckets⟩
  · rw [mapInfo_append] at hn
    split at hn
    · exact nomatch hn
    · exact h.unknown n hn
  · rw [mapInfo_append] at hn
    split at hn
    next hk =>
      obtain rfl := Option.some.inj hn
      subst hk
      change info.nRefCount = (m.newCount _ : Int) ∧ m.triedCount _ = _
      rw [hrefs, hnews, htrieds, htried]
      exact ⟨rfl, rfl⟩
    next => exact h.counts n i hn
  · change m.triedSize = _
    rw [h.total, List.filter_append, List.length_append]
    rfl

/-- The next entry, in a "tried" bucket. -/
theorem appendTried {l : List Int} (h : m.Loaded done) (hpos : info.nRandomPos = m.vRandom.length) (hrefs : info.nRefCount = 0)
    (htry : info.nLastTry = 0) (htried : info.fInTried = true) (haddr : ∀ e ∈ done, e.1.netAddr ≠ info.netAddr)
    (hl : m.vvTried[b]? = some l) :
    ((m.append info).updateTried b (· ++ [m.nIdCount])).Loaded (done ++ [(info.saved, true)]) := by
  have hlisted := h.toListed.append hpos htry haddr
  rw [htried] at hlisted
  have hcount : ∀ k, (m.updateTried b (· ++ [m.nIdCount])).triedCount k =
      m.triedCount k + if m.nIdCount = k then 1 else 0 := fun k => by
    have hk := triedCount_updateTried (k := k) (f := (· ++ [m.nIdCount])) hl
    rw [List.count_append, List.count_singleton] at hk
    simp only [beq_iff_eq] at hk
    omega
  obtain ⟨hnews, htrieds⟩ := h.unknown _ h.indexed.next
  refine ⟨⟨⟨hlisted.indexed.ids, hlisted.indexed.fresh, hlisted.indexed.addr, hlisted.indexed.places⟩, hlisted.nIdCount,
    hlisted.random, hlisted.entries, hlisted.untouched⟩, fun n hn => ?_, fun n i hn => ?_, ?_, ?_, h.newBuckets⟩
  · change (m.append info).mapInfo[n]? = none at hn
    change m.newCount n = 0 ∧ (m.updateTried b (· ++ [m.nIdCount])).triedCount n = 0
    rw [mapInfo_append] at hn
    split at hn
    next => exact nomatch hn
    next hk =>
      rw [hcount, if_neg hk]
      exact h.unknown n hn
  · change (m.append info).mapInfo[n]? = some i at hn
    change i.nRefCount = (m.newCount n : Int) ∧ (m.updateTried b (· ++ [m.nIdCount])).triedCount n = _
    rw [mapInfo_append] at hn
    rw [hcount]
    split at hn
    next hk =>
      obtain rfl := Option.some.inj hn
      subst hk
      rw [hrefs, hnews, htrieds, htried, if_pos rfl]
      exact ⟨rfl, rfl⟩
    next hk =>
      rw [if_neg hk]
      exact h.counts n i hn
  · have hsize := triedSize_updateTried (f := (· ++ [m.nIdCount])) hl
    rw [List.length_append, List.length_singleton] at hsize
    change (m.updateTried b (· ++ [m.nIdCount])).triedSize = _
    rw [List.filter_append, List.length_append, ← h.total]
    change _ = m.triedSize + 1
    omega
  · change (m.vvTried.modify b _).length = _
    rw [List.length_modify, h.triedBuckets]

/-- A known entry joins a "new" bucket. -/
theorem insertNew {S : TreeSet Int} (h : m.Loaded done) (hinfo : m.mapInfo[n]? = some info) (hS : m.vvNew[b]? = some S)
    (hn : n ∉ S) :
    ((m.updateNew b (·.insert n)).updateInfo n fun i => { i with nRefCount := i.nRefCount + 1 }).Loaded done := by
  have hother : ∀ k, k ≠ n → (m.updateNew b (·.insert n)).newCount k = m.newCount k := fun k hk =>
    newCount_updateNew_of_ne fun _ => mem_insert_of_ne hk
  have hself := newCount_insert hS hn
  have hmap : ∀ k : Int, ((m.updateNew b (·.insert n)).updateInfo n fun i => { i with nRefCount := i.nRefCount + 1 }).mapInfo[k]? =
      (m.mapInfo[k]?).map fun i => if n = k then { i with nRefCount := i.nRefCount + 1 } else i := fun k => by
    rw [mapInfo_updateInfo]
    split
    · rfl
    · exact Option.map_id'.symm
  refine ⟨h.toListed.congr hmap (fun k i => ?_) (fun k i => ?_) (fun k i => ?_) (fun k i => ?_) rfl rfl rfl, fun k hk => ?_,
    fun k i hk => ?_, h.total, h.triedBuckets, ?_⟩
  · split <;> rfl
  · split <;> rfl
  · split <;> rfl
  · split <;> rfl
  · rw [hmap, Option.map_eq_none_iff] at hk
    have hne : k ≠ n := by
      rintro rfl
      exact nomatch hk.symm.trans hinfo
    obtain ⟨hnews, htrieds⟩ := h.unknown k hk
    exact ⟨(hother k hne).trans hnews, htrieds⟩
  · rw [hmap] at hk
    obtain ⟨j, hj, rfl⟩ := Option.map_eq_some_iff.mp hk
    obtain ⟨hrefs, htrieds⟩ := h.counts k j hj
    change _ = ((m.updateNew b (·.insert n)).newCount k : Int) ∧ m.triedCount k = _
    by_cases hne : n = k
    · subst hne
      rw [if_pos rfl, hself]
      exact ⟨by push_cast; rw [← hrefs], htrieds⟩
    · rw [if_neg hne, hother k (Ne.symm hne)]
      exact ⟨hrefs, htrieds⟩
  · change (m.vvNew.modify b _).length = _
    rw [List.length_modify, h.newBuckets]

end Loaded

/-! ## The first loop -/

section New

variable (hash : List UInt8 → Uint256) {nUBuckets nNew nTried : Int} {nKey : List UInt8}

/-- The first loop, on entries already read. -/
def loadNewList (nUBuckets : Int) : List CAddrInfo → Int → CAddrMan → CAddrMan
  | [], _, m => m
  | info :: l, n, m => loadNewList nUBuckets l (n + 1) (m.loadNew hash nUBuckets n info.saved)

theorem recovers_loadNews (nUBuckets n : Int) (m : CAddrMan) {l : List CAddrInfo} (hl : ∀ i ∈ l, i.InRange) :
    Recovers stream (writeAll CAddrInfo.serialize l) (loadNews hash nUBuckets l.length n m) (loadNewList hash nUBuckets l n m) := by
  induction l generalizing n m with
  | nil => exact recovers_pure
  | cons info l ih =>
    obtain ⟨hinfo, hl⟩ := List.forall_mem_cons.mp hl
    rw [writeAll_cons]
    exact (CAddrInfo.recovers hinfo).bind (ih _ _ hl)

/-- **The first loop has filed `done`.** Ids are counted by the loop, not in
`nIdCount`; the "new" buckets wait for the file when it has as many. -/
structure NewLoaded (m : CAddrMan) (nUBuckets nNew nTried : Int) (nKey : List UInt8) (done : List (CAddrInfo × Bool)) : Prop where
  loaded : ({ m with nIdCount := done.length } : CAddrMan).Loaded done
  nKey : m.nKey = nKey
  nNew : m.nNew = nNew
  nTried : m.nTried = nTried
  triedEmpty : ∀ l ∈ m.vvTried, l = []
  new : ∀ e ∈ done, e.2 = false
  waiting : nUBuckets = ADDRMAN_NEW_BUCKET_COUNT → ∀ S ∈ m.vvNew, S = ∅
  refilled : nUBuckets ≠ ADDRMAN_NEW_BUCKET_COUNT → ∀ p : Nat, p < done.length → m.newCount p = 1

theorem newLoaded_init (nKey : List UInt8) (nUBuckets nNew nTried : Int) :
    ({ init nKey with nNew, nTried } : CAddrMan).NewLoaded nUBuckets nNew nTried nKey [] :=
  ⟨Loaded.of_init nKey nNew nTried, rfl, rfl, rfl, fun _ => List.eq_of_mem_replicate, nofun, fun _ _ => List.eq_of_mem_replicate,
    fun _ _ hp => absurd hp (Nat.not_lt_zero _)⟩

theorem NewLoaded.loadNew (h : m.NewLoaded nUBuckets nNew nTried nKey done) (haddr : ∀ e ∈ done, e.1.netAddr ≠ info.netAddr) :
    (m.loadNew hash nUBuckets done.length info.saved).NewLoaded nUBuckets nNew nTried nKey (done ++ [(info.saved, false)]) := by
  let entry : CAddrInfo := { info.saved with nRandomPos := m.vRandom.length }
  have haddr' : ∀ e ∈ done, e.1.netAddr ≠ entry.netAddr := haddr
  have happend := h.loaded.append rfl rfl rfl rfl haddr'
  have hlen : ((done ++ [(info.saved, false)]).length : Int) = done.length + 1 := by
    rw [List.length_append, List.length_singleton]
    rfl
  have hnew : ∀ e ∈ done ++ [(info.saved, false)], e.2 = false := fun e he => by
    obtain he | he := List.mem_append.mp he
    · exact h.new e he
    · rw [List.mem_singleton.mp he]
  by_cases hsame : nUBuckets = ADDRMAN_NEW_BUCKET_COUNT
  · rw [CAddrMan.loadNew, if_neg (not_not_intro hsame)]
    refine ⟨?_, h.nKey, h.nNew, h.nTried, h.triedEmpty, hnew, h.waiting, fun hne => absurd hsame hne⟩
    rw [hlen]
    exact happend
  · rw [CAddrMan.loadNew, if_pos hsame]
    let bucket := info.saved.getNewBucket hash m.nKey info.saved.source
    have hlt : bucket < m.vvNew.length := by
      have hbuckets := h.loaded.newBuckets
      change m.vvNew.length = _ at hbuckets
      rw [hbuckets]
      exact CAddrInfo.getNewBucket_lt hash m.nKey info.saved info.saved.source
    obtain ⟨S, hS⟩ : ∃ S, m.vvNew[bucket]? = some S := ⟨_, List.getElem?_eq_getElem hlt⟩
    have hzero : m.newCount done.length = 0 := (h.loaded.unknown _ h.loaded.indexed.next).1
    have hnot : (done.length : Int) ∉ S := fun hn => by
      have hpos := newCount_pos hS hn
      omega
    have hself : (({ m with nIdCount := done.length } : CAddrMan).append entry).mapInfo[(done.length : Int)]? = some entry := by
      rw [mapInfo_append, if_pos rfl]
    refine ⟨?_, h.nKey, h.nNew, h.nTried, h.triedEmpty, hnew, fun heq => absurd heq hsame, fun _ p hp => ?_⟩
    · rw [hlen]
      exact happend.insertNew hself hS hnot
    · change (m.updateNew bucket (·.insert (done.length : Int))).newCount p = 1
      rw [List.length_append, List.length_singleton] at hp
      by_cases heq : p = done.length
      · rw [heq, newCount_insert hS hnot, hzero]
      · have hne : (p : Int) ≠ done.length := fun hc => heq (Int.ofNat.inj hc)
        rw [newCount_updateNew_of_ne fun _ => mem_insert_of_ne hne]
        exact h.refilled hsame p (by omega)

/-- **The first loop** files all entries. -/
theorem NewLoaded.loadNewList {l : List CAddrInfo} (h : m.NewLoaded nUBuckets nNew nTried nKey done)
    (hnodup : (done.map (·.1.netAddr) ++ l.map (·.netAddr)).Nodup) :
    (loadNewList hash nUBuckets l done.length m).NewLoaded nUBuckets nNew nTried nKey (done ++ l.map fun i => (i.saved, false)) := by
  induction l generalizing m done with
  | nil =>
    rw [List.map_nil, List.append_nil]
    exact h
  | cons info l ih =>
    have haddr : ∀ e ∈ done, e.1.netAddr ≠ info.netAddr := fun e he heq => by
      refine List.disjoint_of_nodup_append hnodup (List.mem_map_of_mem he) ?_
      rw [heq]
      exact List.mem_cons_self
    have hstep := h.loadNew hash haddr
    have hrest := ih hstep <| by
      rw [List.map_append, List.append_assoc]
      exact hnodup
    rw [List.length_append, List.length_singleton, List.append_assoc] at hrest
    exact hrest

end New

/-! ## The second loop -/

section Tried

variable (hash : List UInt8 → Uint256) {nKey : List UInt8} {m₀ : CAddrMan} {acc : CAddrMan × Int} {kept : List CAddrInfo}

/-- The second loop, on entries already read. -/
def loadTriedList (l : List CAddrInfo) (acc : CAddrMan × Int) : CAddrMan × Int :=
  l.foldl (fun acc info => loadTried hash info.saved acc) acc

theorem recovers_loadTrieds (acc : CAddrMan × Int) {l : List CAddrInfo} (hl : ∀ i ∈ l, i.InRange) :
    Recovers stream (writeAll CAddrInfo.serialize l) (loadTrieds hash l.length acc) (loadTriedList hash l acc) := by
  induction l generalizing acc with
  | nil => exact recovers_pure
  | cons info l ih =>
    obtain ⟨hinfo, hl⟩ := List.forall_mem_cons.mp hl
    rw [writeAll_cons]
    exact (CAddrInfo.recovers hinfo).bind (ih _ hl)

/-- **The second loop has filed `kept`**, after the entries of the first. -/
structure TriedLoaded (acc : CAddrMan × Int) (m₀ : CAddrMan) (done : List (CAddrInfo × Bool)) (kept : List CAddrInfo) : Prop where
  loaded : acc.1.Loaded (done ++ kept.map fun i => (i.saved, true))
  nKey : acc.1.nKey = m₀.nKey
  nNew : acc.1.nNew = m₀.nNew
  nTried : acc.1.nTried = m₀.nTried
  vvNew : acc.1.vvNew = m₀.vvNew
  filled : ∀ (k : Nat) (l : List Int), acc.1.vvTried[k]? = some l → l.length = kept.countP (CAddrInfo.getTriedBucket hash m₀.nKey · = k)

variable {hash}

/-- An entry is filed in its bucket or, when that is full, lost. -/
theorem TriedLoaded.loadTried (h : TriedLoaded hash acc m₀ done kept)
    (haddr : ∀ e ∈ done ++ kept.map fun i => (i.saved, true), e.1.netAddr ≠ info.netAddr) :
    if kept.countP (CAddrInfo.getTriedBucket hash m₀.nKey · = info.getTriedBucket hash m₀.nKey) < ADDRMAN_TRIED_BUCKET_SIZE then
      TriedLoaded hash (loadTried hash info.saved acc) m₀ done (kept ++ [info]) ∧ (loadTried hash info.saved acc).2 = acc.2
    else TriedLoaded hash (loadTried hash info.saved acc) m₀ done kept ∧ (loadTried hash info.saved acc).2 = acc.2 + 1 := by
  obtain ⟨m, nLost⟩ := acc
  let bucket := info.getTriedBucket hash m₀.nKey
  have hbucket : info.saved.getTriedBucket hash m.nKey = bucket := by
    rw [h.nKey]
    rfl
  have hlt : bucket < m.vvTried.length := by
    rw [h.loaded.triedBuckets]
    exact CAddrInfo.getTriedBucket_lt hash m₀.nKey info
  obtain ⟨l, hl⟩ : ∃ l, m.vvTried[bucket]? = some l := ⟨_, List.getElem?_eq_getElem hlt⟩
  have hlen := h.filled bucket l hl
  have hget : m.vvTried.getD bucket [] = l := by rw [List.getD_eq_getElem?_getD, hl, Option.getD_some]
  simp only [CAddrMan.loadTried, hbucket, hget]
  rw [← hlen]
  split
  next hroom =>
    let entry : CAddrInfo := { info.saved with nRandomPos := m.vRandom.length, fInTried := true }
    have haddr' : ∀ e ∈ done ++ kept.map fun i => (i.saved, true), e.1.netAddr ≠ entry.netAddr := haddr
    have happend := h.loaded.appendTried rfl rfl rfl rfl haddr' hl
    refine ⟨⟨?_, h.nKey, h.nNew, h.nTried, h.vvNew, fun k r hr => ?_⟩, rfl⟩
    · rw [List.map_append, ← List.append_assoc]
      exact happend
    · change (m.vvTried.modify bucket (· ++ [m.nIdCount]))[k]? = some r at hr
      rw [List.countP_append, List.countP_singleton]
      by_cases hk : bucket = k
      · subst hk
        rw [List.getElem?_modify_eq, hl] at hr
        obtain rfl := Option.some.inj hr
        rw [if_pos (decide_eq_true rfl), List.length_append, hlen, List.length_singleton]
      · rw [List.getElem?_modify_ne _ _ hk] at hr
        rw [if_neg (by simpa using hk)]
        exact h.filled k r hr
  next => exact ⟨⟨h.loaded, h.nKey, h.nNew, h.nTried, h.vvNew, h.filled⟩, rfl⟩

/-- **The second loop** fills the "tried" buckets and counts what it loses. -/
theorem TriedLoaded.loadTriedList {l : List CAddrInfo} (h : TriedLoaded hash acc m₀ done kept)
    (hnodup : (done.map (·.1.netAddr) ++ (kept.map (·.netAddr) ++ l.map (·.netAddr))).Nodup) :
    TriedLoaded hash (loadTriedList hash l acc) m₀ done
      (fill (CAddrInfo.getTriedBucket hash m₀.nKey) ADDRMAN_TRIED_BUCKET_SIZE kept l) ∧
    (CAddrMan.loadTriedList hash l acc).2 +
      (fill (CAddrInfo.getTriedBucket hash m₀.nKey) ADDRMAN_TRIED_BUCKET_SIZE kept l).length = acc.2 + kept.length + l.length := by
  induction l generalizing acc kept with
  | nil => exact ⟨h, (Int.add_zero _).symm⟩
  | cons info l ih =>
    have haddr : ∀ e ∈ done ++ kept.map fun i => (i.saved, true), e.1.netAddr ≠ info.netAddr := by
      intro e he heq
      rw [← List.append_assoc] at hnodup
      have hmem : e.1.netAddr ∈ (info :: l).map (·.netAddr) := by
        rw [heq]
        exact List.mem_cons_self
      refine List.disjoint_of_nodup_append hnodup ?_ hmem
      obtain he | he := List.mem_append.mp he
      · exact List.mem_append_left _ (List.mem_map_of_mem he)
      · obtain ⟨i, hi, rfl⟩ := List.mem_map.mp he
        exact List.mem_append_right _ (List.mem_map.mpr ⟨i, hi, rfl⟩)
    have hstep := h.loadTried haddr
    rw [fill]
    split
    next hroom =>
      rw [if_pos hroom] at hstep
      obtain ⟨hloaded, hlost⟩ := ih hstep.1 <| by
        rw [List.map_append, List.append_assoc]
        exact hnodup
      refine ⟨hloaded, ?_⟩
      rw [hstep.2, List.length_append, List.length_singleton] at hlost
      rw [List.length_cons]
      push_cast at hlost ⊢
      exact hlost.trans (by omega)
    next hfull =>
      rw [if_neg hfull] at hstep
      obtain ⟨hloaded, hlost⟩ := ih hstep.1 <|
        hnodup.sublist (((List.sublist_cons_self _ _).append_left _).append_left _)
      refine ⟨hloaded, ?_⟩
      rw [hstep.2] at hlost
      rw [List.length_cons]
      push_cast
      exact hlost.trans (by omega)

end Tried

/-! ## The third loop -/

section Buckets

variable {nUBuckets : Int}

/-- A bucket of the third loop, already read. -/
def loadIndexList (nUBuckets : Int) (b : Nat) (l : List Int) (m : CAddrMan) : CAddrMan :=
  l.foldl (fun m nIndex => m.loadIndex nUBuckets b nIndex) m

/-- The third loop, on buckets already read. -/
def loadBucketList (nUBuckets : Int) : List (List Int) → Nat → CAddrMan → CAddrMan
  | [], _, m => m
  | row :: rows, b, m => loadBucketList nUBuckets rows (b + 1) (loadIndexList nUBuckets b row m)

/-- A row of ids that can be written. -/
def Writable (row : List Int) : Prop := IntRange 4 row.length ∧ ∀ i ∈ row, IntRange 4 i

theorem length_loadIndexList {l : List Int} : (loadIndexList nUBuckets b l m).vvNew.length = m.vvNew.length := by
  induction l generalizing m with
  | nil => rfl
  | cons nIndex l ih =>
    have hstep : (m.loadIndex nUBuckets b nIndex).vvNew.length = m.vvNew.length := by
      unfold loadIndex
      simp only
      split
      · exact List.length_modify _ _ _
      · rfl
    exact ih.trans hstep

theorem recovers_loadIndexes {l : List Int} (hl : ∀ i ∈ l, IntRange 4 i) :
    Recovers stream (writeAll (writeInt 4) l) (loadIndexes nUBuckets b l.length m) (loadIndexList nUBuckets b l m) := by
  induction l generalizing m with
  | nil => exact recovers_pure
  | cons nIndex l ih =>
    obtain ⟨hindex, hl⟩ := List.forall_mem_cons.mp hl
    have hread : Recovers stream (writeInt 4 nIndex) (readInt 4) nIndex := (reads_readInt (by decide) (by decide)).recovers hindex
    rw [writeAll_cons]
    exact hread.bind (ih hl)

/-- A bucket that is there. -/
theorem loadBuckets_succ {left : Nat} (hb : b < m.vvNew.length) :
    loadBuckets nUBuckets (left + 1) b m = (do
      let nSize ← readInt 4
      let m ← loadIndexes nUBuckets b nSize.toNat m
      loadBuckets nUBuckets left (b + 1) m) := by
  rw [loadBuckets, rejectIf, if_neg (Nat.not_le.mpr hb)]
  rfl

theorem recovers_nSize {row : List Int} (hrow : Writable row) : Recovers stream (writeInt 4 row.length) (readInt 4) (row.length : Int) :=
  (reads_readInt (by decide) (by decide)).recovers hrow.1

theorem recovers_loadBuckets (nUBuckets : Int) {rows : List (List Int)} (hrows : ∀ row ∈ rows, Writable row) (hfit : b + rows.length ≤ m.vvNew.length) :
    Recovers stream (writeAll serializeBucket rows) (loadBuckets nUBuckets rows.length b m) (loadBucketList nUBuckets rows b m) := by
  induction rows generalizing b m with
  | nil => exact recovers_pure
  | cons row rows ih =>
    obtain ⟨hrow, hrows⟩ := List.forall_mem_cons.mp hrows
    rw [List.length_cons] at hfit ⊢
    rw [writeAll_cons, serializeBucket, List.append_assoc, loadBuckets_succ (by omega)]
    exact (recovers_nSize hrow).bind ((recovers_loadIndexes hrow.2).bind (ih hrows (by rw [length_loadIndexList]; omega)))

/-- **A file with more buckets than there are** is read past the last one. -/
theorem refuses_loadBuckets (nUBuckets : Int) {rows : List (List Int)} (hrows : ∀ row ∈ rows, Writable row) (hb : b ≤ m.vvNew.length)
    (hover : m.vvNew.length < b + rows.length) :
    Refuses stream (writeAll serializeBucket rows) (loadBuckets nUBuckets rows.length b m) outOfRange := by
  induction rows generalizing b m with
  | nil =>
    rw [List.length_nil] at hover
    omega
  | cons row rows ih =>
    obtain ⟨hrow, hrows⟩ := List.forall_mem_cons.mp hrows
    rw [List.length_cons] at hover ⊢
    by_cases hlt : b < m.vvNew.length
    · rw [writeAll_cons, serializeBucket, List.append_assoc, loadBuckets_succ hlt]
      refine (recovers_nSize hrow).refuses ((recovers_loadIndexes hrow.2).refuses ?_)
      exact ih hrows (by rw [length_loadIndexList]; omega) (by rw [length_loadIndexList]; omega)
    · refine ⟨fun {s _} _ _ => ⟨s, ?_⟩⟩
      rw [loadBuckets, rejectIf, if_pos (Nat.not_lt.mp hlt)]
      rfl

end Buckets

/-! ## Buckets refilled from the file -/

section Refill

variable {r r' : CAddrMan} {ids row : List Int} {S T : TreeSet Int} {q : Nat} {f : Int → Int} {vNews before : List (TreeSet Int)}

/-- `mapInfo[nIndex]` of a known id. -/
theorem mapInfo_insertIfNew (hk : (m.mapInfo[k]?).isSome) (n : Int) :
    (m.mapInfo.insertIfNew k CAddrInfo.init)[n]? = m.mapInfo[n]? := by
  rw [TreeMap.getElem?_insertIfNew, if_neg fun h => h.2 (TreeMap.isSome_getElem?_iff_mem.mp hk)]

theorem Loaded.insertIfNew (h : m.Loaded done) (hk : (m.mapInfo[k]?).isSome) :
    ({ m with mapInfo := m.mapInfo.insertIfNew k CAddrInfo.init } : CAddrMan).Loaded done := by
  have hsame := mapInfo_insertIfNew hk
  refine ⟨h.toListed.congr (f := fun _ i => i) (fun n => ?_) (fun _ _ => rfl) (fun _ _ => rfl) (fun _ _ => rfl) (fun _ _ => rfl)
    rfl rfl rfl, fun n hn => ?_, fun n i hn => ?_, h.total, h.triedBuckets, h.newBuckets⟩
  · exact (hsame n).trans Option.map_id'.symm
  · exact h.unknown n ((hsame n).symm.trans hn)
  · exact h.counts n i ((hsame n).symm.trans hn)

/-- The third loop changes nothing when the buckets were filled anew. -/
theorem Loaded.loadIndexList (h : m.Loaded done) {nUBuckets : Int} (hne : nUBuckets ≠ ADDRMAN_NEW_BUCKET_COUNT)
    (hrow : ∀ i ∈ row, ∃ p : Nat, i = p ∧ p < done.length) :
    (loadIndexList nUBuckets b row m).Loaded done ∧ (CAddrMan.loadIndexList nUBuckets b row m).nNew = m.nNew ∧
      (CAddrMan.loadIndexList nUBuckets b row m).nTried = m.nTried ∧ (CAddrMan.loadIndexList nUBuckets b row m).vvNew = m.vvNew := by
  induction row generalizing m with
  | nil => exact ⟨h, rfl, rfl, rfl⟩
  | cons i row ih =>
    obtain ⟨⟨p, rfl, hp⟩, hrest⟩ := List.forall_mem_cons.mp hrow
    have hknown : (m.mapInfo[(p : Int)]?).isSome := by
      obtain ⟨info, hinfo, -⟩ := h.entry (List.getElem?_eq_getElem hp)
      rw [hinfo]
      rfl
    have hstep : m.loadIndex nUBuckets b p = { m with mapInfo := m.mapInfo.insertIfNew p CAddrInfo.init } := by
      rw [loadIndex]
      exact if_neg fun hc => hne hc.1
    rw [CAddrMan.loadIndexList, List.foldl_cons, hstep]
    exact ih (h.insertIfNew hknown) hrest

theorem Loaded.loadBucketList (h : m.Loaded done) {nUBuckets : Int} (hne : nUBuckets ≠ ADDRMAN_NEW_BUCKET_COUNT)
    {rows : List (List Int)} (hrows : ∀ row ∈ rows, ∀ i ∈ row, ∃ p : Nat, i = p ∧ p < done.length) :
    (loadBucketList nUBuckets rows b m).Loaded done ∧ (CAddrMan.loadBucketList nUBuckets rows b m).nNew = m.nNew ∧
      (CAddrMan.loadBucketList nUBuckets rows b m).nTried = m.nTried ∧
      (CAddrMan.loadBucketList nUBuckets rows b m).vvNew = m.vvNew := by
  induction rows generalizing b m with
  | nil => exact ⟨h, rfl, rfl, rfl⟩
  | cons row rows ih =>
    obtain ⟨hrow, hrows⟩ := List.forall_mem_cons.mp hrows
    obtain ⟨hloaded, hnew, htried, hvvNew⟩ := h.loadIndexList (b := b) hne hrow
    obtain ⟨hloaded', hnew', htried', hvvNew'⟩ := ih (b := b + 1) hloaded hrows
    exact ⟨hloaded', hnew'.trans hnew, htried'.trans htried, hvvNew'.trans hvvNew⟩

/-- No id is in a bucket that the entry it stands for was not in. -/
def Below (r m : CAddrMan) (ids : List Int) : Prop :=
  ∀ (c : Nat) (S : TreeSet Int) (p : Int), r.vvNew[c]? = some S → p ∈ S →
    ∃ (q : Nat) (n : Int) (T : TreeSet Int), p = q ∧ ids[q]? = some n ∧ m.vvNew[c]? = some T ∧ n ∈ T

theorem Below.newCount_le (h : r.Below m ids) (hlen : r.vvNew.length = m.vvNew.length) (hq : ids[q]? = some n) :
    r.newCount q ≤ m.newCount n := by
  refine tally_le fun c S hS => ?_
  have hlt : c < m.vvNew.length := hlen ▸ (List.getElem?_eq_some_iff.mp hS).1
  refine ⟨m.vvNew[c], List.getElem?_eq_getElem hlt, ?_⟩
  split
  next hmem =>
    obtain ⟨q', n', T, hqq, hq', hT, hn⟩ := h c S q hS hmem
    obtain rfl := Int.ofNat.inj hqq
    obtain rfl := Option.some.inj (hq.symm.trans hq')
    rw [List.getElem?_eq_getElem hlt] at hT
    rw [Option.some.inj hT, if_pos hn]
  next => exact Nat.zero_le _

theorem Below.insert (h : r.Below m ids) (hq : ids[q]? = some n) (hT : m.vvNew[b]? = some T) (hn : n ∈ T) :
    (r.updateNew b (·.insert (q : Int))).Below m ids := by
  intro c S p hS hp
  by_cases hb : b = c
  · subst hb
    obtain ⟨S', hS', rfl⟩ : ∃ S', r.vvNew[b]? = some S' ∧ S'.insert (q : Int) = S := by
      rw [updateNew, List.getElem?_modify_eq] at hS
      exact Option.map_eq_some_iff.mp hS
    rw [TreeSet.mem_insert, compare_eq_iff_eq] at hp
    obtain rfl | hp := hp
    · exact ⟨q, n, T, rfl, hq, hT, hn⟩
    · exact h b S' p hS' hp
  · rw [updateNew, List.getElem?_modify_ne _ _ hb] at hS
    exact h c S p hS hp

/-- An id of the file joins its bucket: it is in fewer than it may be in. -/
theorem Loaded.loadIndex (h : r.Loaded done) (hbelow : r.Below m ids) (hlen : r.vvNew.length = m.vvNew.length)
    (hfew : (m.newCount n : Int) ≤ ADDRMAN_NEW_BUCKETS_PER_ADDRESS) (hdone : q < done.length) (hq : ids[q]? = some n)
    (hT : m.vvNew[b]? = some T) (hn : n ∈ T) (hS : r.vvNew[b]? = some S) (hnot : (q : Int) ∉ S) :
    (r.loadIndex ADDRMAN_NEW_BUCKET_COUNT b q).Loaded done ∧ (r.loadIndex ADDRMAN_NEW_BUCKET_COUNT b q).nNew = r.nNew ∧
      (r.loadIndex ADDRMAN_NEW_BUCKET_COUNT b q).nTried = r.nTried ∧
      (r.loadIndex ADDRMAN_NEW_BUCKET_COUNT b q).vvNew = (r.updateNew b (·.insert (q : Int))).vvNew := by
  obtain ⟨info, hinfo, -⟩ := h.entry (List.getElem?_eq_getElem hdone)
  have hknown : (r.mapInfo[(q : Int)]?).isSome := by
    rw [hinfo]
    rfl
  have hroom : info.nRefCount < ADDRMAN_NEW_BUCKETS_PER_ADDRESS := by
    have hle := (hbelow.insert hq hT hn).newCount_le (by rw [updateNew, List.length_modify, hlen]) hq
    rw [newCount_insert hS hnot] at hle
    rw [(h.counts _ _ hinfo).1]
    omega
  have hsame := mapInfo_insertIfNew hknown
  have hthere := (hsame q).trans hinfo
  have hstep := (h.insertIfNew hknown).insertNew hthere hS hnot
  rw [CAddrMan.loadIndex, hthere]
  simp only [Option.any_some, decide_eq_true_eq]
  rw [if_pos ⟨trivial, hroom⟩]
  exact ⟨hstep, rfl, rfl, rfl⟩

/-- **A bucket is refilled** with the ids of the file; the others stay. -/
theorem Loaded.refillBucket (h : r.Loaded done) (hbelow : r.Below m ids) (hlen : r.vvNew.length = m.vvNew.length)
    (hfew : ∀ n, (m.newCount n : Int) ≤ ADDRMAN_NEW_BUCKETS_PER_ADDRESS) (hdone : ids.length ≤ done.length)
    (hT : m.vvNew[b]? = some T) (hS : r.vvNew[b]? = some S)
    (hrow : ∀ p ∈ row, ∃ (q : Nat) (n : Int), p = q ∧ ids[q]? = some n ∧ n ∈ T) (hnodup : row.Nodup) (hfresh : ∀ p ∈ row, p ∉ S) :
    ∃ r', CAddrMan.loadIndexList ADDRMAN_NEW_BUCKET_COUNT b row r = r' ∧ r'.Loaded done ∧ r'.Below m ids ∧ r'.nNew = r.nNew ∧
      r'.nTried = r.nTried ∧ (∀ c, c ≠ b → r'.vvNew[c]? = r.vvNew[c]?) ∧
      ∃ S', r'.vvNew[b]? = some S' ∧ ∀ p, p ∈ S' ↔ p ∈ S ∨ p ∈ row := by
  induction row generalizing r S with
  | nil => exact ⟨r, rfl, h, hbelow, rfl, rfl, fun _ _ => rfl, S, hS, fun p => (or_iff_left List.not_mem_nil).symm⟩
  | cons p row ih =>
    obtain ⟨⟨q, n, rfl, hq, hn⟩, hrest⟩ := List.forall_mem_cons.mp hrow
    obtain ⟨hnot, hnodup⟩ := List.nodup_cons.mp hnodup
    obtain ⟨hnotS, hfresh⟩ := List.forall_mem_cons.mp hfresh
    have hlt : q < done.length := Nat.lt_of_lt_of_le (List.getElem?_eq_some_iff.mp hq).1 hdone
    obtain ⟨hloaded, hnew, htried, hvvNew⟩ := h.loadIndex hbelow hlen (hfew n) hlt hq hT hn hS hnotS
    have hbelow' : (r.loadIndex ADDRMAN_NEW_BUCKET_COUNT b q).Below m ids := by
      rw [Below, hvvNew]
      exact hbelow.insert hq hT hn
    have hS' : (r.loadIndex ADDRMAN_NEW_BUCKET_COUNT b q).vvNew[b]? = some (S.insert (q : Int)) := by
      rw [hvvNew, updateNew, List.getElem?_modify_eq, hS]
      rfl
    have hfresh' : ∀ p ∈ row, p ∉ S.insert (q : Int) := fun p hp hc => by
      rw [TreeSet.mem_insert, compare_eq_iff_eq] at hc
      obtain rfl | hc := hc
      · exact hnot hp
      · exact hfresh p hp hc
    obtain ⟨r', hrun, hl, hb, hnew', htried', hother, S', hS', hmem⟩ := ih hloaded hbelow'
      (by rw [hvvNew, updateNew, List.length_modify, hlen]) hS' hrest hnodup hfresh'
    refine ⟨r', hrun, hl, hb, hnew'.trans hnew, htried'.trans htried, fun c hc => ?_, S', hS', fun p => ?_⟩
    · rw [hother c hc, hvvNew, updateNew, List.getElem?_modify_ne _ _ (Ne.symm hc)]
    · rw [hmem, TreeSet.mem_insert, compare_eq_iff_eq, List.mem_cons]
      exact ⟨fun hc => by obtain (hc | hc) | hc := hc <;> simp [hc], fun hc => by obtain hc | hc | hc := hc <;> simp [hc]⟩

/-- **All buckets are refilled** from the file. -/
theorem Loaded.refill (h : r.Loaded done) (hbelow : r.Below m ids)
    (hlen : r.vvNew.length = m.vvNew.length) (hfew : ∀ n, (m.newCount n : Int) ≤ ADDRMAN_NEW_BUCKETS_PER_ADDRESS)
    (hdone : ids.length ≤ done.length) (hf : ∀ T ∈ m.vvNew, ∀ n ∈ T, ∃ q : Nat, f n = q ∧ ids[q]? = some n)
    (hsplit : m.vvNew = before ++ vNews)
    (hdoneBuckets : ∀ (c : Nat) (T : TreeSet Int), c < before.length → m.vvNew[c]? = some T →
      ∃ S, r.vvNew[c]? = some S ∧ ∀ p, p ∈ S ↔ p ∈ T.toList.map f)
    (hwaiting : ∀ (c : Nat) (S : TreeSet Int), before.length ≤ c → r.vvNew[c]? = some S → S = ∅) :
    ∃ r', CAddrMan.loadBucketList ADDRMAN_NEW_BUCKET_COUNT (vNews.map fun T => T.toList.map f) before.length r = r' ∧
      r'.Loaded done ∧ r'.Below m ids ∧ r'.nNew = r.nNew ∧ r'.nTried = r.nTried ∧
      ∀ (c : Nat) (T : TreeSet Int), m.vvNew[c]? = some T → ∃ S, r'.vvNew[c]? = some S ∧ ∀ p, p ∈ S ↔ p ∈ T.toList.map f := by
  induction vNews generalizing r before with
  | nil =>
    refine ⟨r, rfl, h, hbelow, rfl, rfl, fun c T hT => hdoneBuckets c T ?_ hT⟩
    rw [hsplit, List.append_nil] at hT
    exact (List.getElem?_eq_some_iff.mp hT).1
  | cons T vNews ih =>
    have hT : m.vvNew[before.length]? = some T := by rw [hsplit, List.getElem?_append_right le_rfl, Nat.sub_self]; rfl
    have hTmem := List.mem_of_getElem? hT
    have hlt : before.length < r.vvNew.length := hlen ▸ (List.getElem?_eq_some_iff.mp hT).1
    have hS : r.vvNew[before.length]? = some ∅ := by
      rw [List.getElem?_eq_getElem hlt, hwaiting _ _ le_rfl (List.getElem?_eq_getElem hlt)]
    have hrow : ∀ p ∈ T.toList.map f, ∃ (q : Nat) (n : Int), p = q ∧ ids[q]? = some n ∧ n ∈ T := fun p hp => by
      obtain ⟨n, hn, rfl⟩ := List.mem_map.mp hp
      have hn := TreeSet.mem_toList.mp hn
      obtain ⟨q, hq, hid⟩ := hf T hTmem n hn
      exact ⟨q, n, hq, hid, hn⟩
    have hnodup : (T.toList.map f).Nodup := by
      have hdistinct : T.toList.Nodup := TreeSet.distinct_toList.imp fun {a b} h heq => h (compare_eq_iff_eq.mpr heq)
      refine hdistinct.map_on fun x hx y hy hxy => ?_
      obtain ⟨p, hp, hx⟩ := hf T hTmem x (TreeSet.mem_toList.mp hx)
      obtain ⟨q, hq, hy⟩ := hf T hTmem y (TreeSet.mem_toList.mp hy)
      obtain rfl : p = q := Int.ofNat.inj (hp.symm.trans (hxy.trans hq))
      exact Option.some.inj (hx.symm.trans hy)
    obtain ⟨r₁, hrun, hl, hb, hnew, htried, hother, S, hS', hmem⟩ := h.refillBucket hbelow hlen hfew hdone hT hS hrow hnodup
      fun p _ => TreeSet.not_mem_emptyc
    have hlen₁ : r₁.vvNew.length = m.vvNew.length := by rw [← hrun, length_loadIndexList, hlen]
    have hlength : (before ++ [T]).length = before.length + 1 := by rw [List.length_append, List.length_singleton]
    have hsplit₁ : m.vvNew = (before ++ [T]) ++ vNews := by
      rw [hsplit, List.append_assoc]
      rfl
    have hdoneBuckets₁ : ∀ (c : Nat) (U : TreeSet Int), c < (before ++ [T]).length → m.vvNew[c]? = some U →
        ∃ S, r₁.vvNew[c]? = some S ∧ ∀ p, p ∈ S ↔ p ∈ U.toList.map f := fun c U hc hU => by
      rw [hlength] at hc
      by_cases heq : c = before.length
      · subst heq
        obtain rfl := Option.some.inj (hT.symm.trans hU)
        exact ⟨S, hS', fun p => by rw [hmem, or_iff_right TreeSet.not_mem_emptyc]⟩
      · rw [hother c heq]
        exact hdoneBuckets c U (by omega) hU
    have hwaiting₁ : ∀ (c : Nat) (U : TreeSet Int), (before ++ [T]).length ≤ c → r₁.vvNew[c]? = some U → U = ∅ :=
      fun c U hc hU => by
        rw [hlength] at hc
        exact hwaiting c U (by omega) (by rwa [hother c (by omega)] at hU)
    obtain ⟨r', hrun', hl', hb', hnew', htried', hall⟩ := ih hl hb hlen₁ hsplit₁ hdoneBuckets₁ hwaiting₁
    refine ⟨r', ?_, hl', hb', hnew'.trans hnew, htried'.trans htried, hall⟩
    rw [List.map_cons, CAddrMan.loadBucketList, hrun, ← hlength, hrun']

end Refill

end CAddrMan

end Pinkcoin
