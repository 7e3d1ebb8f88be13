/-
How entries move: out of a bucket that is too full and, with their last
reference, out of the tables; into the tables and a bucket; from the "new"
buckets to a "tried" one and back.
-/
import Pinkcoin.Net.AddrManTables

namespace Pinkcoin

open Std (TreeMap TreeSet)
open StateError Tally AddrManM

namespace CAddrMan

variable {m m' : CAddrMan} {n k : Int} {b : Nat} {info : CAddrInfo}

/-! ## Out of a bucket -/

section Shrink

variable {slack : Int → Slack} {off : Int} {S : TreeSet Int}

/-- What `ShrinkNew` leaves of bucket `b`, which was `S`. -/
def Shrunk (m : CAddrMan) (slack : Int → Slack) (off : Int) (b : Nat) (S : TreeSet Int) : Prop :=
  m.Sound slack off ∧ ∃ T, m.vvNew[b]? = some T ∧ T.size < S.size ∧ ∀ k, k ∈ T → k ∈ S

/-- An entry that is counted out of `b` leaves it. -/
theorem Sound.shrunk (h : m.Sound (Function.update slack n ⟨(slack n).owed - 1, false⟩) off) (hS : m.vvNew[b]? = some S)
    (hn : n ∈ S) (hloose : (slack n).loose = false) : (m.updateNew b (·.erase n)).Shrunk slack off b S := by
  have herase := h.eraseNew hS hn
  rw [Function.update_self, Function.update_idem] at herase
  simp only [Int.sub_add_cancel] at herase
  have hsame : (⟨(slack n).owed, false⟩ : Slack) = slack n := by rw [← hloose]
  rw [hsame, Function.update_eq_self] at herase
  refine ⟨herase, S.erase n, ?_, ?_, fun k hk => TreeSet.mem_of_mem_erase hk⟩
  · rw [updateNew, List.getElem?_modify_eq, hS]
    rfl
  · have hpos : 0 < S.size := by
      by_contra hzero
      have hempty : S.isEmpty := by
        rw [TreeSet.isEmpty_eq_size_eq_zero, beq_iff_eq]
        omega
      exact TreeSet.not_mem_of_isEmpty hempty hn
    rw [TreeSet.size_erase, if_pos (TreeSet.contains_iff_mem.mpr hn)]
    omega

/-- The last reference is gone: the entry is swapped to the end and deleted. -/
theorem Sound.yields_delete {c : Slack} (h : m.Sound (Function.update slack n c) off) (hn : m.mapInfo[n]? = some info)
    (htried : info.fInTried = false) (hrefs : info.nRefCount = 0) {Q : Unit → CAddrMan → Prop}
    (hQ : ∀ m', m'.Sound (Function.update slack n ⟨c.owed, false⟩) off → m'.vvNew = m.vvNew → Q () m') :
    Yields (do
      let m ← man
      swapRandom (unsigned info.nRandomPos) (m.vRandom.length - 1)
      change fun m =>
        { m with vRandom := m.vRandom.dropLast, mapAddr := m.mapAddr.erase info.netAddr, mapInfo := m.mapInfo.erase n,
                 nNew := m.nNew - 1 }) m Q := by
  have hpos : m.randomPos n = some info.nRandomPos := by
    rw [randomPos, hn]
    rfl
  obtain ⟨hnonneg, hat⟩ := h.indexed.places.placed hpos
  have hlen : 0 < m.vRandom.length := List.length_pos_of_mem (List.mem_of_getElem? hat)
  obtain ⟨k, hk⟩ : ∃ k, m.vRandom[m.vRandom.length - 1]? = some k :=
    ⟨_, List.getElem?_eq_getElem (Nat.sub_lt hlen Nat.one_pos)⟩
  have hplace : unsigned info.nRandomPos = info.nRandomPos.toNat := by rw [unsigned, if_pos hnonneg]
  refine yields_bind (yields_man ?_)
  rw [hplace]
  refine (yields_swapRandom h.indexed.places hat hk).bind fun _ m' hswapped => yields_change ?_
  obtain ⟨hm, hlast⟩ := hswapped
  have hm' := h.reordered hm
  obtain ⟨q, hq⟩ := hm.of_info hn
  rw [← hm.length, ← List.getLast?_eq_getElem?] at hlast
  have hremoved := hm'.remove hq htried hrefs hlast
  rw [Function.update_self, Function.update_idem] at hremoved
  exact hQ _ hremoved hm.vvNew

/-- An entry of a bucket is counted out of it, and goes out of the tables with
its last reference. -/
theorem Sound.yields_dropRef (h : m.Sound slack off) (hS : m.vvNew[b]? = some S) (hn : n ∈ S) (howed : 0 ≤ (slack n).owed) :
    Yields (dropRef n) m fun _ m' => (m'.updateNew b (·.erase n)).Shrunk slack off b S := by
  obtain ⟨info, hinfo, htried, hpos, hloose⟩ := h.known hS hn howed
  have hfiled := h.filed n
  rw [hinfo, filed_untried htried, hloose] at hfiled
  obtain ⟨hcount, htriedCount, hkind⟩ := hfiled
  rw [if_neg Bool.false_ne_true] at hkind
  let fewer : CAddrInfo → CAddrInfo := fun i => { i with nRefCount := i.nRefCount - 1 }
  have hdown : (m.updateInfo n fewer).Sound (Function.update slack n ⟨(slack n).owed - 1, decide (info.nRefCount = 1)⟩) off := by
    refine h.edit ⟨fun _ => rfl, fun _ => rfl⟩ ?_
    have hstill : (fewer info).fInTried = false := htried
    rw [hinfo, Option.map_some, filed_untried hstill]
    refine ⟨?_, htriedCount, ?_⟩
    · simp only [fewer]
      omega
    · simp only [decide_eq_true_eq, fewer]
      split <;> omega
  have hat : (m.updateInfo n fewer).mapInfo[n]? = some (fewer info) := by
    rw [mapInfo_updateInfo_self, hinfo]
    rfl
  refine Yields.mono (P := fun _ m' => m'.Sound (Function.update slack n ⟨(slack n).owed - 1, false⟩) off ∧ m'.vvNew = m.vvNew)
    ?_ fun _ m' ⟨hm', hvvNew⟩ => hm'.shrunk (hvvNew ▸ hS) hn hloose
  refine yields_bind (yields_change (yields_bind (yields_infoAt hat (yields_onlyIf (fun hzero => ?_) fun hnot => ?_))))
  · exact hdown.yields_delete hat htried hzero fun m' hm' hvvNew => ⟨hm', hvvNew⟩
  · have hne : info.nRefCount ≠ 1 := fun hone => hnot (by simp [fewer, hone])
    rw [decide_eq_false hne] at hdown
    exact ⟨hdown, rfl⟩

theorem yields_findTerrible {l : List Int} (h : ∀ n ∈ l, (m.mapInfo[n]?).isSome) :
    Yields (findTerrible l) m fun found m' => m' = m ∧ ∀ n, found = some n → n ∈ l := by
  induction l with
  | nil => exact yields_pure ⟨rfl, nofun⟩
  | cons n l ih =>
    obtain ⟨info, hinfo⟩ := Option.isSome_iff_exists.mp (h n List.mem_cons_self)
    refine yields_bind (yields_man (yields_bind (yields_assertThat (mem_of_info hinfo) ?_)))
    refine yields_bind (yields_infoAt hinfo (yields_bind (yields_getAdjustedTime fun nNow => ?_)))
    refine yields_ite (fun _ => yields_pure ⟨rfl, ?_⟩) fun _ => ?_
    · rintro _ ⟨⟩
      exact List.mem_cons_self
    · exact (ih fun k hk => h k (List.mem_cons_of_mem _ hk)).mono fun found m' hm' =>
        ⟨hm'.1, fun k hk => List.mem_cons_of_mem _ (hm'.2 k hk)⟩

/-- The entry kept so far is one of the bucket. -/
theorem yields_shrinkNewStep {l : List Int} (h : ∀ n ∈ l, (m.mapInfo[n]?).isSome) {ns : List Nat} {nOldest : Int} {nI : Nat}
    (hn : n ∈ l) (hold : nOldest = -1 ∨ nOldest ∈ l) :
    Yields (shrinkNewStep ns nOldest (n, nI)) m fun nOldest' m' =>
      (nOldest' = nOldest ∧ nI ∉ ns ∨ nOldest' ∈ l) ∧ m' = m := by
  obtain ⟨info, hinfo⟩ := Option.isSome_iff_exists.mp (h n hn)
  refine yields_ite (fun _ => ?_) fun hnot => yields_pure ⟨.inl ⟨rfl, hnot⟩, rfl⟩
  refine yields_bind (yields_man (yields_bind (yields_assertThat (.inr (mem_of_info hinfo)) ?_)))
  refine yields_ite (fun _ => yields_pure ⟨.inr hn, rfl⟩) fun hnot => ?_
  have hmem := hold.resolve_left hnot
  obtain ⟨oldest, holdest⟩ := Option.isSome_iff_exists.mp (h nOldest hmem)
  refine yields_bind (yields_infoAt hinfo (yields_bind (yields_infoAt holdest ?_)))
  exact yields_ite (fun _ => yields_pure ⟨.inr hn, rfl⟩) fun _ => yields_pure ⟨.inr hmem, rfl⟩

/-- Some entry is drawn: the loop runs past the position drawn first. -/
theorem yields_oldest {l : List Int} (h : ∀ n ∈ l, (m.mapInfo[n]?).isSome) {ns : List Nat} {r : Nat} (hr : r ∈ ns) :
    ∀ {rest : List Int} {start : Nat} {nOldest : Int}, (∀ n ∈ rest, n ∈ l) →
      (nOldest ∈ l ∨ nOldest = -1 ∧ start ≤ r ∧ r < start + rest.length) →
      Yields ((rest.zipIdx start).foldlM (shrinkNewStep ns) nOldest) m fun nOldest' m' => nOldest' ∈ l ∧ m' = m := by
  intro rest
  induction rest with
  | nil =>
    intro start nOldest _ hold
    refine yields_pure ⟨hold.resolve_right fun hc => ?_, rfl⟩
    have := hc.2
    simp only [List.length_nil] at this
    omega
  | cons n rest ih =>
    intro start nOldest hrest hold
    rw [List.zipIdx_cons, List.foldlM_cons]
    refine (yields_shrinkNewStep h (hrest n List.mem_cons_self) (hold.symm.imp_left fun hc => hc.1)).bind ?_
    rintro nOldest' m' ⟨hnew, rfl⟩
    refine ih (fun k hk => hrest k (List.mem_cons_of_mem _ hk)) ?_
    obtain ⟨rfl, hnot⟩ | hmem := hnew
    · refine hold.imp_right fun ⟨hneg, hle, hlt⟩ => ⟨hneg, ?_, ?_⟩
      · have hne : start ≠ r := fun heq => hnot (heq ▸ hr)
        omega
      · rw [List.length_cons] at hlt
        omega
    · exact .inl hmem

/-- **`ShrinkNew`** on a bucket that is not empty. -/
theorem Sound.yields_shrinkNew (h : m.Sound slack off) (hS : m.vvNew[b]? = some S) (hsize : 0 < S.size)
    (howed : ∀ n, 0 ≤ (slack n).owed) : Yields (shrinkNew b) m fun _ m' => m'.Shrunk slack off b S := by
  have hknown : ∀ n ∈ S.toList, (m.mapInfo[n]?).isSome := fun n hn => by
    obtain ⟨info, hinfo, -⟩ := h.known hS (TreeSet.mem_toList.mp hn) (howed n)
    rw [hinfo]
    rfl
  refine yields_bind (yields_man (yields_bind (yields_assertThat (List.getElem?_eq_some_iff.mp hS).1 ?_)))
  refine yields_bind (yields_newAt hS ((yields_findTerrible hknown).bind ?_))
  rintro found m' ⟨rfl, hfound⟩
  cases found with
  | some n =>
    have hn := TreeSet.mem_toList.mp (hfound n rfl)
    exact (h.yields_dropRef hS hn (howed n)).bind fun _ m' hm' => yields_bind (yields_change (yields_pure hm'))
  | none =>
    refine yields_bind (yields_getRandInt fun r hr => ?_)
    refine yields_bind (yields_getRandInt fun r₁ _ => yields_bind (yields_getRandInt fun r₂ _ => ?_))
    refine yields_bind (yields_getRandInt fun r₃ _ => ?_)
    have hlt : r < 0 + S.toList.length := by
      rw [TreeSet.length_toList, Nat.zero_add]
      exact hr hsize
    refine (yields_oldest hknown (r := r) List.mem_cons_self (fun n hn => hn) (.inr ⟨rfl, Nat.zero_le r, hlt⟩)).bind ?_
    rintro nOldest m'' ⟨hmem, rfl⟩
    obtain ⟨info, hinfo⟩ := Option.isSome_iff_exists.mp (hknown nOldest hmem)
    refine yields_bind (yields_man (yields_bind (yields_assertThat (mem_of_info hinfo) ?_)))
    exact (h.yields_dropRef hS (TreeSet.mem_toList.mp hmem) (howed nOldest)).bind fun _ m' hm' =>
      yields_bind (yields_change (yields_pure hm'))

end Shrink

/-! ## Entries that come -/

theorem find_of (h : m.Indexed) {a : CNetAddr} (hfind : m.find a = none) : m.mapAddr.lookup a = none := by
  cases hlookup : m.mapAddr.lookup a with
  | none => rfl
  | some n =>
    obtain ⟨info, hinfo, -⟩ := Option.map_eq_some_iff.mp ((h.addr a n).mp hlookup)
    simp [find, hlookup, hinfo] at hfind

theorem find_eq_some {a : CNetAddr} (hfind : m.find a = some (n, info)) : m.mapInfo[n]? = some info := by
  simp only [find, Option.bind_eq_bind, Option.bind_eq_some_iff, Option.pure_def, Option.some.injEq, Prod.mk.injEq] at hfind
  obtain ⟨k, -, i, hi, rfl, rfl⟩ := hfind
  exact hi

/-- The tables with a new entry. -/
def append (m : CAddrMan) (info : CAddrInfo) : CAddrMan :=
  { m with nIdCount := m.nIdCount + 1, mapInfo := m.mapInfo.insert m.nIdCount info,
           mapAddr := m.mapAddr.insert info.netAddr m.nIdCount, vRandom := m.vRandom ++ [m.nIdCount] }

theorem mapInfo_append : (m.append info).mapInfo[k]? = if m.nIdCount = k then some info else m.mapInfo[k]? := by
  rw [append, TreeMap.getElem?_insert]
  by_cases hk : m.nIdCount = k
  · rw [if_pos (compare_eq_iff_eq.mpr hk), if_pos hk]
  · rw [if_neg fun h => hk (compare_eq_iff_eq.mp h), if_neg hk]

/-- The next id is not taken. -/
theorem Indexed.next (h : m.Indexed) : m.mapInfo[m.nIdCount]? = none := by
  cases hinfo : m.mapInfo[m.nIdCount]? with
  | none => rfl
  | some info =>
    have hlt := (h.fresh (n := m.nIdCount) (by rw [hinfo]; rfl)).2
    omega

theorem Indexed.append (h : m.Indexed) (hpos : info.nRandomPos = m.vRandom.length) (haddr : m.mapAddr.lookup info.netAddr = none) :
    (m.append info).Indexed where
  ids := Int.le_add_one h.ids
  fresh := by
    intro k hk
    change 0 ≤ k ∧ k < m.nIdCount + 1
    rw [mapInfo_append] at hk
    split at hk
    next hnk =>
      have := h.ids
      omega
    next =>
      have := h.fresh hk
      omega
  addr a k := by
    rw [addrOf, mapInfo_append]
    change (m.mapAddr.insert info.netAddr m.nIdCount).lookup a = _ ↔ _
    have hk := h.addr a k
    by_cases ha : a = info.netAddr
    · subst ha
      rw [AList.lookup_insert, Option.some.injEq]
      split
      next hnk => exact iff_of_true hnk rfl
      next hnk =>
        refine iff_of_false hnk fun hc => ?_
        rw [← addrOf, ← hk, haddr] at hc
        cases hc
    · rw [AList.lookup_insert_ne ha, hk]
      split
      next hnk =>
        subst hnk
        rw [addrOf, h.next]
        refine iff_of_false (fun hc => ?_) fun hc => ha (Option.some.inj hc).symm
        cases hc
      next => exact Iff.rfl
  places := by
    have hnone : m.randomPos m.nIdCount = none := by
      rw [randomPos, h.next]
      rfl
    refine (h.places.push hnone).congr fun k => ?_
    rw [randomPos, mapInfo_append]
    by_cases hk : m.nIdCount = k
    · subst hk
      rw [if_pos rfl, Function.update_self, ← hpos]
      rfl
    · rw [if_neg hk, Function.update_of_ne (Ne.symm hk)]
      rfl

/-- **`Create`** adds an entry that is in no bucket and not counted. -/
theorem Settled.yields_create (h : m.Settled) {addr : CAddress} (source : CNetAddr) (hfind : m.find addr.service.addr = none) :
    Yields (create addr source) m fun n m' => m'.Sound (Function.update (fun _ => .none) n ⟨0, true⟩) 1 ∧
      ∃ info, m'.mapInfo[n]? = some info ∧ info.fInTried = false := by
  let info := { CAddrInfo.new addr source with nRandomPos := m.vRandom.length }
  have hself : (m.append info).mapInfo[m.nIdCount]? = some info := by rw [mapInfo_append, if_pos rfl]
  refine yields_bind (yields_man (yields_bind (yields_change (yields_pure ⟨?_, ⟨info, hself, rfl⟩⟩))))
  change (m.append info).Sound _ _
  refine h.file ?_ (Indexed.append h.indexed rfl ?_) ?_ ?_ h.triedTotal ?_
  · exact h.sizes
  · exact find_of h.indexed hfind
  · exact fun k hk => ⟨by rw [mapInfo_append, if_neg (Ne.symm hk)], rfl, rfl⟩
  · have hfiled := h.filed m.nIdCount
    rw [h.indexed.next] at hfiled
    have hstill : info.fInTried = false := rfl
    rw [hself, filed_untried hstill]
    exact ⟨hfiled.1.symm, hfiled.2.1, rfl⟩
  · have htotal := h.total
    simp only [CAddrMan.append, List.length_append, List.length_singleton]
    push_cast
    omega

variable {hash : List UInt8 → Uint256}

/-- **An entry that is not tried joins a bucket** it is not in. -/
theorem Sound.yields_addToNew {loose : Bool} (h : m.Sound (Function.update (fun _ => .none) n ⟨0, loose⟩) 0)
    (hinfo : m.mapInfo[n]? = some info) (htried : info.fInTried = false)
    (hfew : loose = false → info.nRefCount ≠ ADDRMAN_NEW_BUCKETS_PER_ADDRESS) (source : CNetAddr) :
    Yields (addToNew hash n source) m fun _ m' => m'.Settled := by
  have hlt := CAddrInfo.getNewBucket_lt hash m.nKey info source
  rw [← h.sizes.newBuckets] at hlt
  obtain ⟨S, hS⟩ : ∃ S, m.vvNew[info.getNewBucket hash m.nKey source]? = some S := ⟨_, List.getElem?_eq_getElem hlt⟩
  have hsame : Function.update (fun _ : Int => Slack.none) n ⟨0, false⟩ = fun _ => Slack.none := Function.update_eq_self n _
  have hfiled := h.filed n
  rw [hinfo, Function.update_self, filed_untried htried] at hfiled
  obtain ⟨hcount, htriedCount, hkind⟩ := hfiled
  simp only at hcount hkind
  refine yields_bind (yields_man (yields_bind (yields_infoAt hinfo (yields_bind (yields_newAt hS ?_)))))
  refine yields_onlyIf (fun hn => ?_) fun hn => ?_
  · let more : CAddrInfo → CAddrInfo := fun i => { i with nRefCount := i.nRefCount + 1 }
    have hup : (m.updateInfo n more).Sound (Function.update (fun _ => .none) n ⟨1, false⟩) 0 := by
      have hedit := h.edit (n := n) (o := ⟨1, false⟩) (f := more) ⟨fun _ => rfl, fun _ => rfl⟩ <| by
        have hstill : (more info).fInTried = false := htried
        rw [hinfo, Option.map_some, filed_untried hstill]
        refine ⟨?_, htriedCount, ?_⟩
        · simp only [more]
          omega
        · rw [if_neg Bool.false_ne_true]
          simp only [more]
          cases loose with
          | true =>
            rw [if_pos rfl] at hkind
            rw [hkind]
            decide
          | false =>
            rw [if_neg Bool.false_ne_true] at hkind
            have hne := hfew rfl
            omega
      rwa [Function.update_idem] at hedit
    refine yields_bind (yields_change ?_)
    -- the bucket has room now, or after `ShrinkNew`
    refine Yields.bind (P := fun _ m' => m'.Sound (Function.update (fun _ => .none) n ⟨1, false⟩) 0 ∧
      ∃ T, m'.vvNew[info.getNewBucket hash m.nKey source]? = some T ∧ T.size < ADDRMAN_NEW_BUCKET_SIZE ∧ ∀ k, k ∈ T → k ∈ S) ?_ ?_
    · refine yields_onlyIf (fun hfull => ?_) fun hroom => ?_
      · refine (hup.yields_shrinkNew hS (by rw [hfull]; decide) fun k => ?_).bind fun _ m' ⟨hm', T, hT, hsize, hsub⟩ =>
          yields_pure ⟨hm', T, hT, hfull ▸ hsize, hsub⟩
        rw [Function.update_apply]
        split
        · exact Int.one_nonneg
        · exact le_rfl
      · have hfit := h.sizes.newFit S (List.mem_of_getElem? hS)
        exact ⟨hup, S, hS, by omega, fun k hk => hk⟩
    · rintro _ m' ⟨hm', T, hT, hsize, hsub⟩
      have hinsert := hm'.insertNew hT (fun hnT => hn (hsub n hnT)) hsize (by rw [Function.update_self])
      rw [Function.update_idem, Function.update_self] at hinsert
      simp only [Int.sub_self] at hinsert
      rw [hsame] at hinsert
      exact yields_change hinsert
  · have hpos := newCount_pos hS (not_not.mp hn)
    cases loose with
    | true =>
      rw [if_pos rfl] at hkind
      omega
    | false => rwa [hsame] at h

/-! ## From "new" to "tried" -/

theorem Sizes.modifyTried {vvTried : List (List Int)} {vvNew : List (TreeSet Int)} {f : List Int → List Int}
    (h : Sizes vvTried vvNew) (hf : ∀ l, vvTried[b]? = some l → (f l).length ≤ ADDRMAN_TRIED_BUCKET_SIZE) :
    Sizes (vvTried.modify b f) vvNew where
  triedBuckets := by rw [List.length_modify, h.triedBuckets]
  newBuckets := h.newBuckets
  triedFit := by
    intro l hl
    obtain ⟨c, hc⟩ := List.getElem?_of_mem hl
    rw [List.getElem?_modify] at hc
    split at hc
    next hbc =>
      obtain ⟨l', hl', rfl⟩ := Option.map_eq_some_iff.mp hc
      exact hf l' (hbc ▸ hl')
    next => exact h.triedFit l (List.mem_of_getElem? (by simpa using hc))
  newFit := h.newFit

theorem countP_eq_newCount : m.vvNew.countP (n ∈ ·) = m.newCount n := by
  rw [newCount]
  induction m.vvNew with
  | nil => rfl
  | cons S vvNew ih =>
    rw [List.countP_cons, ih, tally, tally, List.map_cons, List.sum_cons, Nat.add_comm]
    simp

theorem newCount_detach : (m.detach n).newCount k = if k = n then 0 else m.newCount k := by
  split
  next hk =>
    subst hk
    refine tally_eq_zero fun S hS => ?_
    obtain ⟨T, -, rfl⟩ := List.mem_map.mp hS
    exact if_neg (by simp)
  next hk =>
    refine tally_map_of_eq fun S _ => ?_
    simp only [mem_erase_of_ne hk]

/-- **An entry taken out of its buckets** has no reference left. -/
theorem Settled.detach (h : m.Settled) (hinfo : m.mapInfo[n]? = some info) (htried : info.fInTried = false) :
    (m.detach n).Sound (Function.update (fun _ => .none) n ⟨0, true⟩) 1 ∧
      (m.detach n).mapInfo[n]? = some { info with nRefCount := 0 } := by
  have hfiled := h.filed n
  rw [hinfo, filed_untried htried] at hfiled
  obtain ⟨hcount, htriedCount, -⟩ := hfiled
  have hzero : info.nRefCount - m.vvNew.countP (n ∈ ·) = 0 := by
    rw [countP_eq_newCount, hcount]
    exact Int.sub_eq_zero.mpr (Int.add_zero _)
  have hself : (m.detach n).mapInfo[n]? = some { info with nRefCount := 0 } := by
    change (m.updateInfo n _).mapInfo[n]? = _
    rw [mapInfo_updateInfo_self, hinfo, Option.map_some, hzero]
  refine ⟨h.file ?_ ?_ ?_ ?_ h.triedTotal ?_, hself⟩
  · refine ⟨h.sizes.triedBuckets, ?_, h.sizes.triedFit, fun S hS => ?_⟩
    · rw [CAddrMan.detach, List.length_map, h.sizes.newBuckets]
    · obtain ⟨T, hT, rfl⟩ := List.mem_map.mp hS
      exact le_trans TreeSet.size_erase_le (h.sizes.newFit T hT)
  · have hindexed := h.indexed.updateInfo (n := n) (f := fun info => { info with nRefCount := info.nRefCount - m.vvNew.countP (n ∈ ·) })
      ⟨fun _ => rfl, fun _ => rfl⟩
    exact ⟨hindexed.ids, hindexed.fresh, hindexed.addr, hindexed.places⟩
  · exact fun k hk => ⟨mapInfo_updateInfo_of_ne hk, by rw [newCount_detach, if_neg hk], rfl⟩
  · have hstill : ({ info with nRefCount := 0 } : CAddrInfo).fInTried = false := htried
    rw [hself, newCount_detach, if_pos rfl, filed_untried hstill]
    exact ⟨rfl, htriedCount, rfl⟩
  · have htotal := h.total
    change m.nTried + (m.nNew - 1) + 1 = (m.vRandom.length : Int)
    omega

section Tried

variable {slack : Int → Slack} {off : Int} {l : List Int}

theorem triedCount_updateTried {f : List Int → List Int} (hl : m.vvTried[b]? = some l) :
    (m.updateTried b f).triedCount k + l.count k = m.triedCount k + (f l).count k := tally_modify hl

theorem triedSize_updateTried {f : List Int → List Int} (hl : m.vvTried[b]? = some l) :
    (m.updateTried b f).triedSize + l.length = m.triedSize + (f l).length := tally_modify hl

/-- The order in a "tried" bucket does not matter. -/
theorem Sound.permuteTried (h : m.Sound slack off) (hl : m.vvTried[b]? = some l) {l' : List Int} (hperm : l'.Perm l) :
    (m.updateTried b fun _ => l').Sound slack off where
  sizes := h.sizes.modifyTried fun r hr => by
    obtain rfl := Option.some.inj (hl.symm.trans hr)
    rw [hperm.length_eq]
    exact h.sizes.triedFit l (List.mem_of_getElem? hl)
  indexed := ⟨h.indexed.ids, h.indexed.fresh, h.indexed.addr, h.indexed.places⟩
  filed k := by
    have hcount := triedCount_updateTried (k := k) (f := fun _ => l') hl
    rw [hperm.count_eq] at hcount
    have hsame := Nat.add_right_cancel hcount
    rw [hsame]
    exact h.filed k
  triedTotal := by
    have hsize := triedSize_updateTried (f := fun _ => l') hl
    rw [hperm.length_eq] at hsize
    rw [Nat.add_right_cancel hsize]
    exact h.triedTotal
  total := h.total

/-- An id in a "tried" bucket is known and tried. -/
theorem Sound.knownTried (h : m.Sound slack off) (hl : m.vvTried[b]? = some l) (hn : n ∈ l) :
    ∃ info, m.mapInfo[n]? = some info ∧ info.fInTried = true := by
  have hpos : 0 < m.triedCount n := Nat.lt_of_lt_of_le (List.count_pos_iff.mpr hn) (le_tally (List.mem_of_getElem? hl))
  have hfiled := h.filed n
  cases hinfo : m.mapInfo[n]? with
  | none =>
    rw [hinfo] at hfiled
    have := hfiled.2.1
    omega
  | some info =>
    refine ⟨info, rfl, ?_⟩
    by_contra hnot
    rw [hinfo, filed_untried (Bool.eq_false_iff.mpr hnot)] at hfiled
    have := hfiled.2.1
    omega

/-- The entry joins a "tried" bucket that has room. -/
def pushTried (m : CAddrMan) (b : Nat) (n : Int) : CAddrMan :=
  { (m.updateTried b (· ++ [n])).updateInfo n fun info => { info with fInTried := true } with nTried := m.nTried + 1 }

theorem Sound.pushTried (h : m.Sound (Function.update (fun _ => .none) n ⟨0, true⟩) 1) (hinfo : m.mapInfo[n]? = some info)
    (htried : info.fInTried = false) (hl : m.vvTried[b]? = some l) (hroom : l.length < ADDRMAN_TRIED_BUCKET_SIZE) :
    (m.pushTried b n).Settled := by
  have hfiled := h.filed n
  rw [hinfo, filed_untried htried, Function.update_self] at hfiled
  obtain ⟨hcount, htriedCount, hzero⟩ := hfiled
  have hsame : Function.update (fun _ : Int => Slack.none) n .none = fun _ => Slack.none := Function.update_eq_self n _
  have hfile : (m.pushTried b n).Sound (Function.update (Function.update (fun _ => .none) n ⟨0, true⟩) n .none) 0 := by
    refine h.file ?_ ?_ ?_ ?_ ?_ ?_
    · refine h.sizes.modifyTried fun r hr => ?_
      obtain rfl := Option.some.inj (hl.symm.trans hr)
      rw [List.length_append, List.length_singleton]
      exact hroom
    · have hindexed := h.indexed.updateInfo (n := n) (f := fun info => { info with fInTried := true }) ⟨fun _ => rfl, fun _ => rfl⟩
      exact ⟨hindexed.ids, hindexed.fresh, hindexed.addr, hindexed.places⟩
    · intro k hk
      have hcount := triedCount_updateTried (k := k) (f := (· ++ [n])) hl
      rw [List.count_append, List.count_singleton, if_neg (by simpa using Ne.symm hk)] at hcount
      exact ⟨mapInfo_updateInfo_of_ne hk, rfl, by change (m.updateTried b _).triedCount k = _; omega⟩
    · have hcount' := triedCount_updateTried (k := n) (f := (· ++ [n])) hl
      rw [List.count_append, List.count_singleton_self] at hcount'
      have hself : (m.pushTried b n).mapInfo[n]? = some { info with fInTried := true } := by
        change ((m.updateTried b _).updateInfo n _).mapInfo[n]? = _
        rw [mapInfo_updateInfo_self]
        change (m.mapInfo[n]?).map _ = _
        rw [hinfo]
        rfl
      have hnow : ({ info with fInTried := true } : CAddrInfo).fInTried = true := rfl
      rw [hself, filed_tried hnow]
      refine ⟨hcount, ?_, hzero, rfl⟩
      change (m.updateTried b _).triedCount n = 1
      omega
    · have hsize := triedSize_updateTried (f := (· ++ [n])) hl
      rw [List.length_append, List.length_singleton] at hsize
      have htotal := h.triedTotal
      change m.nTried + 1 = ((m.updateTried b (· ++ [n])).triedSize : Nat)
      omega
    · have htotal := h.total
      change m.nTried + 1 + m.nNew + 0 = (m.vRandom.length : Int)
      omega
  rwa [Function.update_idem, hsame] at hfile

/-- A new entry takes the place of one that goes back to the "new" buckets,
where it is owed its reference. -/
def replaceTried (m : CAddrMan) (b p : Nat) (n nOld : Int) : CAddrMan :=
  { ((m.updateInfo nOld fun info => { info with fInTried := false, nRefCount := 1 }).updateTried b (·.set p n)).updateInfo n
      fun info => { info with fInTried := true } with
    nNew := m.nNew + 1 }

theorem mapInfo_replaceTried {p : Nat} {nOld : Int} (hne : nOld ≠ n) : (m.replaceTried b p n nOld).mapInfo[k]? =
    if n = k then (m.mapInfo[k]?).map fun info => { info with fInTried := true }
    else if nOld = k then (m.mapInfo[k]?).map fun info => { info with fInTried := false, nRefCount := 1 }
    else m.mapInfo[k]? := by
  change ((m.updateInfo nOld _).updateInfo n _).mapInfo[k]? = _
  rw [mapInfo_updateInfo, mapInfo_updateInfo]
  by_cases hk : n = k
  · subst hk
    rw [if_pos rfl, if_neg hne, if_pos rfl]
  · rw [if_neg hk, if_neg hk]

theorem Sound.replaceTried {p : Nat} {nOld : Int} (h : m.Sound (Function.update (fun _ => .none) n ⟨0, true⟩) 1)
    (hinfo : m.mapInfo[n]? = some info) (htried : info.fInTried = false) (hl : m.vvTried[b]? = some l)
    (hp : l[p]? = some nOld) :
    (m.replaceTried b p n nOld).Sound (Function.update (fun _ => .none) nOld ⟨1, false⟩) 0 := by
  obtain ⟨infoOld, hinfoOld, htriedOld⟩ := h.knownTried hl (List.mem_of_getElem? hp)
  have hne : nOld ≠ n := by
    rintro rfl
    rw [hinfo, Option.some.injEq] at hinfoOld
    subst hinfoOld
    exact Bool.false_ne_true (htried.symm.trans htriedOld)
  obtain ⟨hlt, hat⟩ := List.getElem?_eq_some_iff.mp hp
  have hset : ∀ k, (m.replaceTried b p n nOld).triedCount k + (if nOld = k then 1 else 0) =
      m.triedCount k + if n = k then 1 else 0 := by
    intro k
    have hcount := triedCount_updateTried (k := k) (f := (·.set p n)) hl
    have hle : (if nOld = k then 1 else 0) ≤ l.count k := by
      split
      next hk => exact List.count_pos_iff.mpr (hk ▸ List.mem_of_getElem? hp)
      next => exact Nat.zero_le _
    rw [List.count_set hlt, hat] at hcount
    simp only [beq_iff_eq] at hcount
    change (m.updateTried b _).triedCount k + _ = _
    omega
  constructor
  · refine h.sizes.modifyTried fun r hr => ?_
    rw [List.length_set]
    exact h.sizes.triedFit r (List.mem_of_getElem? hr)
  · have hold := h.indexed.updateInfo (n := nOld) (f := fun info => { info with fInTried := false, nRefCount := 1 })
      ⟨fun _ => rfl, fun _ => rfl⟩
    have hindexed := hold.updateInfo (n := n) (f := fun info => { info with fInTried := true }) ⟨fun _ => rfl, fun _ => rfl⟩
    exact ⟨hindexed.ids, hindexed.fresh, hindexed.addr, hindexed.places⟩
  · intro k
    have hfiled := h.filed k
    have hcount := hset k
    rw [mapInfo_replaceTried hne]
    change Filed _ (m.newCount k) _ _
    by_cases hk : n = k
    · subst hk
      have hnow : ({ info with fInTried := true } : CAddrInfo).fInTried = true := rfl
      rw [hinfo, filed_untried htried, Function.update_self] at hfiled
      rw [if_pos rfl, if_neg hne] at hcount
      rw [if_pos rfl, hinfo, Option.map_some, filed_tried hnow, Function.update_of_ne (Ne.symm hne)]
      exact ⟨hfiled.1, by omega, hfiled.2.2, rfl⟩
    · rw [Function.update_of_ne (Ne.symm hk)] at hfiled
      rw [if_neg hk] at hcount ⊢
      by_cases hkOld : nOld = k
      · subst hkOld
        have hnow : ({ infoOld with fInTried := false, nRefCount := 1 } : CAddrInfo).fInTried = false := rfl
        rw [hinfoOld, filed_tried htriedOld] at hfiled
        obtain ⟨hrefs, hone, hzero, -⟩ := hfiled
        rw [if_pos rfl] at hcount
        rw [if_pos rfl, hinfoOld, Option.map_some, filed_untried hnow, Function.update_self]
        refine ⟨?_, by omega, Int.le_refl 1, by simp only [ADDRMAN_NEW_BUCKETS_PER_ADDRESS]; omega⟩
        simp only [Slack.none] at hrefs
        simp only
        omega
      · rw [if_neg hkOld] at hcount
        rw [if_neg hkOld, Function.update_of_ne (Ne.symm hkOld), Nat.add_right_cancel hcount]
        exact hfiled
  · have hsize := triedSize_updateTried (f := (·.set p n)) hl
    rw [List.length_set] at hsize
    exact (Nat.add_right_cancel hsize) ▸ h.triedTotal
  · have htotal := h.total
    change m.nTried + (m.nNew + 1) + 0 = (m.vRandom.length : Int)
    omega

/-- What `SelectTried` has done after some of its rounds. -/
def Inspected (l : List Int) : List Int × Int × Int → Prop
  | (vTried, nOldest, nOldestPos) => vTried.Perm l ∧ nOldest ∈ l ∧ 0 ≤ nOldestPos ∧ nOldestPos < l.length

theorem perm_swap {i p : Nat} {x y : Int} (hi : l[i]? = some x) (hp : l[p]? = some y) : ((l.set p x).set i y).Perm l := by
  obtain ⟨hilt, rfl⟩ := List.getElem?_eq_some_iff.mp hi
  obtain ⟨hplt, rfl⟩ := List.getElem?_eq_some_iff.mp hp
  exact List.set_set_perm hplt hilt

theorem yields_selectTriedStep (hknown : ∀ n ∈ l, (m.mapInfo[n]?).isSome) {i : Nat} (hi : i < l.length) {v : List Int}
    {nOldest nOldestPos : Int} (hperm : v.Perm l) (hold : nOldest = -1 ∨ Inspected l (v, nOldest, nOldestPos)) :
    Yields (selectTriedStep i (v, nOldest, nOldestPos)) m fun acc m' => Inspected l acc ∧ m' = m := by
  have hlen := hperm.length_eq
  refine yields_bind (yields_man (yields_bind (yields_getRandInt fun r hr => ?_)))
  have hlt : r + i < v.length := by
    have := hr (by omega)
    omega
  have hat := List.getElem?_eq_getElem hlt
  have hatI := List.getElem?_eq_getElem (show i < v.length by omega)
  have hmem : v[r + i] ∈ l := hperm.mem_iff.mp (List.getElem_mem hlt)
  obtain ⟨info, hinfo⟩ := Option.isSome_iff_exists.mp (hknown _ hmem)
  have hswap := (perm_swap hatI hat).trans hperm
  have hnew : Inspected l (_, v[r + i], ((r + i : Nat) : Int)) := ⟨hswap, hmem, Int.natCast_nonneg _, by omega⟩
  refine yields_bind (yields_orStop hat (yields_bind (yields_orStop hatI ?_)))
  refine yields_bind (yields_assertThat (.inr (mem_of_info hinfo)) ?_)
  refine yields_ite (fun _ => yields_pure ⟨hnew, rfl⟩) fun hnot => ?_
  obtain ⟨-, holdMem, hpos⟩ := hold.resolve_left hnot
  obtain ⟨oldest, holdest⟩ := Option.isSome_iff_exists.mp (hknown _ holdMem)
  refine yields_bind (yields_infoAt hinfo (yields_bind (yields_infoAt holdest ?_)))
  exact yields_ite (fun _ => yields_pure ⟨hnew, rfl⟩) fun _ => yields_pure ⟨⟨hswap, holdMem, hpos⟩, rfl⟩

/-- **`SelectTried`** permutes a bucket and points to one of its entries. -/
theorem Sound.yields_selectTried (h : m.Sound slack off) (hl : m.vvTried[b]? = some l) (hpos : 0 < l.length) :
    Yields (selectTried b) m fun nPos m' => ∃ l' : List Int, l'.Perm l ∧ m' = m.updateTried b (fun _ => l') ∧
      0 ≤ nPos ∧ nPos < l.length := by
  have hknown : ∀ n ∈ l, (m.mapInfo[n]?).isSome := fun n hn => by
    obtain ⟨info, hinfo, -⟩ := h.knownTried hl hn
    rw [hinfo]
    rfl
  obtain ⟨k, hk⟩ : ∃ k, min ADDRMAN_TRIED_ENTRIES_INSPECT_ON_EVICT l.length = k + 1 :=
    Nat.exists_eq_add_one_of_ne_zero (by simp only [ADDRMAN_TRIED_ENTRIES_INSPECT_ON_EVICT]; omega)
  have hle : k + 1 ≤ l.length := hk ▸ Nat.min_le_right _ _
  refine yields_bind (yields_triedAt hl ?_)
  simp only [hk, List.range_succ_eq_map, List.foldlM_cons]
  refine Yields.bind (P := fun acc m' => Inspected l acc ∧ m' = m) ?_ ?_
  · refine Yields.bind (yields_selectTriedStep hknown hpos (List.Perm.refl l) (.inl rfl)) ?_
    rintro ⟨v, nOldest, nOldestPos⟩ m' ⟨hacc, rfl⟩
    refine yields_foldlM (I := Inspected l) hacc fun acc i hi hacc => ?_
    obtain ⟨j, hj, rfl⟩ := List.mem_map.mp hi
    have hlt : j.succ < l.length := by
      have := List.mem_range.mp hj
      omega
    exact yields_selectTriedStep hknown hlt hacc.1 (.inr hacc)
  · rintro ⟨v, nOldest, nOldestPos⟩ m' ⟨⟨hperm, -, hnonneg, hlt⟩, rfl⟩
    exact yields_bind (yields_change (yields_pure ⟨v, hperm, rfl, hnonneg, hlt⟩))

end Tried

end CAddrMan

end Pinkcoin
