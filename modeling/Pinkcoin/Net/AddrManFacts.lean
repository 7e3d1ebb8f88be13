/-
What the calls of the address manager keep: each ends, from tables that agree,
in tables that agree.
-/
import Pinkcoin.Net.AddrManMoves

namespace Pinkcoin

open Std (TreeMap TreeSet)
open StateError Tally AddrManM

namespace CAddrMan

variable {m m' : CAddrMan} {n : Int} {b : Nat} {info : CAddrInfo} {hash : List UInt8 → Uint256}

/-! ## The calls -/

/-- The evicted entry goes back to its own bucket, or to the origin of the new
one, which has a place free. -/
theorem Sound.yields_evict {l : List Int} {p nOrigin : Nat} {nOld : Int} {origin : TreeSet Int}
    (h : m.Sound (Function.update (fun _ => .none) n ⟨0, true⟩) 1) (hinfo : m.mapInfo[n]? = some info)
    (htried : info.fInTried = false) (hl : m.vvTried[b]? = some l) (hp : l[p]? = some nOld)
    (horigin : m.vvNew[nOrigin]? = some origin) (hplace : origin.size < ADDRMAN_NEW_BUCKET_SIZE) {nUBucket : Nat}
    {vNew : TreeSet Int} (hvNew : m.vvNew[nUBucket]? = some vNew) :
    Yields (do
      change (·.updateInfo nOld fun info => { info with fInTried := false, nRefCount := 1 })
      if vNew.size < ADDRMAN_NEW_BUCKET_SIZE then change (·.updateNew nUBucket (·.insert nOld))
      else change (·.updateNew nOrigin (·.insert nOld))
      change fun m =>
        { (m.updateTried b (·.set p n)).updateInfo n fun info => { info with fInTried := true } with nNew := m.nNew + 1 })
      m fun _ m' => m'.Settled := by
  have hreplaced := h.replaceTried hinfo htried hl hp
  have hsame : Function.update (fun _ : Int => Slack.none) nOld ⟨0, false⟩ = fun _ => Slack.none := Function.update_eq_self nOld _
  have hnot : ∀ {c : Nat} {S : TreeSet Int}, m.vvNew[c]? = some S → nOld ∉ S := by
    intro c S hS hmem
    obtain ⟨i, hi, hfalse, -⟩ := h.known hS hmem (by rw [Function.update_apply]; split <;> exact le_rfl)
    obtain ⟨j, hj, htrue⟩ := h.knownTried hl (List.mem_of_getElem? hp)
    obtain rfl := Option.some.inj (hi.symm.trans hj)
    exact Bool.false_ne_true (hfalse.symm.trans htrue)
  have hback : ∀ {c : Nat} {S : TreeSet Int}, m.vvNew[c]? = some S → S.size < ADDRMAN_NEW_BUCKET_SIZE →
      ((m.replaceTried b p n nOld).updateNew c (·.insert nOld)).Settled := by
    intro c S hS hroom
    have hinsert := hreplaced.insertNew hS (hnot hS) hroom (by rw [Function.update_self])
    rw [Function.update_idem, Function.update_self] at hinsert
    simp only [Int.sub_self] at hinsert
    rwa [hsame] at hinsert
  refine yields_bind (yields_change ?_)
  refine yields_ite (fun hroom => ?_) fun hfull => ?_
  · exact yields_bind (yields_change (yields_change (hback hvNew hroom)))
  · exact yields_bind (yields_change (yields_change (hback horigin hplace)))

/-- **`MakeTried`**, of an entry in the "new" bucket `nOrigin`. -/
theorem Settled.yields_makeTried (h : m.Settled) {nOrigin : Nat} {origin : TreeSet Int}
    (horigin : m.vvNew[nOrigin]? = some origin) (hn : n ∈ origin) :
    Yields (makeTried hash n nOrigin) m fun _ m' => m'.Settled := by
  obtain ⟨info, hinfo, htried, -, -⟩ := h.known horigin hn le_rfl
  obtain ⟨hdetached, hself⟩ := h.detach hinfo htried
  have hfree : (m.detach n).vvNew[nOrigin]? = some (origin.erase n) := by
    change (m.vvNew.map _)[nOrigin]? = _
    rw [List.getElem?_map, horigin]
    rfl
  have hplace : (origin.erase n).size < ADDRMAN_NEW_BUCKET_SIZE := by
    have hfit := h.sizes.newFit origin (List.mem_of_getElem? horigin)
    have hpos : 0 < origin.size := by
      by_contra hzero
      refine TreeSet.not_mem_of_isEmpty ?_ hn
      rw [TreeSet.isEmpty_eq_size_eq_zero, beq_iff_eq]
      omega
    rw [TreeSet.size_erase, if_pos (TreeSet.contains_iff_mem.mpr hn)]
    omega
  refine yields_bind (yields_newAt horigin (yields_bind (yields_assertThat hn (yields_bind (yields_change ?_)))))
  refine yields_bind (yields_infoAt hself (yields_bind (yields_assertThat rfl (yields_bind (yields_man ?_)))))
  have hlt := CAddrInfo.getTriedBucket_lt hash (m.detach n).nKey { info with nRefCount := 0 }
  rw [← hdetached.sizes.triedBuckets] at hlt
  generalize CAddrInfo.getTriedBucket hash (m.detach n).nKey { info with nRefCount := 0 } = nKBucket at hlt ⊢
  obtain ⟨l, hl⟩ : ∃ l, (m.detach n).vvTried[nKBucket]? = some l := ⟨_, List.getElem?_eq_getElem hlt⟩
  refine yields_bind (yields_triedAt hl (yields_ite (fun hroom => ?_) fun hfull => ?_))
  · exact yields_change (hdetached.pushTried hself htried hl hroom)
  · have hpos := Nat.lt_of_lt_of_le (Nat.zero_lt_succ _) (Nat.not_lt.mp hfull)
    refine (hdetached.yields_selectTried hl hpos).bind ?_
    rintro nPos m' ⟨l', hperm, rfl, hnonneg, hposlt⟩
    have hpermuted := hdetached.permuteTried hl hperm
    have hl' : ((m.detach n).updateTried nKBucket fun _ => l').vvTried[nKBucket]? = some l' := by
      change ((m.detach n).vvTried.modify _ _)[_]? = _
      rw [List.getElem?_modify_eq, hl]
      rfl
    have hat : nPos.toNat < l'.length := by
      rw [hperm.length_eq]
      omega
    have hnOld := List.getElem?_eq_getElem hat
    obtain ⟨infoOld, hinfoOld, -⟩ := hpermuted.knownTried hl' (List.getElem_mem hat)
    refine yields_bind (yields_triedAt hl' (yields_bind (yields_orStop (a := l'[nPos.toNat]) ?_ ?_)))
    · rw [if_pos hnonneg, hnOld]
    · refine yields_bind (yields_man (yields_bind (yields_assertThat (mem_of_info hinfoOld) ?_)))
      refine yields_bind (yields_infoAt hinfoOld ?_)
      have hltNew := CAddrInfo.getNewBucket_lt hash ((m.detach n).updateTried nKBucket fun _ => l').nKey infoOld infoOld.source
      rw [← hpermuted.sizes.newBuckets] at hltNew
      have hvNew := List.getElem?_eq_getElem hltNew
      refine yields_bind (yields_newAt hvNew ?_)
      exact hpermuted.yields_evict hself htried hl' hnOld hfree hplace hvNew

theorem originOf_some {nRnd : Nat} (h : m.originOf n nRnd = some b) : ∃ S, m.vvNew[b]? = some S ∧ n ∈ S := by
  have hholds := List.find?_some h
  cases hS : m.vvNew[b]? with
  | none =>
    rw [hS] at hholds
    exact nomatch hholds
  | some S =>
    rw [hS] at hholds
    exact ⟨S, rfl, of_decide_eq_true hholds⟩

theorem Settled.yields_good (h : m.Settled) (addr : CService) (nTime : Int) :
    Yields (good hash addr nTime) m fun _ m' => m'.Settled := by
  refine yields_bind (yields_man ?_)
  cases hfind : m.find addr.addr with
  | none => exact yields_pure h
  | some found =>
    obtain ⟨nId, info⟩ := found
    refine yields_onlyIf (fun _ => ?_) fun _ => h
    have htouched := h.touch (n := nId) (f := fun info =>
      { info with nLastSuccess := nTime, nLastTry := nTime, nTime := toTime nTime, nAttempts := 0 })
      ⟨fun _ => rfl, fun _ => rfl⟩ (fun _ => rfl) fun _ => rfl
    refine yields_bind (yields_change (yields_onlyIf (fun _ => ?_) fun _ => htouched))
    refine yields_bind (yields_getRandInt fun nRnd _ => ?_)
    cases horigin : m.originOf nId nRnd with
    | none => exact yields_pure htouched
    | some nUBucket =>
      obtain ⟨S, hS, hn⟩ := originOf_some horigin
      exact Settled.yields_makeTried htouched hS hn

theorem refreshTime_eq (addr : CAddress) (nTimePenalty nNow : Int) (i : CAddrInfo) :
    ∃ t, refreshTime addr nTimePenalty nNow i = { i with nTime := t } := by
  have hset : ∀ (C : Prop) [Decidable C] (t : UInt32),
      ∃ t', (if C then { i with nTime := t } else i) = { i with nTime := t' } := by
    intro C _ t
    by_cases hC : C
    · exact ⟨t, if_pos hC⟩
    · exact ⟨i.nTime, if_neg hC⟩
  exact hset _ _

theorem Settled.refreshed (h : m.Settled) (addr : CAddress) (nTimePenalty nNow : Int) :
    (m.updateInfo n (refreshTime addr nTimePenalty nNow)).Settled := by
  have heq := refreshTime_eq addr nTimePenalty nNow
  refine h.touch ⟨fun i => ?_, fun i => ?_⟩ (fun i => ?_) fun i => ?_
  all_goals
    obtain ⟨t, ht⟩ := heq i
    rw [ht]
    try rfl

theorem Settled.yields_add (h : m.Settled) (addr : CAddress) (source : CNetAddr) (nTimePenalty : Int) :
    Yields (add hash addr source nTimePenalty) m fun _ m' => m'.Settled := by
  refine yields_ite (fun _ => yields_pure h) fun _ => yields_bind (yields_man ?_)
  cases hfind : m.find addr.service.addr with
  | none =>
    refine (h.yields_create source hfind).bind ?_
    rintro n m' ⟨hm', info, hinfo, htried⟩
    let timed : CAddrInfo → CAddrInfo := fun info => { info with nTime := toTime (max 0 (info.nTime.toNat - nTimePenalty)) }
    have htouched := hm'.touch (n := n) (f := timed) ⟨fun _ => rfl, fun _ => rfl⟩ (fun _ => rfl) fun _ => rfl
    have hself : (m'.updateInfo n timed).mapInfo[n]? = some (timed info) := by
      rw [mapInfo_updateInfo_self, hinfo]
      rfl
    refine yields_bind (yields_change (yields_bind (yields_change ?_)))
    have hcounted : { m'.updateInfo n timed with nNew := m'.nNew + 1 }.Sound (Function.update (fun _ => .none) n ⟨0, true⟩) 0 := by
      refine ⟨htouched.sizes, ?_, htouched.filed, htouched.triedTotal, ?_⟩
      · exact ⟨htouched.indexed.ids, htouched.indexed.fresh, htouched.indexed.addr, htouched.indexed.places⟩
      · have htotal := htouched.total
        change m'.nTried + (m'.nNew + 1) + 0 = (m'.vRandom.length : Int)
        change m'.nTried + m'.nNew + 1 = (m'.vRandom.length : Int) at htotal
        omega
    exact (hcounted.yields_addToNew hself htried nofun source).bind fun _ m'' hm'' => yields_pure hm''
  | some found =>
    obtain ⟨nId, info₀⟩ := found
    refine yields_bind (yields_getAdjustedTime fun nNow => ?_)
    refine yields_bind (yields_change (yields_bind (yields_change ?_)))
    have htimed := h.refreshed (n := nId) addr nTimePenalty nNow
    have hserved := htimed.touch (n := nId) (f := fun info => { info with nServices := info.nServices ||| addr.nServices })
      ⟨fun _ => rfl, fun _ => rfl⟩ (fun _ => rfl) fun _ => rfl
    obtain ⟨info, hinfo⟩ : ∃ info, ((m.updateInfo nId (refreshTime addr nTimePenalty nNow)).updateInfo nId
        fun info => { info with nServices := info.nServices ||| addr.nServices }).mapInfo[nId]? = some info :=
      ⟨_, by rw [mapInfo_updateInfo_self, mapInfo_updateInfo_self, find_eq_some hfind]; rfl⟩
    refine yields_bind (yields_infoAt hinfo ?_)
    refine yields_ite (fun _ => yields_pure hserved) fun _ => ?_
    refine yields_ite (fun _ => yields_pure hserved) fun htried => ?_
    refine yields_ite (fun _ => yields_pure hserved) fun hrefs => ?_
    have hsame : Function.update (fun _ : Int => Slack.none) nId ⟨0, false⟩ = fun _ => Slack.none := Function.update_eq_self nId _
    have hadd : Yields (addToNew hash nId source) _ fun _ m' => m'.Settled :=
      (hsame ▸ hserved).yields_addToNew hinfo (Bool.eq_false_iff.mpr htried) (fun _ => hrefs) source
    have hdraw : ∀ r, Yields (if r ≠ 0 then pure false else do
        addToNew hash nId source
        pure false) _ fun _ m' => m'.Settled :=
      fun r => yields_ite (fun _ => yields_pure hserved) fun _ => hadd.bind fun _ m'' hm'' => yields_pure hm''
    exact yields_ite (fun _ => yields_bind (yields_pure (hdraw 0))) fun _ => yields_bind (yields_getRandInt fun r _ => hdraw r)

theorem Settled.yields_attempt (h : m.Settled) (addr : CService) (nTime : Int) :
    Yields (attempt addr nTime) m fun _ m' => m'.Settled := by
  refine yields_bind (yields_man ?_)
  cases m.find addr.addr with
  | none => exact yields_pure h
  | some found =>
    refine yields_onlyIf (fun _ => yields_change ?_) fun _ => h
    exact h.touch ⟨fun _ => rfl, fun _ => rfl⟩ (fun _ => rfl) fun _ => rfl

theorem Settled.yields_connected (h : m.Settled) (addr : CService) (nTime : Int) :
    Yields (connected addr nTime) m fun _ m' => m'.Settled := by
  refine yields_bind (yields_man ?_)
  cases m.find addr.addr with
  | none => exact yields_pure h
  | some found =>
    refine yields_onlyIf (fun _ => yields_change ?_) fun _ => h
    exact h.touch ⟨fun _ => rfl, fun _ => rfl⟩ (fun _ => rfl) fun _ => rfl

/-- Drawing entries changes nothing. -/
theorem yields_selectLoop {accepts : Nat → CAddrInfo → Int → Nat → Bool} {nBuckets : Nat}
    {bucketAt : Nat → AddrManM (List Int)} (hpos : 0 < nBuckets)
    (hbucket : ∀ c, c < nBuckets → Yields (bucketAt c) m fun l m' => (∀ n ∈ l, (m.mapInfo[n]?).isSome) ∧ m' = m)
    (fuel nTries : Nat) : Yields (selectLoop accepts nBuckets bucketAt fuel nTries) m fun _ m' => m' = m := by
  induction fuel generalizing nTries with
  | zero => exact yields_pure rfl
  | succ fuel ih =>
    refine yields_bind (yields_getRandInt fun c hc => (hbucket c (hc hpos)).bind ?_)
    rintro l m' ⟨hl, rfl⟩
    refine yields_ite (fun _ => ih nTries) fun hlen => ?_
    refine yields_bind (yields_getRandInt fun p hp => ?_)
    have hat := List.getElem?_eq_getElem (hp (Nat.pos_of_ne_zero hlen))
    obtain ⟨info, hinfo⟩ := Option.isSome_iff_exists.mp (hl _ (List.getElem_mem (hp (Nat.pos_of_ne_zero hlen))))
    refine yields_bind (yields_orStop hat (yields_bind (yields_man ?_)))
    refine yields_bind (yields_assertThat (mem_of_info hinfo) (yields_bind (yields_infoAt hinfo ?_)))
    refine yields_bind (yields_getRandInt fun r _ => yields_bind (yields_getAdjustedTime fun nNow => ?_))
    exact yields_ite (fun _ => yields_pure rfl) fun _ => ih (nTries + 1)

theorem Settled.yields_select (h : m.Settled) (accepts : Nat → CAddrInfo → Int → Nat → Bool) (fuel : Nat) :
    Yields (select accepts fuel) m fun _ m' => m' = m := by
  refine yields_bind (yields_man (yields_ite (fun _ => yields_pure rfl) fun _ => ?_))
  have hdraw : ∀ coin, Yields (if 0 < m.nTried ∧ (m.nNew = 0 ∨ coin = 0) then selectLoop accepts m.vvTried.length triedAt fuel 0
      else selectLoop accepts m.vvNew.length (fun b => do let vNew ← newAt b; pure vNew.toList) fuel 0) m fun _ m' => m' = m := ?_
  · exact yields_ite (fun _ => yields_bind (yields_getRandInt fun coin _ => hdraw coin)) fun _ => yields_bind (yields_pure (hdraw 0))
  intro coin
  refine yields_ite (fun _ => ?_) fun _ => ?_
  · refine yields_selectLoop (by rw [h.sizes.triedBuckets]; decide) (fun c hc => ?_) fuel 0
    have hl := List.getElem?_eq_getElem hc
    refine yields_triedAt hl ⟨fun n hn => ?_, rfl⟩
    obtain ⟨info, hinfo, -⟩ := h.knownTried hl hn
    rw [hinfo]
    rfl
  · refine yields_selectLoop (by rw [h.sizes.newBuckets]; decide) (fun c hc => ?_) fuel 0
    have hS := List.getElem?_eq_getElem hc
    refine yields_bind (yields_newAt hS (yields_pure ⟨fun n hn => ?_, rfl⟩))
    obtain ⟨info, hinfo, -⟩ := h.known hS (TreeSet.mem_toList.mp hn) le_rfl
    rw [hinfo]
    rfl

theorem Settled.yields_getAddrLoop (nNodes left : Nat) {vAddr : List CAddress} (h : m.Settled) (hleft : left ≤ m.vRandom.length) :
    Yields (getAddrLoop nNodes left vAddr) m fun _ m' => m'.Settled := by
  induction left generalizing m vAddr with
  | zero => exact yields_pure h
  | succ left ih =>
    refine yields_ite (fun _ => yields_pure h) fun _ => yields_bind (yields_man (yields_bind (yields_getRandInt fun r hr => ?_)))
    have hr := hr (Nat.succ_pos left)
    have hn := List.getElem?_eq_getElem (show m.vRandom.length - (left + 1) < m.vRandom.length by omega)
    have hq := List.getElem?_eq_getElem (show r + (m.vRandom.length - (left + 1)) < m.vRandom.length by omega)
    refine (yields_swapRandom h.indexed.places hn hq).bind ?_
    rintro _ m' ⟨hm, -⟩
    have hm' : m'.Settled := h.reordered hm
    have hn' := List.getElem?_eq_getElem (show m.vRandom.length - (left + 1) < m'.vRandom.length by rw [hm.length]; omega)
    obtain ⟨info, hinfo, -⟩ := info_of_place hm'.indexed.places hn'
    refine yields_bind (yields_man (yields_bind (yields_orStop hn' ?_)))
    refine yields_bind (yields_assertThat (mem_of_info hinfo) (yields_bind (yields_infoAt hinfo ?_)))
    refine yields_bind (yields_getAdjustedTime fun nNow => ih hm' ?_)
    rw [hm.length]
    omega

theorem Settled.yields_getAddr (h : m.Settled) : Yields getAddr m fun _ m' => m'.Settled :=
  yields_bind (yields_man (h.yields_getAddrLoop _ _ le_rfl))

end CAddrMan

end Pinkcoin
