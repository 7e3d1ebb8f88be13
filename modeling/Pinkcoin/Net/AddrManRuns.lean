/-
Runs of the address manager. The calls may come in any order, with any
arguments, clock and random numbers: no assertion fails and the tables stay
consistent. The times `Check_` looks at depend on those the calls are given.
-/
import Pinkcoin.Net.AddrManCheck

namespace Pinkcoin

open Std (TreeMap TreeSet)
open StateError AddrManM

/-! ## The times -/

namespace CAddrMan

variable {m : CAddrMan} {n : Int} {p : Option Int} {hash : List UInt8 → Uint256}

/-- The times are possible, of `p` also those that make it tried. -/
def TimedFor (p : Option Int) (m : CAddrMan) : Prop := ∀ (n : Int) (info : CAddrInfo), m.mapInfo[n]? = some info →
  0 ≤ info.nLastTry ∧ 0 ≤ info.nLastSuccess ∧ (info.fInTried = true ∨ p = some n → info.nLastSuccess ≠ 0)

/-- From possible times to possible times. -/
def KeepTimes (p : Option Int) (s s' : AddrManState) : Prop := s.man.TimedFor p → s'.man.TimedFor p

instance : Std.Refl (KeepTimes p) := ⟨fun _ h => h⟩

instance : IsTrans AddrManState (KeepTimes p) := ⟨fun _ _ _ h h' hs => h' (h hs)⟩

theorem timedFor_none : m.TimedFor none ↔ m.Timed := by
  simp [TimedFor, Timed]

theorem TimedFor.timed (h : m.TimedFor p) : m.Timed := fun n info hn =>
  ⟨(h n info hn).1, (h n info hn).2.1, fun ht => (h n info hn).2.2 (.inl ht)⟩

theorem TimedFor.updateInfo {f : CAddrInfo → CAddrInfo} (h : m.TimedFor p) (htry : ∀ i, (f i).nLastTry = i.nLastTry)
    (hsuccess : ∀ i, (f i).nLastSuccess = i.nLastSuccess) (htried : ∀ i, (f i).fInTried = true → i.fInTried = true ∨ p = some n) :
    (m.updateInfo n f).TimedFor p := by
  intro k info hk
  rw [mapInfo_updateInfo] at hk
  split at hk
  next hnk =>
    subst hnk
    obtain ⟨i, hi, rfl⟩ := Option.map_eq_some_iff.mp hk
    obtain ⟨hnTry, hnSuccess, hne⟩ := h n i hi
    rw [htry, hsuccess]
    exact ⟨hnTry, hnSuccess, fun hc => hne (hc.elim (htried i) .inr)⟩
  next => exact h k info hk

section Keeps

theorem keeps_man : Keeps (KeepTimes p) man := fun _ => id

theorem keeps_getRandInt (nMax : Nat) : Keeps (KeepTimes p) (getRandInt nMax) := fun _ => id

theorem keeps_getAdjustedTime : Keeps (KeepTimes p) getAdjustedTime := fun _ => id

theorem keeps_orStop {α : Type} (e : AddrManError) (o : Option α) : Keeps (KeepTimes p) (orStop e o) := by
  cases o with
  | none => exact keeps_throw e
  | some a => exact keeps_pure a

theorem keeps_assertThat (c : Prop) [Decidable c] : Keeps (KeepTimes p) (assertThat c) := keeps_rejectIf _ _

theorem keeps_infoAt (n : Int) : Keeps (KeepTimes p) (infoAt n) := keeps_bind keeps_man fun _ => keeps_orStop _ _

theorem keeps_newAt (b : Nat) : Keeps (KeepTimes p) (newAt b) := keeps_bind keeps_man fun _ => keeps_orStop _ _

theorem keeps_triedAt (b : Nat) : Keeps (KeepTimes p) (triedAt b) := keeps_bind keeps_man fun _ => keeps_orStop _ _

theorem keeps_change {f : CAddrMan → CAddrMan} (h : ∀ m, m.TimedFor p → (f m).TimedFor p) : Keeps (KeepTimes p) (change f) :=
  fun s hs => h s.man hs

/-- A change of other tables. -/
theorem keeps_change_of_eq {f : CAddrMan → CAddrMan} (h : ∀ m, (f m).mapInfo = m.mapInfo) : Keeps (KeepTimes p) (change f) :=
  keeps_change fun m hm n info hn => hm n info (by rwa [h m] at hn)

theorem keeps_updateInfo {f : CAddrInfo → CAddrInfo} (htry : ∀ i, (f i).nLastTry = i.nLastTry)
    (hsuccess : ∀ i, (f i).nLastSuccess = i.nLastSuccess) (htried : ∀ i, (f i).fInTried = true → i.fInTried = true) :
    Keeps (KeepTimes p) (change (·.updateInfo n f)) :=
  keeps_change fun _ hm => hm.updateInfo htry hsuccess fun i hi => .inl (htried i hi)

theorem keeps_swapRandom (a b : Nat) : Keeps (KeepTimes p) (swapRandom a b) := by
  refine keeps_onlyIf (keeps_bind keeps_man fun m => keeps_bind (keeps_assertThat _) fun _ => ?_)
  refine keeps_bind (keeps_orStop _ _) fun nId1 => keeps_bind (keeps_orStop _ _) fun nId2 => ?_
  refine keeps_bind (keeps_assertThat _) fun _ => keeps_bind (keeps_assertThat _) fun _ => ?_
  refine keeps_bind (keeps_updateInfo (fun _ => rfl) (fun _ => rfl) fun _ => id) fun _ => ?_
  exact keeps_bind (keeps_updateInfo (fun _ => rfl) (fun _ => rfl) fun _ => id) fun _ => keeps_change_of_eq fun _ => rfl

theorem keeps_dropRef (n : Int) : Keeps (KeepTimes p) (dropRef n) := by
  refine keeps_bind (keeps_updateInfo (fun _ => rfl) (fun _ => rfl) fun _ => id) fun _ => ?_
  refine keeps_bind (keeps_infoAt n) fun info => keeps_onlyIf (keeps_bind keeps_man fun m => ?_)
  refine keeps_bind (keeps_swapRandom _ _) fun _ => keeps_change fun m hm k i hk => hm k i ?_
  rw [TreeMap.getElem?_erase] at hk
  split at hk
  · exact nomatch hk
  · exact hk

theorem keeps_findTerrible (l : List Int) : Keeps (KeepTimes p) (findTerrible l) := by
  induction l with
  | nil => exact keeps_pure none
  | cons n l ih =>
    refine keeps_bind keeps_man fun m => keeps_bind (keeps_assertThat _) fun _ => keeps_bind (keeps_infoAt n) fun info => ?_
    exact keeps_bind keeps_getAdjustedTime fun nNow => keeps_ite (keeps_pure _) ih

theorem keeps_shrinkNewStep (ns : List Nat) (nOldest : Int) (e : Int × Nat) : Keeps (KeepTimes p) (shrinkNewStep ns nOldest e) := by
  refine keeps_ite (keeps_bind keeps_man fun m => keeps_bind (keeps_assertThat _) fun _ => ?_) (keeps_pure _)
  refine keeps_ite (keeps_pure _) (keeps_bind (keeps_infoAt _) fun info => keeps_bind (keeps_infoAt _) fun oldest => ?_)
  exact keeps_ite (keeps_pure _) (keeps_pure _)

theorem keeps_shrinkNew (b : Nat) : Keeps (KeepTimes p) (shrinkNew b) := by
  refine keeps_bind keeps_man fun m => keeps_bind (keeps_assertThat _) fun _ => keeps_bind (keeps_newAt b) fun vNew => ?_
  have hdrop : ∀ (n ret : Int), Keeps (KeepTimes p) (do
      dropRef n
      change (·.updateNew b (·.erase n))
      pure ret) := fun n ret =>
    keeps_bind (keeps_dropRef n) fun _ => keeps_bind (keeps_change_of_eq fun _ => rfl) fun _ => keeps_pure ret
  refine keeps_bind (keeps_findTerrible _) fun terrible => ?_
  cases terrible with
  | some n => exact hdrop n 0
  | none =>
    refine keeps_bind (keeps_getRandInt _) fun n₀ => keeps_bind (keeps_getRandInt _) fun n₁ => ?_
    refine keeps_bind (keeps_getRandInt _) fun n₂ => keeps_bind (keeps_getRandInt _) fun n₃ => ?_
    refine keeps_bind (keeps_foldlM fun nOldest e => keeps_shrinkNewStep _ nOldest e) fun nOldest => ?_
    exact keeps_bind keeps_man fun m => keeps_bind (keeps_assertThat _) fun _ => hdrop nOldest 1

theorem keeps_selectTried (b : Nat) : Keeps (KeepTimes p) (selectTried b) := by
  refine keeps_bind (keeps_triedAt b) fun vTried => keeps_bind (keeps_foldlM fun acc i => ?_) fun acc => ?_
  · obtain ⟨v, nOldest, nOldestPos⟩ := acc
    refine keeps_bind keeps_man fun m => keeps_bind (keeps_getRandInt _) fun r => ?_
    refine keeps_bind (keeps_orStop _ _) fun nTemp => keeps_bind (keeps_orStop _ _) fun nAtI => ?_
    refine keeps_bind (keeps_assertThat _) fun _ => keeps_ite (keeps_pure _) ?_
    refine keeps_bind (keeps_infoAt _) fun info => keeps_bind (keeps_infoAt _) fun oldest => ?_
    exact keeps_ite (keeps_pure _) (keeps_pure _)
  · exact keeps_bind (keeps_change_of_eq fun _ => rfl) fun _ => keeps_pure _

/-- An entry that may become tried does. -/
theorem keeps_promote {f : CAddrMan → CAddrMan} (hf : ∀ m, (f m).mapInfo = (m.updateInfo n fun info => { info with fInTried := true }).mapInfo) :
    Keeps (KeepTimes (some n)) (change f) := by
  refine keeps_change fun m hm k info hk => ?_
  rw [hf m] at hk
  exact hm.updateInfo (n := n) (f := fun info => { info with fInTried := true }) (fun _ => rfl) (fun _ => rfl)
    (fun _ _ => .inr rfl) k info hk

theorem keeps_makeTried (n : Int) (nOrigin : Nat) : Keeps (KeepTimes (some n)) (makeTried hash n nOrigin) := by
  refine keeps_bind (keeps_newAt _) fun origin => keeps_bind (keeps_assertThat _) fun _ => ?_
  refine keeps_bind (keeps_change fun m hm => ?_) fun _ => keeps_bind (keeps_infoAt n) fun info => ?_
  · exact hm.updateInfo (n := n) (f := fun info => { info with nRefCount := info.nRefCount - m.vvNew.countP (n ∈ ·) })
      (fun _ => rfl) (fun _ => rfl) fun _ => .inl
  · refine keeps_bind (keeps_assertThat _) fun _ => keeps_bind keeps_man fun m => keeps_bind (keeps_triedAt _) fun vTried => ?_
    refine keeps_ite (keeps_promote fun _ => rfl) ?_
    refine keeps_bind (keeps_selectTried _) fun nPos => keeps_bind (keeps_triedAt _) fun vTried => ?_
    refine keeps_bind (keeps_orStop _ _) fun nOld => keeps_bind keeps_man fun m => keeps_bind (keeps_assertThat _) fun _ => ?_
    refine keeps_bind (keeps_infoAt _) fun infoOld => keeps_bind (keeps_newAt _) fun vNew => ?_
    refine keeps_bind (keeps_updateInfo (fun _ => rfl) (fun _ => rfl) fun _ h => nomatch h) fun _ => ?_
    exact keeps_ite (keeps_bind (keeps_change_of_eq fun _ => rfl) fun _ => keeps_promote fun _ => rfl)
      (keeps_bind (keeps_change_of_eq fun _ => rfl) fun _ => keeps_promote fun _ => rfl)

theorem keeps_addToNew (n : Int) (source : CNetAddr) : Keeps (KeepTimes p) (addToNew hash n source) := by
  refine keeps_bind keeps_man fun m => keeps_bind (keeps_infoAt n) fun info => keeps_bind (keeps_newAt _) fun vNew => ?_
  refine keeps_onlyIf (keeps_bind (keeps_updateInfo (fun _ => rfl) (fun _ => rfl) fun _ => id) fun _ => ?_)
  refine keeps_bind (keeps_onlyIf (keeps_bind (keeps_shrinkNew _) fun _ => keeps_pure _)) fun _ => ?_
  exact keeps_change_of_eq fun _ => rfl

theorem keeps_create (addr : CAddress) (source : CNetAddr) : Keeps (KeepTimes none) (create addr source) := by
  refine keeps_bind keeps_man fun m => keeps_bind (keeps_change fun m hm k info hk => ?_) fun _ => keeps_pure _
  rw [TreeMap.getElem?_insert] at hk
  split at hk
  · obtain rfl := Option.some.inj hk
    exact ⟨le_rfl, le_rfl, fun hc => hc.elim nofun nofun⟩
  · exact hm k info hk

theorem keeps_add (addr : CAddress) (source : CNetAddr) (nTimePenalty : Int) :
    Keeps (KeepTimes none) (add hash addr source nTimePenalty) := by
  refine keeps_ite (keeps_pure _) (keeps_bind keeps_man fun m => ?_)
  cases m.find addr.service.addr with
  | none =>
    refine keeps_bind (keeps_create addr source) fun n => ?_
    refine keeps_bind (keeps_updateInfo (fun _ => rfl) (fun _ => rfl) fun _ => id) fun _ => ?_
    exact keeps_bind (keeps_change_of_eq fun _ => rfl) fun _ => keeps_bind (keeps_addToNew n source) fun _ => keeps_pure _
  | some found =>
    have hadd : ∀ r, Keeps (KeepTimes none) (if r ≠ 0 then pure false else do
        addToNew hash found.1 source
        pure false) := fun r => keeps_ite (keeps_pure _) (keeps_bind (keeps_addToNew found.1 source) fun _ => keeps_pure _)
    refine keeps_bind keeps_getAdjustedTime fun nNow => keeps_bind (keeps_change fun m hm => ?_) fun _ => ?_
    · have heq := refreshTime_eq addr nTimePenalty nNow
      refine hm.updateInfo (fun i => ?_) (fun i => ?_) fun i => ?_ <;> obtain ⟨t, ht⟩ := heq i <;> rw [ht]
      exact .inl
    · refine keeps_bind (keeps_updateInfo (fun _ => rfl) (fun _ => rfl) fun _ => id) fun _ => ?_
      refine keeps_bind (keeps_infoAt _) fun info => keeps_ite (keeps_pure _) (keeps_ite (keeps_pure _) (keeps_ite (keeps_pure _) ?_))
      exact keeps_ite (keeps_bind (keeps_pure _) hadd) (keeps_bind (keeps_getRandInt _) hadd)

theorem keeps_attempt {addr : CService} {nTime : Int} (htime : 0 ≤ nTime) : Keeps (KeepTimes none) (attempt addr nTime) := by
  refine keeps_bind keeps_man fun m => ?_
  cases m.find addr.addr with
  | none => exact keeps_pure _
  | some found =>
    refine keeps_onlyIf (keeps_change fun m hm k info hk => ?_)
    rw [mapInfo_updateInfo] at hk
    split at hk
    · obtain ⟨i, hi, rfl⟩ := Option.map_eq_some_iff.mp hk
      exact ⟨htime, (hm k i hi).2⟩
    · exact hm k info hk

theorem keeps_connected (addr : CService) (nTime : Int) : Keeps (KeepTimes none) (connected addr nTime) := by
  refine keeps_bind keeps_man fun m => ?_
  cases m.find addr.addr with
  | none => exact keeps_pure _
  | some found => exact keeps_onlyIf (keeps_updateInfo (fun _ => rfl) (fun _ => rfl) fun _ => id)

theorem keeps_good {addr : CService} {nTime : Int} (htime : 0 < nTime) : Keeps (KeepTimes none) (good hash addr nTime) := by
  refine keeps_bind keeps_man fun m => ?_
  cases m.find addr.addr with
  | none => exact keeps_pure _
  | some found =>
    obtain ⟨n, info⟩ := found
    refine keeps_onlyIf fun s hs => ?_
    -- from here on the entry has a success, so it may become tried
    have hgood : (s.man.updateInfo n fun info =>
        { info with nLastSuccess := nTime, nLastTry := nTime, nTime := toTime nTime, nAttempts := 0 }).TimedFor (some n) := by
      intro k info hk
      rw [mapInfo_updateInfo] at hk
      split at hk
      next hnk =>
        obtain ⟨i, hi, rfl⟩ := Option.map_eq_some_iff.mp hk
        exact ⟨htime.le, htime.le, fun _ => htime.ne'⟩
      next hnk =>
        obtain ⟨htry, hsuccess, hne⟩ := hs k info hk
        exact ⟨htry, hsuccess, fun hc => hne (hc.imp_right fun heq => absurd (Option.some.inj heq) hnk)⟩
    refine timedFor_none.mpr (keeps_onlyIf (keeps_bind (keeps_getRandInt _) fun nRnd => ?_) _ hgood).timed
    cases m.originOf n nRnd with
    | none => exact keeps_pure _
    | some nUBucket => exact keeps_makeTried n nUBucket

theorem keeps_getAddrLoop (nNodes left : Nat) (vAddr : List CAddress) : Keeps (KeepTimes p) (getAddrLoop nNodes left vAddr) := by
  induction left generalizing vAddr with
  | zero => exact keeps_pure _
  | succ left ih =>
    refine keeps_ite (keeps_pure _) (keeps_bind keeps_man fun m => keeps_bind (keeps_getRandInt _) fun r => ?_)
    refine keeps_bind (keeps_swapRandom _ _) fun _ => keeps_bind keeps_man fun m => keeps_bind (keeps_orStop _ _) fun n => ?_
    refine keeps_bind (keeps_assertThat _) fun _ => keeps_bind (keeps_infoAt _) fun info => ?_
    exact keeps_bind keeps_getAdjustedTime fun nNow => ih _

theorem keeps_selectLoop {accepts : Nat → CAddrInfo → Int → Nat → Bool} {nBuckets : Nat} {bucketAt : Nat → AddrManM (List Int)}
    (hbucket : ∀ c, Keeps (KeepTimes p) (bucketAt c)) (fuel nTries : Nat) :
    Keeps (KeepTimes p) (selectLoop accepts nBuckets bucketAt fuel nTries) := by
  induction fuel generalizing nTries with
  | zero => exact keeps_pure _
  | succ fuel ih =>
    refine keeps_bind (keeps_getRandInt _) fun c => keeps_bind (hbucket c) fun l => keeps_ite (ih _) ?_
    refine keeps_bind (keeps_getRandInt _) fun pos => keeps_bind (keeps_orStop _ _) fun n => keeps_bind keeps_man fun m => ?_
    refine keeps_bind (keeps_assertThat _) fun _ => keeps_bind (keeps_infoAt _) fun info => ?_
    exact keeps_bind (keeps_getRandInt _) fun r => keeps_bind keeps_getAdjustedTime fun nNow => keeps_ite (keeps_pure _) (ih _)

theorem keeps_select (accepts : Nat → CAddrInfo → Int → Nat → Bool) (fuel : Nat) : Keeps (KeepTimes p) (select accepts fuel) := by
  refine keeps_bind keeps_man fun m => keeps_ite (keeps_pure _) ?_
  have hloop : ∀ coin, Keeps (KeepTimes p) (if 0 < m.nTried ∧ (m.nNew = 0 ∨ coin = 0) then
      selectLoop accepts m.vvTried.length triedAt fuel 0
      else selectLoop accepts m.vvNew.length (fun b => do let vNew ← newAt b; pure vNew.toList) fuel 0) := fun coin =>
    keeps_ite (keeps_selectLoop keeps_triedAt _ _)
      (keeps_selectLoop (fun c => keeps_bind (keeps_newAt c) fun _ => keeps_pure _) _ _)
  exact keeps_ite (keeps_bind (keeps_getRandInt _) hloop) (keeps_bind (keeps_pure _) hloop)

end Keeps

/-! ## Runs -/

/-- A call from outside. -/
inductive Call
  | add (vAddr : List CAddress) (source : CNetAddr) (nTimePenalty : Int)
  | good (addr : CService) (nTime : Int)
  | attempt (addr : CService) (nTime : Int)
  | connected (addr : CService) (nTime : Int)
  | select (accepts : Nat → CAddrInfo → Int → Nat → Bool) (fuel : Nat)
  | getAddr

/-- The public calls, `Add` for one address and for several. -/
def Call.run (hash : List UInt8 → Uint256) : Call → AddrManM Unit
  | .add vAddr source nTimePenalty => forM vAddr fun addr => do
    let _ ← CAddrMan.add hash addr source nTimePenalty
  | .good addr nTime => CAddrMan.good hash addr nTime
  | .attempt addr nTime => CAddrMan.attempt addr nTime
  | .connected addr nTime => CAddrMan.connected addr nTime
  | .select accepts fuel => do
    let _ ← CAddrMan.select accepts fuel
  | .getAddr => do
    let _ ← CAddrMan.getAddr

/-- Several calls. -/
def runCalls (hash : List UInt8 → Uint256) (calls : List Call) : AddrManM Unit := forM calls (Call.run hash)

/-- The times given are those of a clock that has started. -/
def Call.Dated : Call → Prop
  | .good _ nTime => 0 < nTime
  | .attempt _ nTime => 0 ≤ nTime
  | _ => True

theorem yields_forM {α : Type} {I : CAddrMan → Prop} {f : α → AddrManM Unit} (h : ∀ a m, I m → Yields (f a) m fun _ m' => I m')
    (l : List α) (hm : I m) : Yields (forM l f) m fun _ m' => I m' := by
  induction l generalizing m with
  | nil => exact yields_pure hm
  | cons a l ih =>
    rw [List.forM_cons]
    exact (h a m hm).bind fun _ m' hm' => ih hm'

theorem Settled.yields_call (h : m.Settled) (c : Call) : Yields (c.run hash) m fun _ m' => m'.Settled := by
  cases c with
  | add vAddr source nTimePenalty =>
    exact yields_forM (fun addr m hm => (Settled.yields_add hm addr source nTimePenalty).bind fun _ m' hm' => yields_pure hm') vAddr h
  | good addr nTime => exact h.yields_good addr nTime
  | attempt addr nTime => exact h.yields_attempt addr nTime
  | connected addr nTime => exact h.yields_connected addr nTime
  | select accepts fuel => exact (h.yields_select accepts fuel).bind fun _ m' hm' => yields_pure (hm' ▸ h)
  | getAddr => exact h.yields_getAddr.bind fun _ m' hm' => yields_pure hm'

theorem keeps_call {c : Call} (hc : c.Dated) :
    Keeps (KeepTimes none) (c.run hash) := by
  cases c with
  | add vAddr source nTimePenalty =>
    exact keeps_forM fun addr _ => keeps_bind (keeps_add addr source nTimePenalty) fun _ => keeps_pure _
  | good addr nTime => exact keeps_good hc
  | attempt addr nTime => exact keeps_attempt hc
  | connected addr nTime => exact keeps_connected addr nTime
  | select accepts fuel => exact keeps_bind (keeps_select accepts fuel) fun _ => keeps_pure _
  | getAddr => exact keeps_bind (keeps_bind keeps_man fun m => keeps_getAddrLoop _ _ _) fun _ => keeps_pure _

theorem init_timed (nKey : List UInt8) : (init nKey).Timed := by
  intro n info hn
  rw [init, TreeMap.getElem?_emptyc] at hn
  exact nomatch hn

end CAddrMan

end Pinkcoin
