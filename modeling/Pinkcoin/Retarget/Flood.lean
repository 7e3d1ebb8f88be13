/-
The bound `ProcessBlock` puts on the target of a block that does not extend
the best chain: what a target at the last sync-checkpoint may have grown to,
doubling once and once more for every day begun. The targets of a chain
change with every block.
-/
import Pinkcoin.Retarget.Spacing

namespace Pinkcoin

open CBigNum (rounded rounded_le rounded_pos rounded_mono unit setCompact_getCompact lt_rounded_add_unit
  rounded_le_rounded_iff)

/-! ## The bound -/

/-- The loop of `ComputeMaxBits`: the target doubles for every day begun,
while it is below the limit. -/
def doubleDaily (bnTargetLimit bnResult nTime : Int) : Int :=
  if 0 < nTime ∧ bnResult < bnTargetLimit then doubleDaily bnTargetLimit (bnResult * 2) (nTime - 24 * 60 * 60)
  else bnResult
termination_by nTime.toNat
decreasing_by omega

/-- `ComputeMaxBits`. -/
def computeMaxBits (bnTargetLimit : CBigNum) (nBase : Nat) (nTime : Int) : Nat :=
  let bnResult := doubleDaily bnTargetLimit (CBigNum.setCompact nBase * 2) nTime
  CBigNum.getCompact (if bnTargetLimit < bnResult then bnTargetLimit else bnResult)

/-- `ComputeMinWork`. -/
def computeMinWork (P : Params) (nBase : Nat) (nTime : Int) : Nat := computeMaxBits P.bnProofOfWorkLimit nBase nTime

/-- `ComputeMinStake`. -/
def computeMinStake (nBase : Nat) (nTime : Int) (nBlockTime : Nat) : Nat :=
  let bnStakeTarget := if isFlashStake nBlockTime then bnProofOfFlashStakeLimit else bnProofOfStakeLimit
  computeMaxBits bnStakeTarget nBase nTime

/-- The record of the checkpoint's branch the bound is computed from. -/
def floodBase (checkpoint : List CBlockIndex) (fProofOfStake : Bool) (nBlockTime : Nat) : Option CBlockIndex :=
  if fProofOfStake then (getLastBlockIndex2 (isFlashStake nBlockTime) checkpoint).bind List.head?
  else (getLastBlockIndex false checkpoint).head?

/-- `bnRequired` of `ProcessBlock`, as bits, for a block with a time after
the checkpoint `pcheckpoint`. -/
def floodBound (P : Params) (checkpoint : List CBlockIndex) (fProofOfStake : Bool) (nBlockTime : Nat) : Option Nat := do
  let pcheckpoint ← checkpoint.head?
  let deltaTime : Int := nBlockTime - pcheckpoint.nTime
  let base ← floodBase checkpoint fProofOfStake nBlockTime
  if fProofOfStake then some (computeMinStake base.nBits deltaTime nBlockTime)
  else some (computeMinWork P base.nBits deltaTime)

/-- The limit of a kind of block. -/
def kindLimit (P : Params) (fProofOfStake : Bool) (nBlockTime : Nat) : CBigNum :=
  if fProofOfStake then if isFlashStake nBlockTime then bnProofOfFlashStakeLimit else bnProofOfStakeLimit
  else P.bnProofOfWorkLimit

theorem floodBound_eq {P : Params} {pcheckpoint base : CBlockIndex} {rest : List CBlockIndex} {fProofOfStake : Bool}
    {nBlockTime : Nat} (hbase : floodBase (pcheckpoint :: rest) fProofOfStake nBlockTime = some base) :
    floodBound P (pcheckpoint :: rest) fProofOfStake nBlockTime = some (computeMaxBits (kindLimit P fProofOfStake nBlockTime)
      base.nBits (nBlockTime - pcheckpoint.nTime)) := by
  simp only [floodBound, List.head?_cons, hbase, Option.bind_eq_bind, Option.bind_some]
  cases fProofOfStake <;> rfl

/-! ## The loop in closed form -/

/-- The days begun in a time, none where it is not positive. -/
def daysBegun (nTime : Int) : Nat := ((nTime + 86399) / 86400).toNat

theorem daysBegun_of_pos {nTime : Int} (hpos : 0 < nTime) : daysBegun nTime = daysBegun (nTime - 24 * 60 * 60) + 1 := by
  unfold daysBegun
  omega

theorem daysBegun_of_nonpos {nTime : Int} (hle : nTime ≤ 0) : daysBegun nTime = 0 := by
  unfold daysBegun
  omega

theorem doubleDaily_min {bnTargetLimit bnResult nTime : Int} (hpos : 0 < bnResult) :
    min bnTargetLimit (doubleDaily bnTargetLimit bnResult nTime) =
      min bnTargetLimit (bnResult * 2 ^ daysBegun nTime) := by
  fun_induction doubleDaily bnTargetLimit bnResult nTime with
  | case1 bnResult nTime hmore ih =>
    rw [ih (by omega), daysBegun_of_pos hmore.1, Int.pow_succ', Int.mul_assoc]
  | case2 bnResult nTime hdone =>
    by_cases htime : 0 < nTime
    · have hgrown : bnResult * 1 ≤ bnResult * 2 ^ daysBegun nTime :=
        Int.mul_le_mul_of_nonneg_left (by exact_mod_cast Nat.two_pow_pos _) (by omega)
      omega
    · rw [daysBegun_of_nonpos (by omega), Int.pow_zero, Int.mul_one]

/-- **The bound is the target doubled**, or the limit. -/
theorem computeMaxBits_target {bnTargetLimit base : Int} {nBase : Nat} {nTime : Int}
    (hlimit : 0 < bnTargetLimit ∧ bnTargetLimit < 2 ^ 256) (htarget : CBigNum.setCompact nBase = base) (hpos : 0 < base) :
    CBigNum.setCompact (computeMaxBits bnTargetLimit nBase nTime) =
      (rounded (min bnTargetLimit (base * 2 * 2 ^ daysBegun nTime)).toNat : Int) := by
  obtain ⟨bnResult, hresult⟩ : ∃ n : Int, doubleDaily bnTargetLimit (base * 2) nTime = n := ⟨_, rfl⟩
  have hcompute : computeMaxBits bnTargetLimit nBase nTime = CBigNum.getCompact (min bnTargetLimit bnResult) := by
    have hmin : (if bnTargetLimit < bnResult then bnTargetLimit else bnResult) = min bnTargetLimit bnResult := by
      split <;> omega
    rw [← hmin, ← hresult, ← htarget]
    rfl
  have hgrown : 0 < base * 2 * 2 ^ daysBegun nTime := Int.mul_pos (by omega) (by exact_mod_cast Nat.two_pow_pos _)
  rw [hcompute, ← hresult, doubleDaily_min (by omega)]
  obtain ⟨x, hx⟩ : ∃ x : Nat, min bnTargetLimit (base * 2 * 2 ^ daysBegun nTime) = x :=
    ⟨(min bnTargetLimit (base * 2 * 2 ^ daysBegun nTime)).toNat, by omega⟩
  have hlt : (x : Int) < 2 ^ 256 := by omega
  rw [hx, setCompact_getCompact (by exact_mod_cast hlt), Int.toNat_natCast]

/-! ## The target of the next block, by either rule -/

/-- What the target of the next block comes from: the limit, for the first
two blocks of a kind, else a step. -/
inductive NextTarget
  | easiest (bnTargetLimit : Int)
  | step (r : RetargetStep)

namespace NextTarget

/-- The bits of the next block. -/
def bits : NextTarget → Nat
  | easiest bnTargetLimit => CBigNum.getCompact bnTargetLimit
  | step r => r.required

/-- Its limit. -/
def limit : NextTarget → Int
  | easiest bnTargetLimit => bnTargetLimit
  | step r => r.bnTargetLimit

/-- The product a step starts from reaches its total, and stays below `bound`
times the total. -/
def Eased (bound : Int) : NextTarget → Prop
  | easiest _ => False
  | step r => r.total ≤ r.target * r.weight ∧ r.target * r.weight < bound * r.total

/-- A step of a node, or the limit of a kind. -/
def Usual : NextTarget → Prop
  | easiest bnTargetLimit => 0 < bnTargetLimit ∧ bnTargetLimit < 2 ^ 256
  | step r => r.Usual

end NextTarget

section Input

variable (P : Params) (fDisablePOW : Bool)

/-- What `GetNextTargetRequiredV1` starts from. -/
def inputV1 (branch : List CBlockIndex) (fProofOfStake : Bool) (nBlockTime : Nat) : Option NextTarget :=
  let bnTargetLimit : Int := kindLimit P fProofOfStake nBlockTime
  match getLastBlockIndex fProofOfStake branch with
  | [] => some (.easiest bnTargetLimit)
  | [_] => some (.easiest bnTargetLimit)
  | pindexPrev :: prev :: rest =>
    match getLastBlockIndex fProofOfStake (prev :: rest) with
    | [] => none
    | [_] => some (.easiest bnTargetLimit)
    | pindexPrevPrev :: _ =>
      let fFlashStake := fProofOfStake && isFlashStake nBlockTime
      let fFlashFlip := fProofOfStake && (isFlashStake nBlockTime != isFlashStake pindexPrev.nTime)
      let nTS : Int :=
        if fProofOfStake then
          if isFlashStake nBlockTime then nTargetSpacing_FlashStaking else stakeSpacing fDisablePOW
        else nTargetSpacing
      let flip := if fFlashFlip then getLastBlockIndex2 fFlashStake (pindexPrev :: prev :: rest) else some []
      match flip with
      | none => none
      | some flipBranch =>
        let nBits := match flipBranch with
          | [] => pindexPrev.nBits
          | pPrev :: _ => pPrev.nBits
        let nActualSpacing : Int := if fFlashFlip then 0 else pindexPrev.nTime - pindexPrevPrev.nTime
        let nActualSpacing := if pindexPrev.nHeight < 315065 ∧ nActualSpacing < 0 then nTS else nActualSpacing
        let nTimespan :=
          if fFlashStake then nFlashStakeTargetTimespan
          else if fProofOfStake then nStakeTargetTimespan else nTargetTimespan
        some (.step ⟨bnTargetLimit, nBits, nTimespan, nTS, nActualSpacing⟩)

theorem getNextTargetRequiredV1_eq (branch : List CBlockIndex) (fProofOfStake : Bool) (nBlockTime : Nat) :
    getNextTargetRequiredV1 P fDisablePOW branch fProofOfStake nBlockTime =
      (inputV1 P fDisablePOW branch fProofOfStake nBlockTime).map NextTarget.bits := by
  unfold getNextTargetRequiredV1 inputV1
  cases getLastBlockIndex fProofOfStake branch with
  | nil => rfl
  | cons pindexPrev before =>
    cases before with
    | nil => rfl
    | cons prev rest =>
      simp only
      cases getLastBlockIndex fProofOfStake (prev :: rest) with
      | nil => rfl
      | cons pindexPrevPrev before =>
        cases before with
        | nil => rfl
        | cons _ _ =>
          simp only
          split
          next hflip => simp only [hflip, Option.map_none]
          next hflip =>
            simp only [hflip, Option.map_some]
            rfl

/-- What `GetNextTargetRequired` starts from. -/
def nextTarget (branch : List CBlockIndex) (fProofOfStake : Bool) (nBlockTime : Nat) : Option NextTarget :=
  match branch with
  | [] => none
  | pindexLast :: _ =>
    if pindexLast.nHeight < 817990 then inputV1 P fDisablePOW branch fProofOfStake nBlockTime
    else (inputV2 P fDisablePOW branch fProofOfStake nBlockTime).map .step

theorem getNextTargetRequired_eq (branch : List CBlockIndex) (fProofOfStake : Bool) (nBlockTime : Nat) :
    getNextTargetRequired P fDisablePOW branch fProofOfStake nBlockTime =
      (nextTarget P fDisablePOW branch fProofOfStake nBlockTime).map NextTarget.bits := by
  cases branch with
  | nil => rfl
  | cons pindexLast rest =>
    unfold getNextTargetRequired nextTarget
    simp only
    split
    · rw [getNextTargetRequiredV1_eq]
    · rw [getNextTargetRequiredV2_eq, Option.map_map]
      rfl

variable {P fDisablePOW}

theorem kindLimit_usual {fProofOfStake : Bool} {nBlockTime : Nat} :
    0 < kindLimit P fProofOfStake nBlockTime ∧ kindLimit P fProofOfStake nBlockTime < 2 ^ 256 := by
  unfold kindLimit
  cases fProofOfStake with
  | false => exact bnProofOfWorkLimit_usual
  | true =>
    simp only [if_true]
    cases isFlashStake nBlockTime <;> decide

theorem inputV1_usual {branch : List CBlockIndex} {fProofOfStake : Bool} {nBlockTime : Nat} {n : NextTarget}
    (hn : inputV1 P fDisablePOW branch fProofOfStake nBlockTime = some n) :
    n.Usual ∧ n.limit = kindLimit P fProofOfStake nBlockTime := by
  have hlimit : 0 < kindLimit P fProofOfStake nBlockTime ∧ kindLimit P fProofOfStake nBlockTime < 2 ^ 256 :=
    kindLimit_usual
  unfold inputV1 at hn
  simp only at hn
  split at hn
  · obtain rfl := Option.some.inj hn
    exact ⟨hlimit, rfl⟩
  · obtain rfl := Option.some.inj hn
    exact ⟨hlimit, rfl⟩
  · split at hn
    · cases hn
    · obtain rfl := Option.some.inj hn
      exact ⟨hlimit, rfl⟩
    · split at hn
      · cases hn
      · obtain rfl := Option.some.inj hn
        refine ⟨?_, rfl⟩
        cases fProofOfStake with
        | false =>
          exact RetargetStep.usual_of hlimit (show (0 : Int) < nTargetSpacing by decide)
            (show 0 < nTargetTimespan by decide) (show (nTargetSpacing : Int) ∣ nTargetTimespan by decide)
        | true =>
          cases hflash : isFlashStake nBlockTime with
          | false =>
            exact RetargetStep.usual_of hlimit stakeSpacing_usual.1 (show 0 < nStakeTargetTimespan by decide)
              stakeSpacing_usual.2
          | true =>
            exact RetargetStep.usual_of hlimit (show (0 : Int) < nTargetSpacing_FlashStaking by decide)
              (show 0 < nFlashStakeTargetTimespan by decide)
              (show (nTargetSpacing_FlashStaking : Int) ∣ nFlashStakeTargetTimespan by decide)

theorem inputV2_limit {branch : List CBlockIndex} {fProofOfStake : Bool} {nBlockTime : Nat} {r : RetargetStep}
    (hr : inputV2 P fDisablePOW branch fProofOfStake nBlockTime = some r) :
    r.bnTargetLimit = kindLimit P fProofOfStake nBlockTime := by
  unfold inputV2 at hr
  cases fProofOfStake with
  | false =>
    simp only [Bool.false_eq_true, if_false, Option.bind_eq_bind, Option.bind_eq_some_iff, Option.some.injEq] at hr
    obtain ⟨pindexPrev, -, pindexPrevPrev, -, rfl⟩ := hr
    rfl
  | true =>
    simp only [if_true, Option.bind_eq_bind, Option.bind_eq_some_iff] at hr
    obtain ⟨sameAlgo, -, pPrevSameAlgo, -, prevSameAlgo, -, pPrevPrevSameAlgo, -, hr⟩ := hr
    split at hr
    next hflash =>
      obtain rfl := Option.some.inj hr
      simp [kindLimit, hflash]
    next hflash =>
      obtain rfl := Option.some.inj hr
      simp [kindLimit, hflash]

theorem nextTarget_usual {branch : List CBlockIndex} {fProofOfStake : Bool} {nBlockTime : Nat} {n : NextTarget}
    (hn : nextTarget P fDisablePOW branch fProofOfStake nBlockTime = some n) :
    n.Usual ∧ n.limit = kindLimit P fProofOfStake nBlockTime := by
  cases branch with
  | nil => cases hn
  | cons pindexLast rest =>
    unfold nextTarget at hn
    simp only at hn
    split at hn
    · exact inputV1_usual hn
    · obtain ⟨r, hr, rfl⟩ := Option.map_eq_some_iff.mp hn
      exact ⟨inputV2_usual hr, inputV2_limit hr⟩

end Input

/-! ## Below the bound -/

namespace NextTarget

variable {n : NextTarget}

/-- The target of the next block. -/
def target (n : NextTarget) : Int := CBigNum.setCompact n.bits

theorem Usual.limit_pos (h : n.Usual) : 0 < n.limit ∧ n.limit < 2 ^ 256 := by
  cases n with
  | easiest bnTargetLimit => exact h
  | step r => exact RetargetStep.Usual.limit h

theorem target_easiest {bnTargetLimit : Int} (hlimit : 0 < bnTargetLimit ∧ bnTargetLimit < 2 ^ 256) :
    (easiest bnTargetLimit).target = (rounded bnTargetLimit.toNat : Int) := by
  obtain ⟨x, rfl⟩ : ∃ x : Nat, bnTargetLimit = x := ⟨bnTargetLimit.toNat, by omega⟩
  rw [target, bits, setCompact_getCompact (by exact_mod_cast hlimit.2), Int.toNat_natCast]

theorem Usual.target_pos (h : n.Usual) : 0 < n.target := by
  cases n with
  | easiest bnTargetLimit =>
    have hlimit : 0 < bnTargetLimit ∧ bnTargetLimit < 2 ^ 256 := h
    have hrounded := rounded_pos (show bnTargetLimit.toNat ≠ 0 by omega)
    rw [target_easiest hlimit]
    exact_mod_cast hrounded
  | step r => exact RetargetStep.Usual.next_pos h

/-- Nothing is easier than the limit. -/
theorem Usual.target_le (h : n.Usual) : n.target ≤ (rounded n.limit.toNat : Int) := by
  cases n with
  | easiest bnTargetLimit =>
    have hlimit : 0 < bnTargetLimit ∧ bnTargetLimit < 2 ^ 256 := h
    rw [target_easiest hlimit]
    exact Int.le_refl _
  | step r =>
    have hr : r.Usual := h
    show r.next ≤ (rounded r.bnTargetLimit.toNat : Int)
    by_cases hin : 0 < r.quotient ∧ r.quotient ≤ r.bnTargetLimit
    · have hmono := rounded_mono (show r.quotient.toNat ≤ r.bnTargetLimit.toNat by omega)
      rw [hr.next_rounded hin]
      exact_mod_cast hmono
    · rw [RetargetStep.next_easiest (by omega), hr.easiest_eq]

/-- Beyond the bound stands what is rounded to more than it. -/
theorem Usual.target_le_iff_of_le (h : n.Usual) {x : Nat} (hx : x ≠ 0)
    (hbeyond : ((rounded x + unit x : Nat) : Int) ≤ n.limit) :
    n.target ≤ (rounded x : Int) ↔ n.Eased (rounded x + unit x : Nat) := by
  have hlimit := mt (rounded_le_rounded_iff (y := n.limit.toNat) hx).mp (by omega)
  cases n with
  | easiest bnTargetLimit =>
    have hpos : 0 < bnTargetLimit ∧ bnTargetLimit < 2 ^ 256 := h
    rw [target_easiest hpos]
    exact ⟨fun hle => hlimit (by exact_mod_cast hle), False.elim⟩
  | step r =>
    have hr : r.Usual := h
    have hbeyond : ((rounded x + unit x : Nat) : Int) ≤ r.bnTargetLimit := hbeyond
    show r.next ≤ (rounded x : Int) ↔
      r.total ≤ r.target * r.weight ∧ r.target * r.weight < (rounded x + unit x : Nat) * r.total
    by_cases hin : 0 < r.quotient ∧ r.quotient ≤ r.bnTargetLimit
    · have hreach := hr.quotient_pos.mp hin.1
      have hrounded := rounded_le_rounded_iff (y := r.quotient.toNat) hx
      rw [hr.next_rounded hin, ← hr.quotient_lt hreach]
      constructor
      · intro hle
        have hlt := hrounded.mp (by exact_mod_cast hle)
        exact ⟨hreach, by omega⟩
      · intro heased
        have hle := hrounded.mpr (by omega)
        exact_mod_cast hle
    · rw [RetargetStep.next_easiest (by omega), hr.easiest_eq]
      constructor
      · intro hle
        exact absurd (by exact_mod_cast hle) hlimit
      · intro heased
        have hpos := hr.quotient_pos.mpr heased.1
        have hlt := (hr.quotient_lt heased.1).mpr heased.2
        omega

/-- **The bound holds the next target** exactly where the bound is as easy as
the limit, or the step eases no further than the bound. -/
theorem Usual.target_le_iff (h : n.Usual) {x : Nat} (hx : x ≠ 0) :
    n.target ≤ (rounded (min n.limit x).toNat : Int) ↔
      n.limit < (rounded x + unit x : Nat) ∨ n.Eased (rounded x + unit x : Nat) := by
  have hpos := h.limit_pos
  have hnext := lt_rounded_add_unit x
  by_cases hwide : n.limit < (rounded x + unit x : Nat)
  · have hrounded := (rounded_le_rounded_iff (y := n.limit.toNat) hx).mpr (by omega)
    have hle := h.target_le
    refine iff_of_true ?_ (.inl hwide)
    by_cases hmin : n.limit ≤ x
    · rwa [Int.min_eq_left hmin]
    · rw [Int.min_eq_right (by omega), Int.toNat_natCast]
      omega
  · rw [Int.min_eq_right (by omega), Int.toNat_natCast, h.target_le_iff_of_le hx (by omega)]
    constructor
    · intro heased
      exact .inr heased
    · intro hor
      rcases hor with hlt | heased
      · exact absurd hlt hwide
      · exact heased

end NextTarget

/-! ## Chains of required targets -/

/-- A chain from the genesis block in which the bits of every block are the
required ones. The spacing of stake changes with the time of the best block,
which was another one for every block. -/
def Retargeted (P : Params) : List CBlockIndex → Prop
  | [] => True
  | [b] => b.nBits = CBigNum.getCompact P.bnProofOfWorkLimit
  | b :: prev :: rest =>
    (∃ fDisablePOW, getNextTargetRequired P fDisablePOW (prev :: rest) b.fProofOfStake b.nTime = some b.nBits) ∧
      Retargeted P (prev :: rest)

variable {P : Params} {fDisablePOW : Bool}

theorem required_target {branch : List CBlockIndex} {fProofOfStake : Bool} {nBlockTime nBits : Nat}
    (hnext : getNextTargetRequired P fDisablePOW branch fProofOfStake nBlockTime = some nBits) :
    ∃ n, nextTarget P fDisablePOW branch fProofOfStake nBlockTime = some n ∧ n.bits = nBits := by
  rw [getNextTargetRequired_eq] at hnext
  exact Option.map_eq_some_iff.mp hnext

theorem Retargeted.target_pos {branch : List CBlockIndex} (h : Retargeted P branch) :
    ∀ b ∈ branch, (0 : Int) < CBigNum.setCompact b.nBits := by
  induction branch with
  | nil =>
    intro b hb
    cases hb
  | cons c rest ih =>
    intro b hb
    cases rest with
    | nil =>
      obtain rfl := List.mem_singleton.mp hb
      have hbits : b.nBits = CBigNum.getCompact P.bnProofOfWorkLimit := h
      have husual : (NextTarget.easiest P.bnProofOfWorkLimit).Usual := bnProofOfWorkLimit_usual
      rw [hbits]
      exact husual.target_pos
    | cons prev rest =>
      obtain ⟨⟨fDisablePOW, hnext⟩, hrest⟩ := h
      rcases List.mem_cons.mp hb with rfl | hb
      · obtain ⟨n, hn, hbits⟩ := required_target hnext
        rw [← hbits]
        exact (nextTarget_usual hn).1.target_pos
      · exact ih hrest b hb

theorem skipBack_suffix (skip : CBlockIndex → Bool) (branch : List CBlockIndex) : skipBack skip branch <:+ branch := by
  fun_induction skipBack skip branch with
  | case1 b prev rest hskip ih => exact ih.trans (List.suffix_cons b (prev :: rest))
  | case2 b prev rest hskip => exact List.suffix_refl _
  | case3 branch hbranch => exact List.suffix_refl _

theorem floodBase_mem {checkpoint : List CBlockIndex} {fProofOfStake : Bool} {nBlockTime : Nat} {base : CBlockIndex}
    (hbase : floodBase checkpoint fProofOfStake nBlockTime = some base) : base ∈ checkpoint := by
  unfold floodBase at hbase
  split at hbase
  · obtain ⟨branch, hbranch, hhead⟩ := Option.bind_eq_some_iff.mp hbase
    have hsuffix : branch <:+ checkpoint := by
      unfold getLastBlockIndex2 at hbranch
      split at hbranch
      · cases hbranch
      · split at hbranch
        · obtain rfl := Option.some.inj hbranch
          exact skipBack_suffix _ _
        · obtain rfl := Option.some.inj hbranch
          exact (skipBack_suffix _ _).trans (skipBack_suffix _ _)
    exact hsuffix.subset (List.mem_of_head? hhead)
  · exact (skipBack_suffix _ _).subset (List.mem_of_head? hbase)

/-! ## The bound and the required target -/

/-- The target of the checkpoint's block, doubled once and for every day
begun since the checkpoint. -/
def allowance (pcheckpoint base : CBlockIndex) (nBlockTime : Nat) : Nat :=
  (CBigNum.setCompact base.nBits).toNat * 2 * 2 ^ daysBegun (nBlockTime - pcheckpoint.nTime)

/-- The least number whose compact form is beyond the allowance. -/
def beyond (pcheckpoint base : CBlockIndex) (nBlockTime : Nat) : Int :=
  (rounded (allowance pcheckpoint base nBlockTime) + unit (allowance pcheckpoint base nBlockTime) : Nat)

/-- **The bound holds the required target** exactly where the allowance is as
easy as the limit of the kind, or the last step eases no further than the
allowance: the days since the checkpoint count, and a step knows only the
spacing of the last two blocks. -/
theorem floodBound_holds_iff {pcheckpoint base : CBlockIndex} {branch rest : List CBlockIndex} {fProofOfStake : Bool}
    {nBlockTime nBits bnRequired : Nat} {n : NextTarget} (hchain : Retargeted P branch)
    (hcheckpoint : pcheckpoint :: rest <:+ branch)
    (hbase : floodBase (pcheckpoint :: rest) fProofOfStake nBlockTime = some base)
    (hn : nextTarget P fDisablePOW branch fProofOfStake nBlockTime = some n)
    (hnext : getNextTargetRequired P fDisablePOW branch fProofOfStake nBlockTime = some nBits)
    (hbound : floodBound P (pcheckpoint :: rest) fProofOfStake nBlockTime = some bnRequired) :
    CBigNum.setCompact nBits ≤ CBigNum.setCompact bnRequired ↔
      n.limit < beyond pcheckpoint base nBlockTime ∨ n.Eased (beyond pcheckpoint base nBlockTime) := by
  obtain ⟨husual, hlimit⟩ := nextTarget_usual hn
  have hpos := hchain.target_pos base (hcheckpoint.subset (floodBase_mem hbase))
  obtain ⟨x, hx⟩ : ∃ x : Nat, CBigNum.setCompact base.nBits = x :=
    ⟨_, (Int.toNat_of_nonneg (Int.le_of_lt hpos)).symm⟩
  rw [hx] at hpos
  rw [floodBound_eq hbase] at hbound
  obtain rfl := Option.some.inj hbound
  rw [getNextTargetRequired_eq, hn] at hnext
  obtain rfl := Option.some.inj hnext
  have hallowance : ((x : Int) * 2 * 2 ^ daysBegun (nBlockTime - pcheckpoint.nTime)) =
      (allowance pcheckpoint base nBlockTime : Nat) := by
    rw [allowance, hx, Int.toNat_natCast]
    push_cast
    rfl
  rw [computeMaxBits_target kindLimit_usual hx hpos, hallowance, ← hlimit]
  refine husual.target_le_iff ?_
  rw [allowance, hx, Int.toNat_natCast]
  have hpow := Nat.two_pow_pos (daysBegun (nBlockTime - pcheckpoint.nTime))
  exact Nat.mul_ne_zero (by omega) (by omega)

namespace Sample

/-- Ten flash-staked blocks after the genesis block; the first nine a second
apart, and the tenth a day later. -/
def lull : List CBlockIndex := [
  record 10 1486429209 520961261 true, record 9 1486342809 521150141 true, record 8 1486342808 521380142 true,
  record 7 1486342807 521660217 true, record 6 1486342806 522001268 true, record 5 1486342805 522416570 true,
  record 4 1486342804 522922288 true, record 3 1486342803 523538108 true, record 2 1486342802 524287999 true,
  record 1 1486342801 524287999 true, record 0 1486329989 504365055 false]

theorem lull_retargeted : Retargeted (params false) lull :=
  ⟨⟨false, by decide +kernel⟩, ⟨false, by decide +kernel⟩, ⟨false, by decide +kernel⟩, ⟨false, by decide +kernel⟩,
    ⟨false, by decide +kernel⟩, ⟨false, by decide +kernel⟩, ⟨false, by decide +kernel⟩, ⟨false, by decide +kernel⟩,
    ⟨false, by decide +kernel⟩, ⟨false, by decide +kernel⟩, show _ = _ by decide +kernel⟩

theorem lull_admitted : Admitted lull :=
  ⟨rfl, by decide, rfl, by decide, rfl, by decide, rfl, by decide, rfl, by decide, rfl, by decide, rfl, by decide,
    rfl, by decide, rfl, by decide, rfl, by decide, rfl⟩

/-- The bound a second, or a day, after a checkpoint in this chain. -/
theorem lull_bound : floodBound (params false) lull true 1486429210 = some 523563956 ∧
    floodBound (params false) lull.tail true 1486429209 = some 524287999 := by
  constructor <;> decide +kernel

end Sample

/-- The bound holds the tenth block, with the checkpoint at the ninth. -/
theorem floodBound_holds_iff_sample :
    CBigNum.setCompact 520961261 ≤ CBigNum.setCompact 524287999 ∧
      ((NextTarget.step (Sample.flashStep 1 521150141)).limit <
          beyond (Sample.record 9 1486342809 521150141 true) (Sample.record 9 1486342809 521150141 true) 1486429209 ∨
        (NextTarget.step (Sample.flashStep 1 521150141)).Eased
          (beyond (Sample.record 9 1486342809 521150141 true) (Sample.record 9 1486342809 521150141 true) 1486429209)) := by
  have hiff := floodBound_holds_iff (P := Sample.params false) (Sample.lull_retargeted.2) (List.suffix_refl _)
    (show floodBase Sample.lull.tail true 1486429209 = some (Sample.record 9 1486342809 521150141 true) by decide +kernel)
    (show nextTarget (Sample.params false) false Sample.lull.tail true 1486429209 =
      some (.step (Sample.flashStep 1 521150141)) by rfl)
    (show getNextTargetRequired (Sample.params false) false Sample.lull.tail true 1486429209 = some 520961261 by
      decide +kernel) Sample.lull_bound.2
  exact ⟨by decide +kernel, hiff.mp (by decide +kernel)⟩

/-- **The required target is beyond the bound** one second after the tenth
block, with the checkpoint at that block. -/
theorem lull_refused : Retargeted (Sample.params false) Sample.lull ∧ Admitted Sample.lull ∧
    ∃ nBits bnRequired, getNextTargetRequired (Sample.params false) false Sample.lull true 1486429210 = some nBits ∧
      floodBound (Sample.params false) Sample.lull true 1486429210 = some bnRequired ∧
      CBigNum.setCompact bnRequired < CBigNum.setCompact nBits :=
  ⟨Sample.lull_retargeted, Sample.lull_admitted, 524287999, 523563956, by decide +kernel, Sample.lull_bound.1,
    by decide +kernel⟩

end Pinkcoin
