/-
The target after a block that came too fast, from height 817990 on. What the
timestamp rules admit reaches from before the parent's time to long after it.
-/
import Pinkcoin.AcceptBlock
import Pinkcoin.Retarget.Step

namespace Pinkcoin

/-! ## The step of a block -/

section Input

variable (P : Params) (fDisablePOW : Bool)

/-- What `GetNextTargetRequiredV2` retargets from. -/
def inputV2 (branch : List CBlockIndex) (fProofOfStake : Bool) (nBlockTime : Nat) : Option RetargetStep := do
  let prevBranch := getLastBlockIndex fProofOfStake branch
  if fProofOfStake then
    let fFlashStake := isFlashStake nBlockTime
    let sameAlgo ← getLastBlockIndex2 fFlashStake prevBranch
    let pPrevSameAlgo ← sameAlgo.head?
    let prevSameAlgo ← getLastBlockIndex2 fFlashStake sameAlgo.tail
    let pPrevPrevSameAlgo ← prevSameAlgo.head?
    let nActualSpacing : Int := (pPrevSameAlgo.nTime - pPrevPrevSameAlgo.nTime : Int).tmod 3600
    if fFlashStake then
      some ⟨bnProofOfFlashStakeLimit, pPrevSameAlgo.nBits, nFlashStakeTargetTimespan, nTargetSpacing_FlashStaking,
        nActualSpacing⟩
    else
      some ⟨bnProofOfStakeLimit, pPrevSameAlgo.nBits, nStakeTargetTimespan, stakeSpacing fDisablePOW, nActualSpacing⟩
  else
    let pindexPrev ← prevBranch.head?
    let pindexPrevPrev ← (getLastBlockIndex false prevBranch.tail).head?
    some ⟨P.bnProofOfWorkLimit, pindexPrev.nBits, nTargetTimespan, nTargetSpacing,
      pindexPrev.nTime - pindexPrevPrev.nTime⟩

theorem getNextTargetRequiredV2_eq (branch : List CBlockIndex) (fProofOfStake : Bool) (nBlockTime : Nat) :
    getNextTargetRequiredV2 P fDisablePOW branch fProofOfStake nBlockTime =
      (inputV2 P fDisablePOW branch fProofOfStake nBlockTime).map RetargetStep.required := by
  unfold getNextTargetRequiredV2 inputV2
  cases fProofOfStake with
  | false => simp [Option.map_bind, Function.comp_def, RetargetStep.required]
  | true => simp [Option.map_bind, Function.comp_def, apply_ite, RetargetStep.required]

variable {P fDisablePOW}

theorem RetargetStep.usual_of {bnTargetLimit nTimespan nTS nActualSpacing : Int} {nBits : Nat}
    (hlimit : 0 < bnTargetLimit ∧ bnTargetLimit < 2 ^ 256) (hnTS : 0 < nTS) (hnTimespan : 0 < nTimespan)
    (hdvd : nTS ∣ nTimespan) : RetargetStep.Usual ⟨bnTargetLimit, nBits, nTimespan, nTS, nActualSpacing⟩ where
  limit := hlimit
  nTS := hnTS
  nTimespan := hnTimespan
  total := by
    show (nTimespan / nTS + 1) * nTS = nTimespan + nTS
    rw [Int.add_mul, Int.ediv_mul_cancel hdvd, Int.one_mul]
  weight := by
    show (nTimespan / nTS - 1) * nTS + nActualSpacing + nActualSpacing = nTimespan - nTS + 2 * nActualSpacing
    rw [Int.sub_mul, Int.ediv_mul_cancel hdvd, Int.one_mul]
    omega

theorem bnProofOfWorkLimit_usual : 0 < P.bnProofOfWorkLimit ∧ P.bnProofOfWorkLimit < 2 ^ 256 := by
  unfold Params.bnProofOfWorkLimit
  cases P.fTestNet <;> decide

theorem stakeSpacing_usual : 0 < stakeSpacing fDisablePOW ∧ stakeSpacing fDisablePOW ∣ nStakeTargetTimespan := by
  cases fDisablePOW <;> decide

/-- The steps of all three kinds of blocks are usual ones. -/
theorem inputV2_usual {branch : List CBlockIndex} {fProofOfStake : Bool} {nBlockTime : Nat} {r : RetargetStep}
    (hr : inputV2 P fDisablePOW branch fProofOfStake nBlockTime = some r) : r.Usual := by
  unfold inputV2 at hr
  cases fProofOfStake with
  | false =>
    simp only [Bool.false_eq_true, if_false, Option.bind_eq_bind, Option.bind_eq_some_iff, Option.some.injEq] at hr
    obtain ⟨pindexPrev, -, pindexPrevPrev, -, rfl⟩ := hr
    exact RetargetStep.usual_of bnProofOfWorkLimit_usual (by decide) (by decide) (by decide)
  | true =>
    simp only [if_true, Option.bind_eq_bind, Option.bind_eq_some_iff] at hr
    obtain ⟨sameAlgo, -, pPrevSameAlgo, -, prevSameAlgo, -, pPrevPrevSameAlgo, -, hr⟩ := hr
    split at hr
    · obtain rfl := Option.some.inj hr
      exact RetargetStep.usual_of (by decide) (by decide) (by decide) (by decide)
    · obtain rfl := Option.some.inj hr
      exact RetargetStep.usual_of (by decide) stakeSpacing_usual.1 (by decide) stakeSpacing_usual.2

end Input

/-! ## A chain the timestamp rules admit -/

/-- What `AcceptBlock` asks of a block's time: later than the median of the
blocks before it, and not more than ten minutes before its parent. -/
def TimestampOk (b prev : CBlockIndex) (rest : List CBlockIndex) : Prop :=
  getMedianTimePast (prev :: rest) < b.nTime ∧ (prev.nTime : Int) ≤ futureDrift b.nTime

instance (b prev : CBlockIndex) (rest : List CBlockIndex) : Decidable (TimestampOk b prev rest) :=
  inferInstanceAs (Decidable (_ ∧ _))

/-- A chain down to its first block, each block admitted after the blocks
before it. -/
def Admitted : List CBlockIndex → Prop
  | [] => True
  | [b] => b.nHeight = 0
  | b :: prev :: rest => b.nHeight = prev.nHeight + 1 ∧ TimestampOk b prev rest ∧ Admitted (prev :: rest)

/-- The median of times before `nTime` is before `nTime`. -/
theorem getMedianTimePast_lt {branch : List CBlockIndex} {nTime : Nat} (hpos : 0 < nTime)
    (hbefore : ∀ b ∈ branch, b.nTime < nTime) : getMedianTimePast branch < nTime := by
  unfold getMedianTimePast
  obtain ⟨pmedian, hpmedian⟩ : ∃ l, ((branch.take 11).map CBlockIndex.nTime).insertionSort (· ≤ ·) = l := ⟨_, rfl⟩
  have hmem : ∀ t ∈ pmedian, t < nTime := by
    intro t ht
    rw [← hpmedian, List.mem_insertionSort, List.mem_map] at ht
    obtain ⟨b, hb, rfl⟩ := ht
    exact hbefore b (List.mem_of_mem_take hb)
  simp only [hpmedian]
  cases hget : pmedian[pmedian.length / 2]? with
  | none => exact hpos
  | some t => exact hmem t (List.mem_of_getElem? hget)

namespace Sample

/-- The record of a block, as far as the targets and the timestamps go. -/
def record (nHeight nTime nBits : Nat) (fProofOfStake : Bool) : CBlockIndex where
  phashBlock := nHeight
  pprev := if nHeight = 0 then none else some (nHeight - 1)
  pnext := none
  nFile := 1
  nBlockPos := 0
  nChainTrust := 0
  nHeight := nHeight
  nMint := 0
  nMoneySupply := 0
  fProofOfStake := fProofOfStake
  fStakeEntropy := false
  fStakeModifier := false
  nStakeModifier := 0
  prevoutStake := COutPoint.null
  nStakeTime := 0
  hashProof := 0
  nVersion := 1
  hashMerkleRoot := 0
  nTime := nTime
  nBits := nBits
  nNonce := 0

/-- A chain of proof-of-stake blocks two minutes apart, all with one target. -/
def steady : Nat → List CBlockIndex
  | 0 => [record 0 1486473000 0x1c00ffff false]
  | n + 1 => record (n + 1) (1486473000 + 120 * (n + 1)) 0x1c00ffff true :: steady n

theorem steady_time {n : Nat} : ∀ b ∈ steady n, b.nTime ≤ 1486473000 + 120 * n := by
  induction n with
  | zero =>
    intro b hb
    obtain rfl := List.mem_singleton.mp hb
    exact Nat.le_refl _
  | succ n ih =>
    intro b hb
    rcases List.mem_cons.mp hb with rfl | hb
    · exact Nat.le_refl _
    · have hle := ih b hb
      omega

theorem steady_admitted (n : Nat) : Admitted (steady n) := by
  induction n with
  | zero => rfl
  | succ n ih =>
    have htimes := steady_time (n := n)
    cases n with
    | zero => exact ⟨rfl, by decide, ih⟩
    | succ n =>
      refine ⟨rfl, ⟨getMedianTimePast_lt (Nat.lt_of_lt_of_le (by decide) (Nat.le_add_right _ _)) ?_, ?_⟩, ih⟩
      · intro b hb
        have hle := htimes b hb
        show b.nTime < 1486473000 + 120 * (n + 1 + 1)
        omega
      · show ((1486473000 + 120 * (n + 1) : Nat) : Int) ≤ ((1486473000 + 120 * (n + 1 + 1) : Nat) : Int) + 10 * 60
        omega

/-- The last of the steady blocks comes at half past three in the afternoon,
in an hour of flash staking; the block after it is five minutes before it. -/
def hasty : List CBlockIndex := record 817991 1584631500 0x1c00ffff true :: steady 817990

/-- The block after it is half a minute after it. -/
def prompt : List CBlockIndex := record 817991 1584631830 0x1c00ffff true :: steady 817990

theorem steady_eq (n : Nat) : steady (n + 1) = record (n + 1) (1486473000 + 120 * (n + 1)) 0x1c00ffff true :: steady n := rfl

theorem steady_top : steady 817990 =
    [record 817990 1584631800 0x1c00ffff true, record 817989 1584631680 0x1c00ffff true,
      record 817988 1584631560 0x1c00ffff true, record 817987 1584631440 0x1c00ffff true,
      record 817986 1584631320 0x1c00ffff true, record 817985 1584631200 0x1c00ffff true,
      record 817984 1584631080 0x1c00ffff true, record 817983 1584630960 0x1c00ffff true,
      record 817982 1584630840 0x1c00ffff true, record 817981 1584630720 0x1c00ffff true,
      record 817980 1584630600 0x1c00ffff true] ++ steady 817979 := by
  simp only [steady_eq 817989, steady_eq 817988, steady_eq 817987, steady_eq 817986, steady_eq 817985,
    steady_eq 817984, steady_eq 817983, steady_eq 817982, steady_eq 817981, steady_eq 817980, steady_eq 817979]
  rfl

theorem steady_median : getMedianTimePast (steady 817990) < 1584631500 := by
  unfold getMedianTimePast
  rw [steady_top, List.take_append_of_le_length (by decide)]
  decide

theorem hasty_admitted : Admitted hasty := by
  have hchain := steady_admitted 817990
  have hmedian := steady_median
  unfold hasty
  rw [steady_eq 817989] at hchain hmedian ⊢
  exact ⟨rfl, ⟨hmedian, by decide⟩, hchain⟩

/-- A step of flash staking. -/
def flashStep (nActualSpacing : Int) (nBits : Nat) : RetargetStep :=
  ⟨bnProofOfFlashStakeLimit, nBits, nFlashStakeTargetTimespan, nTargetSpacing_FlashStaking, nActualSpacing⟩

theorem flashStep_input : inputV2 (params false) true hasty true 1584631860 = some (flashStep (-300) 0x1c00ffff) ∧
    inputV2 (params false) true prompt true 1584631860 = some (flashStep 30 0x1c00ffff) := by
  unfold hasty prompt
  rw [steady_eq 817989, steady_eq 817988]
  exact ⟨rfl, rfl⟩

end Sample

/-! ## After a fast block -/

/-- **A fast block does not ease the target** exactly where the product of
the target before and its weight reaches the total, or nothing is easier than
the target before. A negative spacing can make the weight negative. -/
theorem getNextTargetRequiredV2_le_iff {P : Params} {fDisablePOW : Bool} {branch : List CBlockIndex}
    {fProofOfStake : Bool} {nBlockTime nBits : Nat} {r : RetargetStep}
    (hr : inputV2 P fDisablePOW branch fProofOfStake nBlockTime = some r)
    (hnext : getNextTargetRequiredV2 P fDisablePOW branch fProofOfStake nBlockTime = some nBits)
    (hfast : r.nActualSpacing ≤ r.nTS) : CBigNum.setCompact nBits ≤ CBigNum.setCompact r.nBits ↔ r.Counts := by
  rw [getNextTargetRequiredV2_eq, hr] at hnext
  obtain rfl := Option.some.inj hnext
  exact (inputV2_usual hr).le_iff hfast

/-- Where the spacing is half of what it should be, it does not. -/
theorem getNextTargetRequiredV2_le_iff_sample :
    (CBigNum.setCompact (Sample.flashStep 30 0x1c00ffff).required ≤
        CBigNum.setCompact (Sample.flashStep 30 0x1c00ffff).nBits ↔ (Sample.flashStep 30 0x1c00ffff).Counts) ∧ (Sample.flashStep 30 0x1c00ffff).Counts := by
  have hnext : getNextTargetRequiredV2 (Sample.params false) true Sample.prompt true 1584631860 =
      some (Sample.flashStep 30 0x1c00ffff).required := by
    rw [getNextTargetRequiredV2_eq, Sample.flashStep_input.2, Option.map_some]
  exact ⟨getNextTargetRequiredV2_le_iff Sample.flashStep_input.2 hnext (by decide), by decide +kernel⟩

/-- **The easiest target after a block five minutes before its parent.** -/
theorem hasty_eased : Admitted Sample.hasty ∧
    ∃ r nBits, inputV2 (Sample.params false) true Sample.hasty true 1584631860 = some r ∧
      getNextTargetRequiredV2 (Sample.params false) true Sample.hasty true 1584631860 = some nBits ∧
      r.nActualSpacing ≤ r.nTS ∧ CBigNum.setCompact r.nBits < CBigNum.setCompact nBits := by
  refine ⟨Sample.hasty_admitted, Sample.flashStep (-300) 0x1c00ffff, (Sample.flashStep (-300) 0x1c00ffff).required,
    Sample.flashStep_input.1, ?_, by decide, by decide +kernel⟩
  rw [getNextTargetRequiredV2_eq, Sample.flashStep_input.1, Option.map_some]

end Pinkcoin
