/-
What a day of blocks at target spacing pays, before and after proof-of-work
is switched off. The reward of a proof-of-stake block is then multiplied by
`16 / 10`, which is a division of integers.
-/
import Mathlib.Tactic.IntervalCases
import Pinkcoin.Target

namespace Pinkcoin

/-- The start of an hour of a day. -/
def hourTime (day hour : Nat) : Nat := day * 86400 + hour * 3600

/-- The spacing of proof-of-stake blocks. -/
def stakeSpacingAt (fDisablePOW : Bool) (nTime : Nat) : Int :=
  if isFlashStake nTime then nTargetSpacing_FlashStaking else stakeSpacing fDisablePOW

/-- The proof-of-stake subsidy of a day, hour by hour, when a block at `nTime`
pays `reward nTime`. -/
def stakeDay (fDisablePOW : Bool) (reward : Nat → Int) (day : Nat) : Int :=
  ((List.range 24).map fun hour =>
    3600 / stakeSpacingAt fDisablePOW (hourTime day hour) * reward (hourTime day hour)).sum

/-- The reward of a proof-of-stake block without proof-of-work, not
compensated for it. -/
def uncompensatedReward (nHeight nTime : Nat) : Int :=
  let nHalving := nHeight / nHalvingPoint / YEARLY_BLOCKCOUNT
  if 16240 ≤ nHeight then
    if isFlashStake nTime then 150 * COIN / 2 ^ nHalving else 100 * COIN / 2 ^ nHalving / 3
  else 0

/-- A day after `nTimeV231`. -/
def dayAfter (nHeight day : Nat) : Int := stakeDay true (fun nTime => getProofOfStakeReward true 0 0 nHeight nTime) day

/-- The same without the compensation. -/
def dayUncompensated (nHeight day : Nat) : Int := stakeDay true (fun nTime => uncompensatedReward nHeight nTime) day

/-- A day before `nTimeV231`, with its proof-of-work blocks. -/
def dayBefore (nHeight day : Nat) : Int :=
  86400 / nTargetSpacing * getProofOfWorkReward nHeight 0 +
    stakeDay false (fun nTime => getProofOfStakeReward false 0 0 nHeight nTime) day

/-- A day pays at least 1.6 times what it would pay without the compensation,
and at least 97% of what it paid before. -/
def Compensated (nHeight day : Nat) : Prop :=
  16 * dayUncompensated nHeight day ≤ 10 * dayAfter nHeight day ∧ 97 * dayBefore nHeight day ≤ 100 * dayAfter nHeight day

instance (nHeight day : Nat) : Decidable (Compensated nHeight day) := inferInstanceAs (Decidable (_ ∧ _))

/-- **The compensation is a multiplication by one.** -/
theorem getProofOfStakeReward_eq (nCoinAge nHeight nTime : Nat) :
    getProofOfStakeReward true nCoinAge 0 nHeight nTime = uncompensatedReward nHeight nTime := by
  have hone : (16 : Int) / 10 = 1 := by decide
  simp only [getProofOfStakeReward, uncompensatedReward, if_true, hone, mul_one, add_zero]

theorem dayAfter_eq (nHeight day : Nat) : dayAfter nHeight day = dayUncompensated nHeight day := by
  simp only [dayAfter, dayUncompensated, getProofOfStakeReward_eq]

theorem isFlashStake_hourTime (day : Nat) {hour : Nat} (h : hour < 24) :
    isFlashStake (hourTime day hour) = [15, 20, 1, 6].contains hour := by
  have hhour : hourTime day hour / 3600 % 24 = hour := by
    unfold hourTime
    omega
  rw [isFlashStake, hhour]

/-- Twenty hours of one reward, and four of another. -/
theorem stakeDay_eq {fDisablePOW : Bool} {reward : Nat → Int} {flash ordinary : Int}
    (h : ∀ nTime, reward nTime = if isFlashStake nTime then flash else ordinary) (day : Nat) :
    stakeDay fDisablePOW reward day =
      20 * (3600 / stakeSpacing fDisablePOW * ordinary) + 4 * (3600 / (nTargetSpacing_FlashStaking : Int) * flash) := by
  have hhour : ∀ hour ∈ List.range 24, 3600 / stakeSpacingAt fDisablePOW (hourTime day hour) * reward (hourTime day hour) =
      if [15, 20, 1, 6].contains hour then 3600 / (nTargetSpacing_FlashStaking : Int) * flash
        else 3600 / stakeSpacing fDisablePOW * ordinary := by
    intro hour hmem
    rw [h, stakeSpacingAt, isFlashStake_hourTime day (List.mem_range.mp hmem)]
    split <;> rfl
  rw [stakeDay, List.map_congr_left hhour]
  generalize 3600 / (nTargetSpacing_FlashStaking : Int) * flash = a
  generalize 3600 / stakeSpacing fDisablePOW * ordinary = b
  simp only [List.range_succ, List.range_zero, List.nil_append, List.cons_append, List.map_cons, List.map_nil, List.sum_cons,
    List.sum_nil]
  norm_num
  omega

/-- The halvings of a height. -/
def halvings (nHeight : Nat) : Nat := nHeight / nHalvingPoint / YEARLY_BLOCKCOUNT

section

variable {nHeight : Nat} (h : 17000 ≤ nHeight) (day : Nat)

include h

theorem getProofOfWorkReward_halved : getProofOfWorkReward nHeight 0 = 50 * COIN / 2 ^ halvings nHeight := by
  rw [getProofOfWorkReward, if_pos h, add_zero, halvings]

theorem dayUncompensated_eq : dayUncompensated nHeight day =
    600 * (100 * COIN / 2 ^ halvings nHeight / 3) + 240 * (150 * COIN / 2 ^ halvings nHeight) := by
  have hreward : ∀ nTime, uncompensatedReward nHeight nTime =
      if isFlashStake nTime then 150 * COIN / 2 ^ halvings nHeight else 100 * COIN / 2 ^ halvings nHeight / 3 := fun nTime => by
    rw [uncompensatedReward, if_pos (by omega), halvings]
  have hordinary : (3600 : Int) / stakeSpacing true = 30 := by decide
  have hflash : (3600 : Int) / nTargetSpacing_FlashStaking = 60 := by decide
  rw [dayUncompensated, stakeDay_eq hreward, hordinary, hflash]
  omega

theorem dayBefore_eq : dayBefore nHeight day = 720 * (50 * COIN / 2 ^ halvings nHeight) +
    200 * (100 * COIN / 2 ^ halvings nHeight) + 240 * (150 * COIN / 2 ^ halvings nHeight) := by
  have hreward : ∀ nTime, getProofOfStakeReward false 0 0 nHeight nTime =
      if isFlashStake nTime then 150 * COIN / 2 ^ halvings nHeight else 100 * COIN / 2 ^ halvings nHeight := fun nTime => by
    simp only [getProofOfStakeReward, if_pos (show 16240 ≤ nHeight by omega), Bool.false_eq_true, if_false, add_zero, halvings]
  have hwork : (86400 : Int) / nTargetSpacing = 720 := by decide
  have hordinary : (3600 : Int) / stakeSpacing false = 10 := by decide
  have hflash : (3600 : Int) / nTargetSpacing_FlashStaking = 60 := by decide
  rw [dayBefore, stakeDay_eq hreward, hwork, hordinary, hflash, getProofOfWorkReward_halved h]
  omega

/-- **A day pays nothing for the proof-of-work blocks it has lost**, at any
height and on any day, as long as the halved subsidies are at least a coin. -/
theorem not_compensated (hcoin : COIN ≤ getProofOfWorkReward nHeight 0) :
    ¬ 16 * dayUncompensated nHeight day ≤ 10 * dayAfter nHeight day ∧
      ¬ 97 * dayBefore nHeight day ≤ 100 * dayAfter nHeight day := by
  rw [dayAfter_eq, dayUncompensated_eq h, dayBefore_eq h]
  rw [getProofOfWorkReward_halved h] at hcoin
  have hfew : halvings nHeight < 6 := by
    by_contra hmany
    have hpow : (2 : Int) ^ 6 ≤ 2 ^ halvings nHeight := pow_le_pow_right₀ (by norm_num) (by omega)
    have hle : 50 * COIN / 2 ^ halvings nHeight * 2 ^ 6 ≤ 50 * COIN :=
      (mul_le_mul_of_nonneg_left hpow (le_trans (by decide) hcoin)).trans (Int.ediv_mul_le _ (by positivity))
    have hlt : 50 * COIN < COIN * 2 ^ 6 := by decide
    omega
  unfold COIN
  generalize halvings nHeight = n at hfew
  interval_cases n <;> norm_num

end

/-- A height of the first halving, on the first day after `nTimeV231`. -/
theorem not_compensated_sample : ¬ 16 * dayUncompensated 900000 18118 ≤ 10 * dayAfter 900000 18118 ∧
    ¬ 97 * dayBefore 900000 18118 ≤ 100 * dayAfter 900000 18118 :=
  not_compensated (by decide) 18118 (by decide)

/-- **Sixteen tenths are one.** -/
theorem not_compensated_first : ¬ Compensated 900000 18118 := by decide +kernel

end Pinkcoin
