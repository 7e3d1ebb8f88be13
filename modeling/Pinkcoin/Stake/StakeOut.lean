/-
Sharing a stake: the addresses that get a percentage of every reward, the
outputs that `AggregateStakeOut` appends for them, and `CountStakeOut`, which
counts them again by a rule of its own.
-/
import Mathlib.Data.Int.Log
import Mathlib.Data.Rat.Floor
import Pinkcoin.Solver

namespace Pinkcoin

open CScript

/-! ## Floating point -/

/-- The nearest integer, of two the even one. -/
def roundHalfEven (q : ℚ) : Int :=
  let r := q - ⌊q⌋
  if r < 1 / 2 then ⌊q⌋ else if 1 / 2 < r then ⌊q⌋ + 1 else if ⌊q⌋ % 2 = 0 then ⌊q⌋ else ⌊q⌋ + 1

/-- The `double` nearest to a number. None here is large enough to overflow. -/
def toDouble (q : ℚ) : ℚ :=
  if q = 0 then 0
  else
    let ulp : ℚ := 2 ^ max (Int.log 2 |q| - 52) (-1074)
    roundHalfEven (q / ulp) * ulp

/-- The conversion of a `double` to an integer. -/
def truncate (q : ℚ) : Int := if 0 ≤ q then ⌊q⌋ else ⌈q⌉

/-! ## The table -/

/-- An entry of `mapAddressPercent`: what the address stands for, which is
nothing for one that is not valid, and what `atof` makes of the percentage. -/
structure StakeOut where
  stakeOutAddress : Option CTxDestination
  nPercent : ℚ

/-- `nRewardPC`: the share of a percentage. -/
def rewardPC (nReward : Int) (nPercent : ℚ) : Int := truncate (toDouble (toDouble (toDouble nReward * nPercent) / 100))

/-- `SetDestination`. -/
def setDestination : CTxDestination → CScript
  | .keyID id => payToKeyID id
  | .scriptID id => [UInt8.ofNat OP_HASH160] ++ push id.toList ++ [UInt8.ofNat OP_EQUAL]

/-- The loop of `AggregateStakeOut`: the total of the shares, and the outputs
with theirs. -/
def aggregateLoop (nReward : Int) : List StakeOut → ℚ → Int → List CTxOut → Int × List CTxOut
  | [], _, nRewardPCTotal, vout => (nRewardPCTotal, vout)
  | ⟨none, _⟩ :: rest, percentTotal, nRewardPCTotal, vout => aggregateLoop nReward rest percentTotal nRewardPCTotal vout
  | ⟨some dest, nPercent⟩ :: rest, percentTotal, nRewardPCTotal, vout =>
    if 0 < nPercent ∧ nPercent ≤ 100 then
      let percentTotal := toDouble (percentTotal + nPercent)
      if percentTotal ≤ 100 then
        let nRewardPC := rewardPC nReward nPercent
        aggregateLoop nReward rest percentTotal (nRewardPCTotal + nRewardPC) (vout ++ [⟨nRewardPC, setDestination dest⟩])
      else aggregateLoop nReward rest (toDouble (percentTotal - nPercent)) nRewardPCTotal vout
    else aggregateLoop nReward rest percentTotal nRewardPCTotal vout

/-- `AggregateStakeOut`. -/
def aggregateStakeOut (mapAddressPercent : List StakeOut) (vout : List CTxOut) (nReward : Int) : Int × List CTxOut :=
  aggregateLoop nReward mapAddressPercent 0 0 vout

/-- The loop of `CountStakeOut`. A percentage that does not fit stays in the
total. -/
def countLoop : List StakeOut → ℚ → Nat → Nat
  | [], _, countOut => countOut
  | ⟨none, _⟩ :: rest, percentTotal, countOut => countLoop rest percentTotal countOut
  | ⟨some _, nPercent⟩ :: rest, percentTotal, countOut =>
    if 0 < nPercent ∧ nPercent ≤ 100 then
      let percentTotal := toDouble (percentTotal + nPercent)
      countLoop rest percentTotal (if percentTotal ≤ 100 then countOut + 1 else countOut)
    else countLoop rest percentTotal countOut

/-- `CountStakeOut`. -/
def countStakeOut (mapAddressPercent : List StakeOut) : Nat := countLoop mapAddressPercent 0 0

/-! ## What is appended -/

/-- The entries whose percentages fit, after those before them in the order of
the table. -/
def acceptedFrom : List StakeOut → ℚ → List (CTxDestination × ℚ)
  | [], _ => []
  | ⟨none, _⟩ :: rest, percentTotal => acceptedFrom rest percentTotal
  | ⟨some dest, nPercent⟩ :: rest, percentTotal =>
    if 0 < nPercent ∧ nPercent ≤ 100 then
      let percentTotal := toDouble (percentTotal + nPercent)
      if percentTotal ≤ 100 then (dest, nPercent) :: acceptedFrom rest percentTotal
      else acceptedFrom rest (toDouble (percentTotal - nPercent))
    else acceptedFrom rest percentTotal

/-- The accepted addresses, each with its percentage. -/
def accepted (mapAddressPercent : List StakeOut) : List (CTxDestination × ℚ) := acceptedFrom mapAddressPercent 0

/-- The output of an accepted address. -/
def shareOut (nReward : Int) (share : CTxDestination × ℚ) : CTxOut := ⟨rewardPC nReward share.2, setDestination share.1⟩

/-- The sum of the values of some outputs. -/
def valueOf (vout : List CTxOut) : Int := (vout.map CTxOut.nValue).sum

theorem aggregateLoop_eq (nReward : Int) (table : List StakeOut) : ∀ percentTotal nRewardPCTotal vout,
    aggregateLoop nReward table percentTotal nRewardPCTotal vout =
      (nRewardPCTotal + valueOf ((acceptedFrom table percentTotal).map (shareOut nReward)),
        vout ++ (acceptedFrom table percentTotal).map (shareOut nReward)) := by
  induction table with
  | nil => simp [aggregateLoop, acceptedFrom, valueOf]
  | cons entry rest ih =>
    intro percentTotal nRewardPCTotal vout
    obtain ⟨stakeOutAddress, nPercent⟩ := entry
    cases stakeOutAddress with
    | none => exact ih _ _ _
    | some dest =>
      rw [aggregateLoop, acceptedFrom]
      by_cases hpercent : 0 < nPercent ∧ nPercent ≤ 100
      · rw [if_pos hpercent, if_pos hpercent]
        by_cases htotal : toDouble (percentTotal + nPercent) ≤ 100
        · simp only [if_pos htotal, ih, List.map_cons, List.append_assoc, List.singleton_append]
          simp [shareOut, valueOf, add_assoc]
        · simp only [if_neg htotal, ih]
      · rw [if_neg hpercent, if_neg hpercent]
        exact ih _ _ _

/-- **What `AggregateStakeOut` appends**: for each accepted address an output
with its share. -/
theorem aggregateStakeOut_eq (table : List StakeOut) (vout : List CTxOut) (nReward : Int) :
    aggregateStakeOut table vout nReward =
      (valueOf ((accepted table).map (shareOut nReward)), vout ++ (accepted table).map (shareOut nReward)) := by
  rw [aggregateStakeOut, aggregateLoop_eq, zero_add, accepted]

end Pinkcoin
