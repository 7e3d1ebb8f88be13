/-
Choosing coins to spend: an exact coin, all the small ones, the next larger
one, or a subset of the small ones found by trying at random.
-/
import Mathlib.Algebra.BigOperators.Group.Finset.Basic
import Mathlib.Algebra.Order.BigOperators.Group.Finset
import Mathlib.Algebra.Order.BigOperators.Group.List
import Mathlib.Algebra.Order.Group.Int
import Mathlib.Data.List.Sort
import Pinkcoin.AcceptBlock
import Pinkcoin.Lib.Picked

namespace Pinkcoin

open Picked (picked)

/-! ## Coins -/

/-- An output of a wallet transaction (the pointer is the hash it is under),
and its depth. -/
structure COutput where
  tx : Uint256
  i : Nat
  nDepth : Int
  deriving DecidableEq, Repr

/-- What is put into a set of coins: the transaction and the index. -/
def COutput.coin (out : COutput) : COutPoint := ⟨out.tx, out.i⟩

namespace CWallet

variable (P : Params) (w : CWallet)

/-- `pcoin->vout[i].nValue`. -/
def valueAt (o : COutPoint) : Int :=
  (((w.mapWallet.lookup o.hash).bind fun pcoin => pcoin.tx.vout[o.n]?).map CTxOut.nValue).getD 0

/-- `pcoin->IsFromMe()`. -/
def coinIsFromMe (out : COutput) : Bool := ((w.mapWallet.lookup out.tx).map fun pcoin => w.isFromMe P pcoin.tx).getD false

/-- `pcoin->nTime`. -/
def coinTime (out : COutput) : Nat := ((w.mapWallet.lookup out.tx).map fun pcoin => pcoin.tx.nTime).getD 0

/-- A coin that is deep enough, and not later than the spending. -/
def Eligible (nSpendTime : Nat) (nConfMine nConfTheirs : Int) (out : COutput) : Prop :=
  ¬ out.nDepth < (if w.coinIsFromMe P out then nConfMine else nConfTheirs) ∧ ¬ nSpendTime < w.coinTime out

instance (nSpendTime : Nat) (nConfMine nConfTheirs : Int) (out : COutput) :
    Decidable (w.Eligible P nSpendTime nConfMine nConfTheirs out) := inferInstanceAs (Decidable (_ ∧ _))

end CWallet

/-! ## ApproximateBestSubset -/

/-- The variables of `ApproximateBestSubset`. -/
structure SubsetSearch where
  vfIncluded : List Bool
  nTotal : Int
  fReachedTarget : Bool
  vfBest : List Bool
  nBest : Int

namespace SubsetSearch

variable (vValue : List (Int × COutPoint)) (nTargetValue : Int)

/-- In the first pass a coin is taken by chance (`rand() % 2`), in the second
when it is not in. -/
def takes (nPass : Nat) (rand : Nat → Bool) (s : SubsetSearch) (i : Nat) : Bool :=
  if nPass = 0 then rand i else decide (s.vfIncluded[i]? = some false)

/-- The body of the inner loop. -/
def step (nPass : Nat) (rand : Nat → Bool) (s : SubsetSearch) (i : Nat) : SubsetSearch :=
  match vValue[i]? with
  | none => s
  | some (n, _) =>
    if s.takes nPass rand i then
      let nTotal := s.nTotal + n
      let vfIncluded := s.vfIncluded.set i true
      if nTargetValue ≤ nTotal then
        { vfIncluded := vfIncluded.set i false
          nTotal := nTotal - n
          fReachedTarget := true
          vfBest := if nTotal < s.nBest then vfIncluded else s.vfBest
          nBest := if nTotal < s.nBest then nTotal else s.nBest }
      else { s with vfIncluded := vfIncluded, nTotal := nTotal }
    else s

def pass (nPass : Nat) (rand : Nat → Bool) (s : SubsetSearch) : SubsetSearch :=
  (List.range vValue.length).foldl (step vValue nTargetValue nPass rand) s

/-- One repetition: a second pass where the first did not reach the target. -/
def repetition (rand : Nat → Bool) (s : SubsetSearch) : SubsetSearch :=
  let s := { s with vfIncluded := List.replicate vValue.length false, nTotal := 0, fReachedTarget := false }
  let s := pass vValue nTargetValue 0 rand s
  if s.fReachedTarget then s else pass vValue nTargetValue 1 rand s

/-- The outer loop, with the number of repetitions that are left. -/
def loop (rand : Nat → Nat → Bool) : Nat → Nat → SubsetSearch → SubsetSearch
  | 0, _, s => s
  | left + 1, nRep, s =>
    if s.nBest = nTargetValue then s else loop rand left (nRep + 1) (repetition vValue nTargetValue (rand nRep) s)

end SubsetSearch

/-- `ApproximateBestSubset`: which coins to take, and their sum. -/
def approximateBestSubset (vValue : List (Int × COutPoint)) (nTotalLower nTargetValue : Int) (rand : Nat → Nat → Bool)
    (iterations : Nat) : List Bool × Int :=
  let s := SubsetSearch.loop vValue nTargetValue rand iterations 0
    { vfIncluded := [], nTotal := 0, fReachedTarget := false
      vfBest := List.replicate vValue.length true, nBest := nTotalLower }
  (s.vfBest, s.nBest)

/-! ## SelectCoinsMinConf -/

/-- `setCoinsRet` and `nValueRet`. -/
structure Selection where
  setCoins : Finset COutPoint
  nValue : Int

namespace Selection

def empty : Selection := ⟨∅, 0⟩

/-- A coin is put in and counted. -/
def add (s : Selection) (coin : Int × COutPoint) : Selection := ⟨insert coin.2 s.setCoins, s.nValue + coin.1⟩

end Selection

/-- What chance decides: the order in which `random_shuffle` leaves the coins,
the order of coins of one value after `sort`, and the draws of the two calls
of `ApproximateBestSubset`. -/
structure Draws where
  shuffle : List COutput → List COutput
  shuffle_perm : ∀ l, (shuffle l).Perm l
  sort : List (Int × COutPoint) → List (Int × COutPoint)
  sort_perm : ∀ l, (sort l).Perm l
  sort_sorted : ∀ l, (sort l).Pairwise fun a b => b.1 ≤ a.1
  rand : Nat → Nat → Nat → Bool

/-- The variables of the loop over the coins. -/
structure Gathered where
  vValue : List (Int × COutPoint)
  nTotalLower : Int
  coinLowestLarger : Option (Int × COutPoint)

namespace CWallet

variable (P : Params) (w : CWallet)

/-- `std::numeric_limits<int64_t>::max()`. -/
def maxInt64 : Int := 2 ^ 63 - 1

/-- The loop over the shuffled coins. It ends with a coin of exactly the
value, if it meets one. -/
def gather (nTargetValue : Int) (nSpendTime : Nat) (nConfMine nConfTheirs : Int) :
    List COutput → Gathered → Except (Int × COutPoint) Gathered
  | [], g => pure g
  | output :: vCoins, g =>
    if output.nDepth < (if w.coinIsFromMe P output then nConfMine else nConfTheirs) then
      gather nTargetValue nSpendTime nConfMine nConfTheirs vCoins g
    else if nSpendTime < w.coinTime output then gather nTargetValue nSpendTime nConfMine nConfTheirs vCoins g
    else
      let n := w.valueAt output.coin
      if n = nTargetValue then throw (n, output.coin)
      else if n < nTargetValue + CENT then
        gather nTargetValue nSpendTime nConfMine nConfTheirs vCoins
          { g with vValue := g.vValue ++ [(n, output.coin)], nTotalLower := g.nTotalLower + n }
      else if n < (g.coinLowestLarger.map Prod.fst).getD maxInt64 then
        gather nTargetValue nSpendTime nConfMine nConfTheirs vCoins { g with coinLowestLarger := some (n, output.coin) }
      else gather nTargetValue nSpendTime nConfMine nConfTheirs vCoins g

/-- `SelectCoinsMinConf` after the loop over the coins. -/
def choose (d : Draws) (nTargetValue : Int) (g : Gathered) : Bool × Selection :=
  if g.nTotalLower = nTargetValue then (true, g.vValue.foldl Selection.add .empty)
  else if g.nTotalLower < nTargetValue then
    match g.coinLowestLarger with
    | none => (false, .empty)
    | some coin => (true, Selection.empty.add coin)
  else
    let vValue := d.sort g.vValue
    let (vfBest, nBest) := approximateBestSubset vValue g.nTotalLower nTargetValue (d.rand 0) 1000
    let (vfBest, nBest) :=
      if nBest ≠ nTargetValue ∧ nTargetValue + CENT ≤ g.nTotalLower then
        approximateBestSubset vValue g.nTotalLower (nTargetValue + CENT) (d.rand 1) 1000
      else (vfBest, nBest)
    -- a bigger coin, where no good subset was found or the coin is closer
    match g.coinLowestLarger with
    | some coin =>
      if (nBest ≠ nTargetValue ∧ nBest < nTargetValue + CENT) ∨ coin.1 ≤ nBest then (true, Selection.empty.add coin)
      else (true, (picked vfBest vValue).foldl Selection.add .empty)
    | none => (true, (picked vfBest vValue).foldl Selection.add .empty)

/-- `SelectCoinsMinConf`. -/
def selectCoinsMinConf (d : Draws) (nTargetValue : Int) (nSpendTime : Nat) (nConfMine nConfTheirs : Int)
    (vCoins : List COutput) : Bool × Selection :=
  match w.gather P nTargetValue nSpendTime nConfMine nConfTheirs (d.shuffle vCoins) ⟨[], 0, none⟩ with
  | .error coin => (true, Selection.empty.add coin)
  | .ok g => choose d nTargetValue g

end CWallet

/-! ## The search -/

namespace SubsetSearch

variable {vValue : List (Int × COutPoint)} {nTargetValue : Int} {s : SubsetSearch} {rand : Nat → Bool} {nPass i : Nat}

/-- The sum of the coins that are picked. -/
def pickedSum (vValue : List (Int × COutPoint)) (flags : List Bool) : Int := ((picked flags vValue).map Prod.fst).sum

/-- There is a flag for each coin, `nTotal` and `nBest` are the sums of what
is in, and the best reaches the target. -/
structure Sound (vValue : List (Int × COutPoint)) (nTargetValue : Int) (s : SubsetSearch) : Prop where
  length : s.vfIncluded.length = vValue.length
  total : s.nTotal = pickedSum vValue s.vfIncluded
  best : s.nBest = pickedSum vValue s.vfBest
  enough : nTargetValue ≤ s.nBest

/-- A coin that is not in is taken, or taken and put back. -/
theorem sound_step (h : Sound vValue nTargetValue s)
    (hfree : s.takes nPass rand i → i < vValue.length → s.vfIncluded[i]? = some false) :
    Sound vValue nTargetValue (step vValue nTargetValue nPass rand s i) := by
  unfold step
  cases hcoin : vValue[i]? with
  | none => exact h
  | some coin =>
    obtain ⟨n, o⟩ := coin
    dsimp only
    by_cases htake : s.takes nPass rand i
    · have hflag := hfree htake (List.getElem?_eq_some_iff.mp hcoin).1
      have hsum : pickedSum vValue (s.vfIncluded.set i true) = s.nTotal + n := by
        rw [h.total]
        exact Picked.sum_picked_set Prod.fst hflag hcoin
      rw [if_pos htake]
      by_cases hreached : nTargetValue ≤ s.nTotal + n
      · rw [if_pos hreached]
        refine ⟨?_, ?_, ?_, ?_⟩
        · simp only [List.length_set]
          exact h.length
        · dsimp only
          rw [Picked.set_set_of_flag hflag, ← h.total]
          omega
        · dsimp only
          split
          · exact hsum.symm
          · exact h.best
        · dsimp only
          split
          · exact hreached
          · exact h.enough
      · rw [if_neg hreached]
        exact ⟨by simp only [List.length_set]; exact h.length, hsum.symm, h.best, h.enough⟩
    · rw [if_neg htake]
      exact h

/-- A step changes one flag. -/
theorem step_flag {j : Nat} (hne : i ≠ j) : (step vValue nTargetValue nPass rand s i).vfIncluded[j]? = s.vfIncluded[j]? := by
  unfold step
  cases vValue[i]? with
  | none => rfl
  | some coin =>
    dsimp only
    by_cases htake : s.takes nPass rand i
    · rw [if_pos htake]
      split
      · simp only [List.getElem?_set_ne hne]
      · simp only [List.getElem?_set_ne hne]
    · rw [if_neg htake]

/-- The first pass, from no coins: each flag is clear when its turn comes. -/
theorem sound_first (rand : Nat → Bool) (h : Sound vValue nTargetValue s) (hclear : ∀ j, j < vValue.length → s.vfIncluded[j]? = some false) :
    Sound vValue nTargetValue (pass vValue nTargetValue 0 rand s) := by
  have hrange : ∀ k, Sound vValue nTargetValue ((List.range k).foldl (step vValue nTargetValue 0 rand) s) ∧
      ∀ j, k ≤ j → j < vValue.length →
        ((List.range k).foldl (step vValue nTargetValue 0 rand) s).vfIncluded[j]? = some false := by
    intro k
    induction k with
    | zero => exact ⟨h, fun j _ hj => hclear j hj⟩
    | succ k ih =>
      obtain ⟨hsound, hlater⟩ := ih
      rw [List.range_succ, List.foldl_append, List.foldl_cons, List.foldl_nil]
      refine ⟨sound_step hsound fun _ hk => hlater k le_rfl hk, fun j hj hlt => ?_⟩
      rw [step_flag (by omega)]
      exact hlater j (by omega) hlt
  exact (hrange vValue.length).1

theorem sound_second (h : Sound vValue nTargetValue s) : Sound vValue nTargetValue (pass vValue nTargetValue 1 rand s) := by
  unfold pass
  generalize List.range vValue.length = indices
  induction indices generalizing s with
  | nil => exact h
  | cons i indices ih => exact ih (sound_step h fun htake _ => by simpa [takes] using htake)

theorem sound_repetition (rand : Nat → Bool) (hbest : s.nBest = pickedSum vValue s.vfBest) (henough : nTargetValue ≤ s.nBest) :
    Sound vValue nTargetValue (repetition vValue nTargetValue rand s) := by
  have hstart : Sound vValue nTargetValue
      { s with vfIncluded := List.replicate vValue.length false, nTotal := 0, fReachedTarget := false } := by
    refine ⟨List.length_replicate, ?_, hbest, henough⟩
    unfold pickedSum
    rw [Picked.picked_none]
    rfl
  have hfirst := sound_first rand hstart fun j hj => List.getElem?_replicate_of_lt hj
  unfold repetition
  dsimp only
  split
  · exact hfirst
  · exact sound_second hfirst

theorem loop_spec {draws : Nat → Nat → Bool} (left nRep : Nat) (hbest : s.nBest = pickedSum vValue s.vfBest)
    (henough : nTargetValue ≤ s.nBest) :
    (loop vValue nTargetValue draws left nRep s).nBest = pickedSum vValue (loop vValue nTargetValue draws left nRep s).vfBest ∧
      nTargetValue ≤ (loop vValue nTargetValue draws left nRep s).nBest := by
  induction left generalizing nRep s with
  | zero => exact ⟨hbest, henough⟩
  | succ left ih =>
    unfold loop
    split
    · exact ⟨hbest, henough⟩
    · have hsound := sound_repetition (draws nRep) hbest henough
      exact ih (nRep + 1) hsound.best hsound.enough

end SubsetSearch

/-- **`ApproximateBestSubset` finds a subset that reaches the target**,
whatever the draws, where all coins together do. -/
theorem approximateBestSubset_spec {vValue : List (Int × COutPoint)} {nTotalLower nTargetValue : Int}
    (rand : Nat → Nat → Bool) (iterations : Nat) (htotal : nTotalLower = (vValue.map Prod.fst).sum)
    (henough : nTargetValue ≤ nTotalLower) :
    (approximateBestSubset vValue nTotalLower nTargetValue rand iterations).2 =
        SubsetSearch.pickedSum vValue (approximateBestSubset vValue nTotalLower nTargetValue rand iterations).1 ∧
      nTargetValue ≤ (approximateBestSubset vValue nTotalLower nTargetValue rand iterations).2 := by
  refine SubsetSearch.loop_spec iterations 0 ?_ henough
  unfold SubsetSearch.pickedSum
  dsimp only
  rw [Picked.picked_all]
  exact htotal

/-! ## The loop over the coins -/

namespace CWallet

variable {P : Params} {w : CWallet} {nTargetValue : Int} {nSpendTime : Nat} {nConfMine nConfTheirs : Int}
  {vCoins vDone : List COutput} {g : Gathered}

/-- A coin with its value. -/
def valued (w : CWallet) (out : COutput) : Int × COutPoint := (w.valueAt out.coin, out.coin)

/-- The eligible coins. -/
def eligible (P : Params) (w : CWallet) (nSpendTime : Nat) (nConfMine nConfTheirs : Int) (vCoins : List COutput) : List COutput :=
  vCoins.filter fun out => w.Eligible P nSpendTime nConfMine nConfTheirs out

/-- The coins of a smaller value, up to a cent above the target. -/
def smaller (w : CWallet) (nTargetValue : Int) (vCoins : List COutput) : List COutput :=
  vCoins.filter fun out => w.valueAt out.coin < nTargetValue + CENT

/-- The sum of coins. -/
def coinSum (w : CWallet) (vCoins : List COutput) : Int := (vCoins.map fun out => w.valueAt out.coin).sum

/-- What has been gathered of the eligible coins: the smaller ones, their sum,
and a larger one if there is any. -/
structure Gathers (w : CWallet) (nTargetValue : Int) (coins : List COutput) (g : Gathered) : Prop where
  vValue : g.vValue = (w.smaller nTargetValue coins).map w.valued
  total : g.nTotalLower = w.coinSum (w.smaller nTargetValue coins)
  inexact : ∀ out ∈ coins, w.valueAt out.coin ≠ nTargetValue
  larger : ∀ coin ∈ g.coinLowestLarger, (∃ out ∈ coins, coin = w.valued out) ∧ nTargetValue + CENT ≤ coin.1
  noneLarger : g.coinLowestLarger = none →
    ∀ out ∈ coins, w.valueAt out.coin < nTargetValue + CENT ∨ maxInt64 ≤ w.valueAt out.coin

/-- One more eligible coin, which is not exactly the target. -/
theorem gathers_append {coins : List COutput} {output : COutput} {g' : Gathered} (h : Gathers w nTargetValue coins g)
    (hne : w.valueAt output.coin ≠ nTargetValue)
    (hg : w.valueAt output.coin < nTargetValue + CENT ∧
        g' = { g with vValue := g.vValue ++ [w.valued output], nTotalLower := g.nTotalLower + w.valueAt output.coin } ∨
      ¬ w.valueAt output.coin < nTargetValue + CENT ∧
        (g' = { g with coinLowestLarger := some (w.valued output) } ∨
          g' = g ∧ (g.coinLowestLarger = none → maxInt64 ≤ w.valueAt output.coin))) :
    Gathers w nTargetValue (coins ++ [output]) g' := by
  have hinexact : ∀ out ∈ coins ++ [output], w.valueAt out.coin ≠ nTargetValue := fun out hout => by
    rcases List.mem_append.mp hout with hout | hout
    · exact h.inexact out hout
    · rwa [List.mem_singleton.mp hout]
  rcases hg with ⟨hsmall, rfl⟩ | ⟨hlarge, hg⟩
  · have hfilter : w.smaller nTargetValue (coins ++ [output]) = w.smaller nTargetValue coins ++ [output] := by
      simp [smaller, List.filter_append, hsmall]
    refine ⟨?_, ?_, hinexact, fun coin hcoin => ?_, fun hnone out hout => ?_⟩
    · rw [hfilter, List.map_append, ← h.vValue]
      rfl
    · rw [hfilter, coinSum, List.map_append, List.sum_append, ← coinSum, ← h.total]
      simp
    · obtain ⟨⟨out, hout, heq⟩, hle⟩ := h.larger coin hcoin
      exact ⟨⟨out, List.mem_append_left _ hout, heq⟩, hle⟩
    · rcases List.mem_append.mp hout with hout | hout
      · exact h.noneLarger hnone out hout
      · rw [List.mem_singleton.mp hout]
        exact .inl hsmall
  · have hfilter : w.smaller nTargetValue (coins ++ [output]) = w.smaller nTargetValue coins := by
      simp [smaller, List.filter_append, hlarge]
    rcases hg with rfl | ⟨rfl, hmax⟩
    · refine ⟨hfilter ▸ h.vValue, hfilter ▸ h.total, hinexact, fun coin hcoin => ?_, fun hnone => nomatch hnone⟩
      obtain rfl : w.valued output = coin := Option.some.inj hcoin
      exact ⟨⟨output, List.mem_append_right _ (List.mem_singleton_self _), rfl⟩, not_lt.mp hlarge⟩
    · refine ⟨hfilter ▸ h.vValue, hfilter ▸ h.total, hinexact, fun coin hcoin => ?_, fun hnone out hout => ?_⟩
      · obtain ⟨⟨out, hout, heq⟩, hle⟩ := h.larger coin hcoin
        exact ⟨⟨out, List.mem_append_left _ hout, heq⟩, hle⟩
      · rcases List.mem_append.mp hout with hout | hout
        · exact h.noneLarger hnone out hout
        · rw [List.mem_singleton.mp hout]
          exact .inr (hmax hnone)

/-- **What the loop over the coins gathers**: an eligible coin of exactly the
target, or all eligible coins. -/
theorem gather_spec
    (h : Gathers w nTargetValue (w.eligible P nSpendTime nConfMine nConfTheirs vDone) g) :
    match w.gather P nTargetValue nSpendTime nConfMine nConfTheirs vCoins g with
    | .error coin => coin.1 = nTargetValue ∧
        ∃ out ∈ w.eligible P nSpendTime nConfMine nConfTheirs (vDone ++ vCoins), coin = w.valued out
    | .ok g' => Gathers w nTargetValue (w.eligible P nSpendTime nConfMine nConfTheirs (vDone ++ vCoins)) g' := by
  induction vCoins generalizing vDone g with
  | nil =>
    rw [List.append_nil]
    exact h
  | cons output vCoins ih =>
    have hlist : vDone ++ output :: vCoins = (vDone ++ [output]) ++ vCoins := by rw [List.append_assoc, List.singleton_append]
    rw [hlist]
    unfold gather
    by_cases heligible : w.Eligible P nSpendTime nConfMine nConfTheirs output
    · have hmore : w.eligible P nSpendTime nConfMine nConfTheirs (vDone ++ [output]) =
          w.eligible P nSpendTime nConfMine nConfTheirs vDone ++ [output] := by
        simp [eligible, List.filter_append, heligible]
      rw [if_neg heligible.1, if_neg heligible.2]
      dsimp only
      by_cases hexact : w.valueAt output.coin = nTargetValue
      · rw [if_pos hexact]
        refine ⟨hexact, output, ?_, rfl⟩
        refine List.mem_filter.mpr ⟨?_, by simpa using heligible⟩
        exact List.mem_append_left _ (List.mem_append_right _ (List.mem_singleton_self _))
      · rw [if_neg hexact]
        by_cases hsmall : w.valueAt output.coin < nTargetValue + CENT
        · rw [if_pos hsmall]
          exact ih (hmore ▸ gathers_append h hexact (.inl ⟨hsmall, rfl⟩))
        · rw [if_neg hsmall]
          by_cases hcloser : w.valueAt output.coin < (g.coinLowestLarger.map Prod.fst).getD maxInt64
          · rw [if_pos hcloser]
            exact ih (hmore ▸ gathers_append h hexact (.inr ⟨hsmall, .inl rfl⟩))
          · rw [if_neg hcloser]
            refine ih (hmore ▸ gathers_append h hexact (.inr ⟨hsmall, .inr ⟨rfl, fun hnone => ?_⟩⟩))
            rw [hnone] at hcloser
            exact not_lt.mp hcloser
    · have hsame : w.eligible P nSpendTime nConfMine nConfTheirs (vDone ++ [output]) =
          w.eligible P nSpendTime nConfMine nConfTheirs vDone := by
        simp [eligible, List.filter_append, heligible]
      rw [← hsame] at h
      by_cases hdeep : output.nDepth < (if w.coinIsFromMe P output then nConfMine else nConfTheirs)
      · rw [if_pos hdeep]
        exact ih h
      · have hlate : nSpendTime < w.coinTime output := by
          by_contra hearly
          exact heligible ⟨hdeep, hearly⟩
        rw [if_neg hdeep, if_pos hlate]
        exact ih h

theorem gathers_nil : Gathers w nTargetValue [] ⟨[], 0, none⟩ :=
  ⟨rfl, rfl, fun _ h => (nomatch h), fun _ h => (nomatch h), fun _ _ h => (nomatch h)⟩

/-! ## What is selected -/

/-- A selection from some coins: of these only, with its sum, and enough. -/
structure Selects (w : CWallet) (nTargetValue : Int) (coins : List COutput) (sel : Selection) : Prop where
  subset : ∀ o ∈ sel.setCoins, ∃ out ∈ coins, out.coin = o
  sum : sel.nValue = ∑ o ∈ sel.setCoins, w.valueAt o
  enough : nTargetValue ≤ sel.nValue

theorem selects_one {coins : List COutput} {coin : Int × COutPoint} (hcoin : ∃ out ∈ coins, coin = w.valued out)
    (henough : nTargetValue ≤ coin.1) : Selects w nTargetValue coins (Selection.empty.add coin) := by
  obtain ⟨out, hout, rfl⟩ := hcoin
  have hset : (Selection.empty.add (w.valued out)).setCoins = {out.coin} := rfl
  have hvalue : (Selection.empty.add (w.valued out)).nValue = w.valueAt out.coin := zero_add _
  refine ⟨fun o ho => ⟨out, hout, ?_⟩, ?_, ?_⟩
  · rw [hset, Finset.mem_singleton] at ho
    exact ho.symm
  · rw [hset, hvalue, Finset.sum_singleton]
  · rw [hvalue]
    exact henough

/-- Different coins put in one after the other. -/
theorem foldl_add {l : List (Int × COutPoint)} {sel : Selection} (hdistinct : (l.map Prod.snd).Nodup)
    (hnew : ∀ coin ∈ l, coin.2 ∉ sel.setCoins) (hvalues : ∀ coin ∈ l, coin.1 = w.valueAt coin.2)
    (hsum : sel.nValue = ∑ o ∈ sel.setCoins, w.valueAt o) :
    (∀ o, o ∈ (l.foldl Selection.add sel).setCoins ↔ o ∈ sel.setCoins ∨ o ∈ l.map Prod.snd) ∧
      (l.foldl Selection.add sel).nValue = sel.nValue + (l.map Prod.fst).sum ∧
      (l.foldl Selection.add sel).nValue = ∑ o ∈ (l.foldl Selection.add sel).setCoins, w.valueAt o := by
  induction l generalizing sel with
  | nil => exact ⟨fun o => by simp, by simp, hsum⟩
  | cons coin l ih =>
    obtain ⟨hnotin, hdistinct⟩ := List.nodup_cons.mp hdistinct
    obtain ⟨hfresh, hnew⟩ := List.forall_mem_cons.mp hnew
    obtain ⟨hvalue, hvalues⟩ := List.forall_mem_cons.mp hvalues
    have hsum' : (sel.add coin).nValue = ∑ o ∈ (sel.add coin).setCoins, w.valueAt o := by
      rw [Selection.add, Finset.sum_insert hfresh, ← hsum, hvalue, add_comm]
    obtain ⟨hset, htotal, hfinal⟩ := ih hdistinct (fun other hother hmem => by
      rcases Finset.mem_insert.mp hmem with heq | hmem
      · exact hnotin (heq ▸ List.mem_map_of_mem hother)
      · exact hnew other hother hmem) hvalues hsum'
    refine ⟨fun o => ?_, ?_, hfinal⟩
    · rw [List.foldl_cons, hset, Selection.add, Finset.mem_insert, List.map_cons, List.mem_cons]
      exact ⟨fun h => h.elim (fun h => h.elim (fun h => .inr (.inl h)) .inl) fun h => .inr (.inr h),
        fun h => h.elim (fun h => .inl (.inr h)) fun h => h.elim (fun h => .inl (.inl h)) .inr⟩
    · rw [List.foldl_cons, htotal, List.map_cons, List.sum_cons, Selection.add, add_assoc]

/-- A part of the smaller coins is selected. -/
theorem selects_part {coins : List COutput} {l : List (Int × COutPoint)} (hdistinct : (coins.map COutput.coin).Nodup)
    (hl : ∃ l', l.Sublist l' ∧ l'.Perm ((w.smaller nTargetValue coins).map w.valued)) (nBound : Int)
    (henough : nBound ≤ (l.map Prod.fst).sum) :
    Selects w nBound coins (l.foldl Selection.add .empty) ∧ (l.foldl Selection.add .empty).nValue = (l.map Prod.fst).sum := by
  obtain ⟨l', hsub, hperm⟩ := hl
  have hmem : ∀ coin ∈ l, ∃ out ∈ coins, w.valued out = coin := fun coin hcoin => by
    obtain ⟨out, hout, heq⟩ := List.mem_map.mp (hperm.mem_iff.mp (hsub.subset hcoin))
    exact ⟨out, List.mem_of_mem_filter hout, heq⟩
  have hkeys : (l.map Prod.snd).Nodup := by
    have hpoints : (((w.smaller nTargetValue coins).map w.valued).map Prod.snd).Nodup := by
      have heq : ((w.smaller nTargetValue coins).map w.valued).map Prod.snd = (w.smaller nTargetValue coins).map COutput.coin := by
        rw [List.map_map]
        rfl
      rw [heq]
      exact hdistinct.sublist (List.filter_sublist.map _)
    exact ((hperm.map Prod.snd).nodup_iff.mpr hpoints).sublist (hsub.map _)
  have hvalues : ∀ coin ∈ l, coin.1 = w.valueAt coin.2 := fun coin hcoin => by
    obtain ⟨out, -, rfl⟩ := hmem coin hcoin
    rfl
  obtain ⟨hset, htotal, hfinal⟩ := @foldl_add w l .empty hkeys (fun _ _ h => (nomatch h)) hvalues rfl
  have hsum : (l.foldl Selection.add .empty).nValue = (l.map Prod.fst).sum := htotal.trans (zero_add _)
  refine ⟨⟨fun o ho => ?_, hfinal, hsum ▸ henough⟩, hsum⟩
  obtain ⟨coin, hcoin, rfl⟩ := List.mem_map.mp (((hset o).mp ho).resolve_left fun h => nomatch h)
  obtain ⟨out, hout, rfl⟩ := hmem coin hcoin
  exact ⟨out, hout, rfl⟩

/-! ## Every way out -/

theorem perm_eligible {coins coins' : List COutput} (h : coins.Perm coins') :
    (w.eligible P nSpendTime nConfMine nConfTheirs coins).Perm (w.eligible P nSpendTime nConfMine nConfTheirs coins') :=
  h.filter _

theorem coinSum_perm {coins coins' : List COutput} (h : coins.Perm coins') : w.coinSum coins = w.coinSum coins' :=
  (h.map _).sum_eq

theorem valueAt_le_coinSum {coins : List COutput} (hnonneg : ∀ out ∈ coins, 0 ≤ w.valueAt out.coin) {out : COutput}
    (hout : out ∈ coins) : w.valueAt out.coin ≤ w.coinSum coins :=
  List.single_le_sum (by simpa using hnonneg) _ (List.mem_map_of_mem hout)

/-- The flags the search ends with, in its first call or in its second. -/
theorem exists_subset (d : Draws) {vValue : List (Int × COutPoint)} {nTotalLower : Int}
    (htotal : nTotalLower = (vValue.map Prod.fst).sum) (henough : nTargetValue ≤ nTotalLower) :
    nTargetValue ≤ SubsetSearch.pickedSum vValue
      (if (approximateBestSubset vValue nTotalLower nTargetValue (d.rand 0) 1000).2 ≠ nTargetValue ∧
          nTargetValue + CENT ≤ nTotalLower then
        approximateBestSubset vValue nTotalLower (nTargetValue + CENT) (d.rand 1) 1000
      else approximateBestSubset vValue nTotalLower nTargetValue (d.rand 0) 1000).1 := by
  split
  next hmore =>
    obtain ⟨hsum, hle⟩ := approximateBestSubset_spec (d.rand 1) 1000 htotal hmore.2
    rw [← hsum]
    exact le_trans (le_add_of_nonneg_right (by decide)) hle
  next =>
    obtain ⟨hsum, hle⟩ := approximateBestSubset_spec (d.rand 0) 1000 htotal henough
    rw [← hsum]
    exact hle

/-- **The choice among all eligible coins**: a selection that reaches the
target, exactly where the smaller coins together do, or nothing where all
coins together do not. -/
theorem choose_spec (d : Draws) {coins : List COutput} (hdistinct : (coins.map COutput.coin).Nodup)
    (h : Gathers w nTargetValue coins g) :
    ((choose d nTargetValue g).1 = true ∧ Selects w nTargetValue coins (choose d nTargetValue g).2 ∧
        (w.coinSum (w.smaller nTargetValue coins) = nTargetValue → (choose d nTargetValue g).2.nValue = nTargetValue)) ∨
      ((choose d nTargetValue g).1 = false ∧ (choose d nTargetValue g).2 = .empty ∧
        ((∀ out ∈ coins, w.valueAt out.coin < maxInt64) → w.coinSum coins < nTargetValue)) := by
  have hsum : g.nTotalLower = (g.vValue.map Prod.fst).sum := by
    rw [h.total, h.vValue, List.map_map]
    rfl
  have hlarger : ∀ coin ∈ g.coinLowestLarger, Selects w nTargetValue coins (Selection.empty.add coin) := fun coin hcoin => by
    obtain ⟨hout, hle⟩ := h.larger coin hcoin
    exact selects_one hout (le_trans (le_add_of_nonneg_right (by decide)) hle)
  unfold choose
  by_cases hexact : g.nTotalLower = nTargetValue
  · rw [if_pos hexact]
    obtain ⟨hselects, hvalue⟩ := selects_part hdistinct
      ⟨g.vValue, List.Sublist.refl _, by rw [h.vValue]⟩ nTargetValue (by rw [← hsum, hexact])
    exact .inl ⟨rfl, hselects, fun _ => by rw [hvalue, ← hsum, hexact]⟩
  · rw [if_neg hexact]
    have hnot : w.coinSum (w.smaller nTargetValue coins) ≠ nTargetValue := by rwa [← h.total]
    by_cases hless : g.nTotalLower < nTargetValue
    · rw [if_pos hless]
      cases hcoin : g.coinLowestLarger with
      | none =>
        refine .inr ⟨rfl, rfl, fun hbound => ?_⟩
        -- all eligible coins are small ones
        have hall : w.smaller nTargetValue coins = coins := by
          refine List.filter_eq_self.mpr fun out hout => ?_
          rcases h.noneLarger hcoin out hout with hsmall | hmax
          · simpa using hsmall
          · exact absurd (hbound out hout) (not_lt.mpr hmax)
        have htotal := h.total
        rw [hall] at htotal
        exact htotal ▸ hless
      | some coin => exact .inl ⟨rfl, hlarger coin hcoin, fun heq => absurd heq hnot⟩
    · rw [if_neg hless]
      have hsorted : g.nTotalLower = ((d.sort g.vValue).map Prod.fst).sum := by
        rw [hsum]
        exact (((d.sort_perm g.vValue).map Prod.fst).sum_eq).symm
      have hpicked := exists_subset d hsorted (not_lt.mp hless)
      dsimp only
      generalize (if (approximateBestSubset (d.sort g.vValue) g.nTotalLower nTargetValue (d.rand 0) 1000).2 ≠ nTargetValue ∧
          nTargetValue + CENT ≤ g.nTotalLower then
        approximateBestSubset (d.sort g.vValue) g.nTotalLower (nTargetValue + CENT) (d.rand 1) 1000
      else approximateBestSubset (d.sort g.vValue) g.nTotalLower nTargetValue (d.rand 0) 1000) = found at hpicked ⊢
      have hsubset : Selects w nTargetValue coins ((picked found.1 (d.sort g.vValue)).foldl Selection.add .empty) :=
        (selects_part hdistinct ⟨d.sort g.vValue, Picked.picked_sublist _ _,
          (d.sort_perm g.vValue).trans (by rw [h.vValue])⟩ nTargetValue hpicked).1
      cases hcoin : g.coinLowestLarger with
      | none => exact .inl ⟨rfl, hsubset, fun heq => absurd heq hnot⟩
      | some coin =>
        dsimp only
        split
        · exact .inl ⟨rfl, hlarger coin hcoin, fun heq => absurd heq hnot⟩
        · exact .inl ⟨rfl, hsubset, fun heq => absurd heq hnot⟩

/-- An exact coin among the eligible ones, or smaller ones that make up the
target together. -/
def HasExact (w : CWallet) (nTargetValue : Int) (coins : List COutput) : Prop :=
  (∃ out ∈ coins, w.valueAt out.coin = nTargetValue) ∨ w.coinSum (w.smaller nTargetValue coins) = nTargetValue

/-- A selection from coins is one from the same coins in another order. -/
theorem Selects.perm {coins coins' : List COutput} {sel : Selection} (h : Selects w nTargetValue coins sel)
    (hperm : coins.Perm coins') : Selects w nTargetValue coins' sel :=
  ⟨fun o ho => by
    obtain ⟨out, hout, heq⟩ := h.subset o ho
    exact ⟨out, hperm.mem_iff.mp hout, heq⟩, h.sum, h.enough⟩

/-- What `SelectCoinsMinConf` selects are eligible coins that reach the target,
and of an exact sum where there is one. It selects nothing where there are not
enough. -/
theorem selectCoinsMinConf_cases (d : Draws) {vCoins : List COutput} (hdistinct : (vCoins.map COutput.coin).Nodup) :
    ((w.selectCoinsMinConf P d nTargetValue nSpendTime nConfMine nConfTheirs vCoins).1 = true ∧
        Selects w nTargetValue (w.eligible P nSpendTime nConfMine nConfTheirs vCoins)
          (w.selectCoinsMinConf P d nTargetValue nSpendTime nConfMine nConfTheirs vCoins).2 ∧
        (HasExact w nTargetValue (w.eligible P nSpendTime nConfMine nConfTheirs vCoins) →
          (w.selectCoinsMinConf P d nTargetValue nSpendTime nConfMine nConfTheirs vCoins).2.nValue = nTargetValue)) ∨
      ((w.selectCoinsMinConf P d nTargetValue nSpendTime nConfMine nConfTheirs vCoins).1 = false ∧
        (w.selectCoinsMinConf P d nTargetValue nSpendTime nConfMine nConfTheirs vCoins).2 = .empty ∧
        ((∀ out ∈ vCoins, w.valueAt out.coin < maxInt64) →
          w.coinSum (w.eligible P nSpendTime nConfMine nConfTheirs vCoins) < nTargetValue)) := by
  have hshuffle := d.shuffle_perm vCoins
  have hperm : (w.eligible P nSpendTime nConfMine nConfTheirs (d.shuffle vCoins)).Perm
      (w.eligible P nSpendTime nConfMine nConfTheirs vCoins) := perm_eligible hshuffle
  have hsub : (w.eligible P nSpendTime nConfMine nConfTheirs vCoins).Sublist vCoins := List.filter_sublist
  have hgather := @gather_spec P w nTargetValue nSpendTime nConfMine nConfTheirs (d.shuffle vCoins) [] ⟨[], 0, none⟩
    gathers_nil
  rw [List.nil_append] at hgather
  unfold selectCoinsMinConf
  cases hrun : w.gather P nTargetValue nSpendTime nConfMine nConfTheirs (d.shuffle vCoins) ⟨[], 0, none⟩ with
  | error coin =>
    rw [hrun] at hgather
    obtain ⟨hexact, hout⟩ := hgather
    exact .inl ⟨rfl, (selects_one hout hexact.ge).perm hperm, fun _ => (zero_add _).trans hexact⟩
  | ok g =>
    rw [hrun] at hgather
    have hkeys : ((w.eligible P nSpendTime nConfMine nConfTheirs (d.shuffle vCoins)).map COutput.coin).Nodup :=
      ((hperm.map _).nodup_iff).mpr (hdistinct.sublist (hsub.map _))
    dsimp only
    rcases choose_spec d hkeys hgather with ⟨htrue, hselects, hsmaller⟩ | ⟨hfalse, hnone, hless⟩
    · refine .inl ⟨htrue, hselects.perm hperm, fun hexact => ?_⟩
      rcases hexact with ⟨out, hout, heq⟩ | hsum
      · exact absurd heq (hgather.inexact out (hperm.mem_iff.mpr hout))
      · exact hsmaller ((coinSum_perm (hperm.filter _)).trans hsum)
    · refine .inr ⟨hfalse, hnone, fun hbound => coinSum_perm hperm ▸ hless fun out hout => ?_⟩
      exact hbound out (hsub.subset (hperm.mem_iff.mp hout))

/-- What is selected reaches the target, so the coins it is from do. -/
theorem Selects.le_coinSum {coins : List COutput} {sel : Selection} (h : Selects w nTargetValue coins sel)
    (hdistinct : (coins.map COutput.coin).Nodup) (hnonneg : ∀ out ∈ coins, 0 ≤ w.valueAt out.coin) :
    nTargetValue ≤ w.coinSum coins := by
  have hsubset : sel.setCoins ⊆ (coins.map COutput.coin).toFinset := fun o ho => by
    obtain ⟨out, hout, rfl⟩ := h.subset o ho
    exact List.mem_toFinset.mpr (List.mem_map_of_mem hout)
  have hle : ∑ o ∈ sel.setCoins, w.valueAt o ≤ ∑ o ∈ (coins.map COutput.coin).toFinset, w.valueAt o :=
    Finset.sum_le_sum_of_subset_of_nonneg hsubset fun o ho _ => by
      obtain ⟨out, hout, rfl⟩ := List.mem_map.mp (List.mem_toFinset.mp ho)
      exact hnonneg out hout
  rw [List.sum_toFinset _ hdistinct, List.map_map] at hle
  exact (h.enough.trans h.sum.le).trans hle

end CWallet

/-! ## A wallet with three coins -/

namespace Sample

/-- A payment of three outputs to the wallet. -/
def threeCoins : CTransaction :=
  ⟨1, 1000, [⟨⟨7, 0⟩, [], UINT_MAX⟩], [⟨5 * COIN, [1]⟩, ⟨3 * COIN, [1]⟩, ⟨2 * COIN, [1]⟩], 0⟩

def coinWallet : CWallet := ⟨(∅ : Map Uint256 CWalletTx).insert 1000 (.ofTx threeCoins), [[1]], 0⟩

def outputs : List COutput := [⟨1000, 0, 20⟩, ⟨1000, 1, 20⟩, ⟨1000, 2, 20⟩]

/-- No coin changes its place but by its value, and no coin is ever drawn. -/
def draws : Draws where
  shuffle l := l
  shuffle_perm := .refl
  sort l := l.insertionSort fun a b => b.1 ≤ a.1
  sort_perm := List.perm_insertionSort _
  sort_sorted l := by
    have : Std.Total fun a b : Int × COutPoint => b.1 ≤ a.1 := ⟨fun a b => le_total b.1 a.1⟩
    have : IsTrans (Int × COutPoint) fun a b => b.1 ≤ a.1 := ⟨fun _ _ _ h h' => h'.trans h⟩
    exact List.pairwise_insertionSort _ l
  rand _ _ _ := false

end Sample

end Pinkcoin
