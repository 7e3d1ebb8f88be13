/-
The clock of a chain: the median time past of a block, against those of the
blocks before it.
-/
import Pinkcoin.TrustReads
import Pinkcoin.FailedSwitch
import Pinkcoin.Lib.Median

namespace Pinkcoin

open Median (IsMedian)

theorem isMedian_getMedianTimePast {branch : List CBlockIndex} (h : branch ≠ []) :
    IsMedian ((branch.take 11).map CBlockIndex.nTime) (getMedianTimePast branch) := by
  have hperm := List.perm_insertionSort (· ≤ ·) ((branch.take 11).map CBlockIndex.nTime)
  have hpos := List.length_pos_iff.mpr h
  have hlen := hperm.length_eq
  rw [List.length_map, List.length_take] at hlen
  have hi : (((branch.take 11).map CBlockIndex.nTime).insertionSort (· ≤ ·)).length / 2 <
      (((branch.take 11).map CBlockIndex.nTime).insertionSort (· ≤ ·)).length := by omega
  have hmedian := Median.isMedian_getElem (List.pairwise_insertionSort (· ≤ ·) _) hi
  rw [getMedianTimePast, List.getElem?_eq_getElem hi, Option.getD_some]
  exact hmedian.perm hperm

/-- A block later than the median of those before it does not set it back. -/
theorem getMedianTimePast_cons {b : CBlockIndex} {branch : List CBlockIndex} (h : branch ≠ [])
    (hlater : getMedianTimePast branch < b.nTime) : getMedianTimePast branch ≤ getMedianTimePast (b :: branch) := by
  have hmedian := isMedian_getMedianTimePast (List.cons_ne_nil b branch)
  have htake : ((b :: branch).take 11).map CBlockIndex.nTime =
      (b.nTime :: (branch.take 11).map CBlockIndex.nTime).take 11 := by simp [List.take_take, ← List.map_take]
  rw [htake] at hmedian
  exact (isMedian_getMedianTimePast h).le_take (by decide) (by simp) hlater.le hmedian

variable {t : BlockTree} {k a : Uint256}

theorem BlockTree.Dated.median_le (h : t.Dated) (ha : a ∈ t.chain k) :
    getMedianTimePast (t.branch a) ≤ getMedianTimePast (t.branch k) := by
  induction k using Forest.chain_induction (F := t.forest) with
  | root x hx =>
    rw [BlockTree.chain, Forest.chain_of_root hx, List.mem_singleton] at ha
    rw [ha]
  | step x p hx ih =>
    obtain ⟨b, hb, hpprev⟩ := BlockTree.parent_some.mp hx
    obtain ⟨bp, hbp, -⟩ := t.pprev_ok hb hpprev
    obtain ⟨rest, hrest⟩ := BlockTree.branch_eq_cons (t := t) hbp
    rw [BlockTree.chain_of_pprev hb hpprev, List.mem_cons] at ha
    cases ha with
    | inl ha => rw [ha]
    | inr ha =>
      rw [BlockTree.branch_of_pprev hb hpprev]
      exact (ih ha).trans (getMedianTimePast_cons (by simp [hrest]) (h.later x b p hb hpprev))

/-- **The clock of a chain does not run back.** In every tree a node reaches,
the median time past never falls from a block to one built on it, and a block
is later than it was at every block before. -/
theorem clock_forward {P : Params} {T : CTransaction → Prop} {C : Env → CBlock → Uint256 → Node → Prop} {s : Node}
    (hr : Reach P T C s) (ha : a ∈ s.mapBlockIndex.chain k) :
    getMedianTimePast (s.mapBlockIndex.branch a) ≤ getMedianTimePast (s.mapBlockIndex.branch k) ∧
      ∀ b, s.mapBlockIndex.find k = some b → a ≠ k → getMedianTimePast (s.mapBlockIndex.branch a) < b.nTime := by
  have hdated := dated_of_reach hr
  refine ⟨hdated.median_le ha, fun b hb hne => ?_⟩
  cases hpprev : b.pprev with
  | none =>
    rw [BlockTree.chain_of_no_pprev hb hpprev, List.mem_singleton] at ha
    exact absurd ha hne
  | some p =>
    rw [BlockTree.chain_of_pprev hb hpprev, List.mem_cons] at ha
    exact lt_of_le_of_lt (hdated.median_le (ha.resolve_left hne)) (hdated.later k b p hb hpprev)

/-- A block of a side chain, after the one it is built on. -/
theorem clock_forward_sample :
    let t := (Sample.play (Sample.params true) Sample.badSwitch (Sample.fresh true)).mapBlockIndex
    t.Has 202 ∧ getMedianTimePast (t.branch 201) ≤ getMedianTimePast (t.branch 202) :=
  ⟨by decide +kernel, (clock_forward Sample.reach_badSwitch (by decide +kernel)).1⟩

end Pinkcoin
