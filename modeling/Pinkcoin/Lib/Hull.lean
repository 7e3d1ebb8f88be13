/-
Means of samples stay among the samples: the mean of some natural numbers,
rounded down, and the mean of two integers, rounded towards zero.
-/
import Mathlib.Algebra.BigOperators.Group.List.Basic
import Mathlib.Algebra.Order.BigOperators.Group.List
import Mathlib.Algebra.Order.Ring.Nat
import Mathlib.Algebra.Group.Action.Defs

namespace Hull

/-- No smaller than some sample, and no larger than some sample. -/
def Within (samples : List Int) (x : Int) : Prop := (∃ a ∈ samples, a ≤ x) ∧ ∃ b ∈ samples, x ≤ b

variable {samples samples' : List Int} {x d : Int}

theorem Within.append_left (h : Within samples x) : Within (samples ++ samples') x := by
  obtain ⟨⟨a, ha, hle⟩, b, hb, hge⟩ := h
  exact ⟨⟨a, List.mem_append_left _ ha, hle⟩, b, List.mem_append_left _ hb, hge⟩

theorem Within.append_right (h : Within samples x) : Within (samples' ++ samples) x := by
  obtain ⟨⟨a, ha, hle⟩, b, hb, hge⟩ := h
  exact ⟨⟨a, List.mem_append_right _ ha, hle⟩, b, List.mem_append_right _ hb, hge⟩

theorem Within.between {a b : Int} (h : Within samples x) (hall : ∀ n ∈ samples, a ≤ n ∧ n ≤ b) : a ≤ x ∧ x ≤ b := by
  obtain ⟨⟨p, hp, hle⟩, q, hq, hge⟩ := h
  exact ⟨le_trans (hall p hp).1 hle, le_trans hge (hall q hq).2⟩

/-- A half rounded towards zero is off by less than one. -/
theorem tdiv_two_bounds (x : Int) : x - 1 ≤ 2 * x.tdiv 2 ∧ 2 * x.tdiv 2 ≤ x + 1 := by
  rcases Int.le_total 0 x with hx | hx
  · rw [Int.tdiv_eq_ediv_of_nonneg hx]
    omega
  · have hneg : x.tdiv 2 = -((-x) / 2) := by
      rw [← Int.tdiv_eq_ediv_of_nonneg (Int.neg_nonneg.mpr hx), Int.neg_tdiv, Int.neg_neg]
    rw [hneg]
    omega

theorem Within.mean (hx : Within samples x) (hd : Within samples d) : Within samples ((x + d).tdiv 2) := by
  obtain ⟨⟨a, ha, hax⟩, b, hb, hxb⟩ := hx
  obtain ⟨⟨a', ha', had⟩, b', hb', hdb⟩ := hd
  have hbounds := tdiv_two_bounds (x + d)
  constructor
  · rcases Int.le_total a a' with h | h
    · exact ⟨a, ha, by omega⟩
    · exact ⟨a', ha', by omega⟩
  · rcases Int.le_total b b' with h | h
    · exact ⟨b', hb', by omega⟩
    · exact ⟨b, hb, by omega⟩

/-- A mean rounded down is no smaller than some sample, and no larger than
some sample. -/
theorem mean_within {l : List Nat} (h : l ≠ []) : (∃ a ∈ l, a ≤ l.sum / l.length) ∧ ∃ b ∈ l, l.sum / l.length ≤ b := by
  have hlen : 0 < l.length := List.length_pos_iff.mpr h
  have hmul := Nat.div_mul_le_self l.sum l.length
  have hmod := Nat.lt_div_mul_add hlen (a := l.sum)
  constructor
  · by_contra hnot
    have hall : ∀ a ∈ l, l.sum / l.length + 1 ≤ a := fun a ha => by
      by_contra hlt
      exact hnot ⟨a, ha, by omega⟩
    have hsum := List.card_nsmul_le_sum l _ hall
    rw [smul_eq_mul, Nat.mul_add, Nat.mul_comm, Nat.mul_one] at hsum
    omega
  · by_contra hnot
    have hall : ∀ b ∈ l, b + 1 ≤ l.sum / l.length := fun b hb => by
      by_contra hlt
      exact hnot ⟨b, hb, by omega⟩
    have hsum := List.sum_le_card_nsmul (l.map (· + 1)) (l.sum / l.length) (by simpa using hall)
    rw [List.sum_map_add, List.map_id', List.length_map, smul_eq_mul, List.map_const', List.sum_replicate, smul_eq_mul,
      Nat.mul_one, Nat.mul_comm] at hsum
    omega

end Hull
