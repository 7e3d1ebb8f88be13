/-
A list of tests matched with a list of candidates from the front, each with
the first candidate that passes. It comes to the end exactly when the tests
can be matched with some of the candidates in order.
-/
import Mathlib.Data.List.Forall2

namespace Greedy

variable {α β : Type} {r : α → β → Bool} {a : α} {b : β} {as : List α} {bs : List β}

/-- Whether every `a` finds a `b` of its own, taken from the front. -/
def greedy (r : α → β → Bool) : List β → List α → Bool
  | _, [] => true
  | [], _ :: _ => false
  | b :: bs, a :: as => if r a b then greedy r bs as else greedy r bs (a :: as)

/-- The `as` are matched with some of the `bs`, in order. -/
abbrev Matched (r : α → β → Bool) : List α → List β → Prop := List.SublistForall₂ fun a b => r a b = true

theorem Matched.tail (h : Matched r (a :: as) bs) : Matched r as bs := by
  induction bs with
  | nil => cases h
  | cons b bs ih =>
    cases h with
    | cons _ h => exact .cons_right h
    | cons_right h => exact .cons_right (ih h)

theorem matched_cons (hab : r a b = true) : Matched r (a :: as) (b :: bs) ↔ Matched r as bs := by
  refine ⟨fun h => ?_, fun h => .cons hab h⟩
  cases h with
  | cons _ h => exact h
  | cons_right h => exact Matched.tail h

theorem matched_skip (hab : r a b = false) : Matched r (a :: as) (b :: bs) ↔ Matched r (a :: as) bs := by
  refine ⟨fun h => ?_, fun h => .cons_right h⟩
  cases h with
  | cons h _ => simp [hab] at h
  | cons_right h => exact h

/-- **Taking the first that passes loses no match.** -/
theorem greedy_iff : greedy r bs as = true ↔ Matched r as bs := by
  induction bs generalizing as with
  | nil =>
    cases as with
    | nil => exact iff_of_true rfl .nil
    | cons a as =>
      refine iff_of_false (by simp [greedy]) fun h => ?_
      cases h
  | cons b bs ih =>
    cases as with
    | nil => exact iff_of_true rfl .nil
    | cons a as =>
      cases hab : r a b with
      | true => rw [greedy, if_pos hab, ih, matched_cons hab]
      | false => rw [greedy, if_neg (by simp [hab]), ih, matched_skip hab]

/-- With fewer candidates than tests there is no match. -/
theorem greedy_short (h : bs.length < as.length) : greedy r bs as = false := by
  cases hgreedy : greedy r bs as with
  | false => rfl
  | true =>
    obtain ⟨l, hall, hsub⟩ := List.sublistForall₂_iff.mp (greedy_iff.mp hgreedy)
    have hlen := hall.length_eq
    have hle := hsub.length_le
    omega

/-- In a match every test has its candidate. -/
theorem exists_candidate {R : α → β → Prop} (h : List.Forall₂ R as bs) (ha : a ∈ as) : ∃ b ∈ bs, R a b := by
  induction h with
  | nil => cases ha
  | cons hab _ ih =>
    rcases List.mem_cons.mp ha with rfl | ha
    · exact ⟨_, List.mem_cons_self, hab⟩
    · obtain ⟨b, hb, hr⟩ := ih ha
      exact ⟨b, List.mem_cons_of_mem _ hb, hr⟩

end Greedy
