/-
Items with and without a position, come to one after the other. One without a
position gets the next above all before it, its slot; one with a position is
moved up by one for each slot that is not above its position.
-/
import Mathlib.Data.List.Basic
import Mathlib.Order.Defs.LinearOrder
import Mathlib.Algebra.Order.Group.Int

namespace Slots

variable {α : Type} {slots ordered : List Int} {p q o n : Int}

/-- Where a position is moved by the slots up to it. -/
def shift (slots : List Int) (p : Int) : Int := p + slots.countP fun o => o ≤ p

/-- The least position above all of a list, from 0 on. -/
def above (l : List Int) : Int := l.foldr (fun n top => max (n + 1) top) 0

/-- The next position above the slots and the moved positions. -/
def ceiling (slots ordered : List Int) : Int := max (above slots) (above (ordered.map (shift slots)))

/-- The slots of the items, `slots` those before them and `ordered` the
positions before them. -/
def placing (pos : α → Option Int) : List (α × Int) → List Int → List α → List (α × Int)
  | slots, _, [] => slots
  | slots, ordered, a :: rest =>
    match pos a with
    | none => placing pos (slots ++ [(a, ceiling (slots.map Prod.snd) ordered)]) ordered rest
    | some p => placing pos slots (p :: ordered) rest

theorem le_shift : p ≤ shift slots p := by
  rw [shift]
  omega

/-- Positions are kept in order. -/
theorem shift_lt (h : p < q) : shift slots p < shift slots q := by
  have hle : slots.countP (fun o => o ≤ p) ≤ slots.countP (fun o => o ≤ q) := by
    refine List.countP_mono_left fun o _ ho => ?_
    simp only [decide_eq_true_eq] at ho ⊢
    omega
  rw [shift, shift]
  omega

theorem shift_inj (h : shift slots p = shift slots q) : p = q := by
  rcases Int.lt_trichotomy p q with hlt | heq | hlt
  · have hshift : shift slots p < shift slots q := shift_lt hlt
    omega
  · exact heq
  · have hshift : shift slots q < shift slots p := shift_lt hlt
    omega

/-- A slot above a position does not move it. -/
theorem shift_append (h : p < o) : shift (slots ++ [o]) p = shift slots p := by
  have hzero : [o].countP (fun o => o ≤ p) = 0 := by simp [h]
  rw [shift, shift, List.countP_append, hzero, Nat.add_zero]

/-- Below the slots nothing is moved. -/
theorem shift_eq_self (h : ∀ o ∈ slots, p < o) : shift slots p = p := by
  have hzero : slots.countP (fun o => o ≤ p) = 0 := by
    refine List.countP_eq_zero.mpr fun o ho => ?_
    have hlt := h o ho
    simp only [decide_eq_true_eq]
    omega
  rw [shift, hzero]
  simp

theorem above_cons (n : Int) (l : List Int) : above (n :: l) = max (n + 1) (above l) := rfl

theorem above_nonneg (l : List Int) : 0 ≤ above l := by
  induction l with
  | nil => exact Int.le_refl 0
  | cons n l ih => exact Int.le_trans ih (Int.le_max_right _ _)

theorem lt_above {l : List Int} (h : n ∈ l) : n < above l := by
  induction l with
  | nil => cases h
  | cons m l ih =>
    rw [above_cons]
    rcases List.mem_cons.mp h with rfl | hmem
    · omega
    · have hlt := ih hmem
      omega

theorem lt_above_iff {l : List Int} (hn : 0 ≤ n) : n < above l ↔ ∃ m ∈ l, n ≤ m := by
  induction l with
  | nil =>
    change n < 0 ↔ _
    simp [hn]
  | cons m l ih =>
    rw [above_cons, lt_max_iff, ih]
    simp [Int.lt_add_one_iff]

theorem above_append_singleton (l : List Int) (h : above l ≤ n) (hn : 0 ≤ n) : above (l ++ [n]) = n + 1 := by
  induction l with
  | nil =>
    change max (n + 1) 0 = n + 1
    omega
  | cons m l ih =>
    rw [above_cons] at h
    rw [List.cons_append, above_cons, ih (by omega)]
    omega

theorem ceiling_nonneg : 0 ≤ ceiling slots ordered := Int.le_trans (above_nonneg slots) (Int.le_max_left _ _)

theorem lt_ceiling_of_ordered (h : p ∈ ordered) : shift slots p < ceiling slots ordered :=
  Int.lt_of_lt_of_le (lt_above (List.mem_map_of_mem h)) (Int.le_max_right _ _)

/-- A position that is come to raises the ceiling above itself. -/
theorem ceiling_cons : ceiling slots (p :: ordered) = max (ceiling slots ordered) (shift slots p + 1) := by
  rw [ceiling, ceiling, List.map_cons, above_cons]
  omega

/-- A slot raises the ceiling by one. -/
theorem ceiling_append : ceiling (slots ++ [ceiling slots ordered]) ordered = ceiling slots ordered + 1 := by
  have hmap : ordered.map (shift (slots ++ [ceiling slots ordered])) = ordered.map (shift slots) := by
    refine List.map_congr_left fun p hp => shift_append ?_
    exact Int.lt_of_le_of_lt le_shift (lt_ceiling_of_ordered hp)
  have hslots : above (slots ++ [ceiling slots ordered]) = ceiling slots ordered + 1 :=
    above_append_singleton slots (Int.le_max_left _ _) ceiling_nonneg
  have hle : above (ordered.map (shift slots)) ≤ ceiling slots ordered := Int.le_max_right _ _
  rw [ceiling, hmap, hslots]
  omega

/-- The slots to come do not move a position that was come to. -/
theorem shift_placing {pos : α → Option Int} {l : List α} {slots : List (α × Int)} (h : p ∈ ordered) :
    shift ((placing pos slots ordered l).map Prod.snd) p = shift (slots.map Prod.snd) p := by
  induction l generalizing slots ordered with
  | nil => rfl
  | cons a rest ih =>
    cases hpos : pos a with
    | none =>
      have hlt : p < ceiling (slots.map Prod.snd) ordered :=
        Int.lt_of_le_of_lt le_shift (lt_ceiling_of_ordered h)
      simp only [placing, hpos]
      rw [ih h, List.map_append]
      exact shift_append hlt
    | some q =>
      simp only [placing, hpos]
      exact ih (List.mem_cons_of_mem q h)

end Slots
