/-
Medians: an element of a list that has no more than half of the list below it,
and no more than half above it. A sorted list has one in the middle; a list of
odd length has only one.
-/
import Mathlib.Data.List.Sort
import Mathlib.Order.Defs.LinearOrder

namespace Median

variable {α : Type} [LinearOrder α] {l l' : List α} {m m' b : α}

structure IsMedian (l : List α) (m : α) : Prop where
  mem : m ∈ l
  below : 2 * l.countP (· < m) ≤ l.length
  above : 2 * l.countP (m < ·) ≤ l.length

theorem IsMedian.perm (h : IsMedian l m) (hperm : l.Perm l') : IsMedian l' m where
  mem := hperm.mem_iff.mp h.mem
  below := by
    rw [← hperm.countP_eq, ← hperm.length_eq]
    exact h.below
  above := by
    rw [← hperm.countP_eq, ← hperm.length_eq]
    exact h.above

/-- The elements up to `m`, and those above it. -/
theorem countP_le_add (l : List α) (m : α) : l.countP (· ≤ m) + l.countP (m < ·) = l.length := by
  rw [List.length_eq_countP_add_countP (· ≤ m)]
  congr 2
  funext x
  simp

/-- An element with as many before it as after it, where the list is sorted. -/
theorem isMedian_append {a c : List α} (hsorted : (a ++ m :: c).Pairwise (· ≤ ·))
    (ha : 2 * a.length ≤ (a ++ m :: c).length) (hc : 2 * c.length ≤ (a ++ m :: c).length) :
    IsMedian (a ++ m :: c) m := by
  obtain ⟨-, hmc, hacross⟩ := List.pairwise_append.mp hsorted
  have hafter : ∀ x ∈ c, m ≤ x := (List.pairwise_cons.mp hmc).1
  have hbefore : ∀ x ∈ a, x ≤ m := fun x hx => hacross x hx m List.mem_cons_self
  refine ⟨by simp, ?_, ?_⟩
  · have hnone : c.countP (· < m) = 0 := by
      refine List.countP_eq_zero.mpr fun x hx => ?_
      simpa using hafter x hx
    have hle : a.countP (· < m) ≤ a.length := List.countP_le_length
    have hcount : (a ++ m :: c).countP (· < m) = a.countP (· < m) := by
      simp [List.countP_append, hnone]
    omega
  · have hnone : a.countP (m < ·) = 0 := by
      refine List.countP_eq_zero.mpr fun x hx => ?_
      simpa using hbefore x hx
    have hle : c.countP (m < ·) ≤ c.length := List.countP_le_length
    have hcount : (a ++ m :: c).countP (m < ·) = c.countP (m < ·) := by
      simp [List.countP_append, hnone]
    omega

/-- **The middle of a sorted list is a median.** -/
theorem isMedian_getElem (hsorted : l.Pairwise (· ≤ ·)) (hi : l.length / 2 < l.length) :
    IsMedian l l[l.length / 2] := by
  have hsplit : l = l.take (l.length / 2) ++ l[l.length / 2] :: l.drop (l.length / 2 + 1) := by
    rw [List.getElem_cons_drop, List.take_append_drop]
  have hlen : (l.take (l.length / 2) ++ l[l.length / 2] :: l.drop (l.length / 2 + 1)).length = l.length := by
    rw [← hsplit]
  rw [hsplit] at hsorted
  have hmedian := isMedian_append hsorted (by rw [hlen, List.length_take]; omega)
    (by rw [hlen, List.length_drop]; omega)
  rwa [← hsplit] at hmedian

/-- **When the median is the least value there can be**: when more than half
of the elements have it. -/
theorem IsMedian.eq_least_iff (hodd : l.length % 2 = 1) (h : IsMedian l m) (hb : ∀ x ∈ l, b ≤ x) :
    m = b ↔ l.length < 2 * l.count b := by
  have hsplit := countP_le_add l b
  have hcount : l.countP (· ≤ b) = l.count b := by
    refine List.countP_congr fun x hx => ?_
    have hle := hb x hx
    have hiff : x ≤ b ↔ x = b := ⟨fun h => le_antisymm h hle, fun h => h.le⟩
    simpa using hiff
  constructor
  · rintro rfl
    have habove := h.above
    omega
  · intro hmany
    by_contra hne
    have hlt : b < m := lt_of_le_of_ne (hb m h.mem) (Ne.symm hne)
    have hmono : l.countP (· ≤ b) ≤ l.countP (· < m) := by
      refine List.countP_mono_left fun x _ hx => ?_
      have hle : x ≤ b := by simpa using hx
      simpa using lt_of_le_of_lt hle hlt
    have hbelow := h.below
    omega

/-- **A median does not fall** when an element from it on comes in front, and a
list that would get longer than `k` loses its last. -/
theorem IsMedian.le_take {k : Nat} {x : α} (hodd : k % 2 = 1) (hlen : l.length ≤ k) (h : IsMedian l m) (hx : m ≤ x)
    (h' : IsMedian ((x :: l).take k) m') : m ≤ m' := by
  by_contra hlt
  have hsplit := countP_le_add l m'
  have hbelow : l.countP (· ≤ m') ≤ l.countP (· < m) :=
    List.countP_mono_left fun y _ hy => by simpa using lt_of_le_of_lt (by simpa using hy) (not_le.mp hlt)
  have hcut : (x :: l).countP (m' < ·) = ((x :: l).take k).countP (m' < ·) + ((x :: l).drop k).countP (m' < ·) := by
    rw [← List.countP_append, List.take_append_drop]
  have hlost : ((x :: l).drop k).countP (m' < ·) ≤ ((x :: l).drop k).length := List.countP_le_length
  rw [List.countP_cons_of_pos (by simpa using lt_of_lt_of_le (not_le.mp hlt) hx)] at hcut
  have hab := h'.above
  have hbe := h.below
  simp only [List.length_take, List.length_drop, List.length_cons] at hab hlost
  omega

end Median
