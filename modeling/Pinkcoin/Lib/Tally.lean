/-
A weight summed over a row of buckets, and what changing one bucket does to
the sum. With the number of copies of a value in a bucket as its weight, the
sum counts the copies in the whole row.
-/
import Mathlib.Algebra.Order.BigOperators.Group.List
import Mathlib.Algebra.Order.Ring.Nat

/-- The sum of the weights. -/
def tally {β : Type} (w : β → Nat) (row : List β) : Nat := (row.map w).sum

namespace Tally

variable {β : Type} {w v : β → Nat} {row : List β} {f : β → β} {b : Nat} {x : β}

/-- **Changing one bucket changes the sum by what the bucket changes.** -/
theorem tally_modify (hx : row[b]? = some x) : tally w (row.modify b f) + w x = tally w row + w (f x) := by
  induction row generalizing b with
  | nil => exact nomatch hx
  | cons y row ih =>
    cases b with
    | zero =>
      obtain rfl := Option.some.inj hx
      simp only [tally, List.modify_zero_cons, List.map_cons, List.sum_cons]
      omega
    | succ b =>
      have h := ih hx
      simp only [tally, List.modify_succ_cons, List.map_cons, List.sum_cons] at h ⊢
      omega

theorem tally_modify_of_eq (h : ∀ x, row[b]? = some x → w (f x) = w x) : tally w (row.modify b f) = tally w row := by
  cases hx : row[b]? with
  | none => rw [List.modify_eq_self (List.getElem?_eq_none_iff.mp hx)]
  | some x =>
    have := tally_modify (w := w) (f := f) hx
    rw [h x hx] at this
    omega

theorem tally_map_of_eq (h : ∀ x ∈ row, w (f x) = v x) : tally w (row.map f) = tally v row := by
  rw [tally, tally, List.map_map]
  exact congrArg List.sum (List.map_congr_left h)

theorem le_tally (hx : x ∈ row) : w x ≤ tally w row :=
  List.single_le_sum (fun _ _ => Nat.zero_le _) _ (List.mem_map_of_mem hx)

theorem tally_eq_zero (h : ∀ x ∈ row, w x = 0) : tally w row = 0 :=
  List.sum_eq_zero fun n hn => by
    obtain ⟨x, hx, rfl⟩ := List.mem_map.mp hn
    exact h x hx

/-- A row whose buckets all weigh no more. -/
theorem tally_le {row' : List β} (h : ∀ (b : Nat) x, row[b]? = some x → ∃ y, row'[b]? = some y ∧ w x ≤ v y) :
    tally w row ≤ tally v row' := by
  induction row generalizing row' with
  | nil => exact Nat.zero_le _
  | cons x row ih =>
    obtain ⟨y, hy, hle⟩ := h 0 x rfl
    cases row' with
    | nil => exact nomatch hy
    | cons z row' =>
      obtain rfl := Option.some.inj hy
      have hrest : tally w row ≤ tally v row' := ih fun (b : Nat) x hx => h (b + 1) x hx
      simp only [tally, List.map_cons, List.sum_cons] at hrest ⊢
      omega

/-- A positive sum comes from a bucket. -/
theorem exists_of_tally_pos (h : 0 < tally w row) : ∃ x ∈ row, 0 < w x := by
  by_contra hnot
  have hzero : tally w row = 0 := tally_eq_zero fun x hx => by
    by_contra hne
    exact hnot ⟨x, hx, Nat.pos_of_ne_zero hne⟩
  omega

/-! ## Buckets of a size -/

section Fill

variable {α : Type} (bucket : α → Nat) (size : Nat)

/-- One value after the other goes to its bucket, or is lost when the bucket is
full. What is in the buckets, in order, when `kept` was there before. -/
def fill : List α → List α → List α
  | kept, [] => kept
  | kept, a :: l => fill (if kept.countP (bucket · = bucket a) < size then kept ++ [a] else kept) l

variable {bucket size} {kept l : List α}

theorem fill_sublist : (fill bucket size kept l).Sublist (kept ++ l) := by
  induction l generalizing kept with
  | nil => exact List.sublist_append_left kept []
  | cons a l ih =>
    rw [fill]
    split
    · rw [List.append_cons kept a l]
      exact ih
    · exact ih.trans ((List.sublist_cons_self a l).append_left kept)

theorem countP_fill_le (h : ∀ k, kept.countP (bucket · = k) ≤ size) (k : Nat) :
    (fill bucket size kept l).countP (bucket · = k) ≤ size := by
  induction l generalizing kept with
  | nil => exact h k
  | cons a l ih =>
    rw [fill]
    split
    next hroom =>
      refine ih fun k => ?_
      rw [List.countP_append, List.countP_singleton]
      by_cases hk : bucket a = k
      · subst hk
        rw [if_pos (decide_eq_true rfl)]
        exact hroom
      · rw [if_neg (by simpa using hk)]
        exact h k
    next => exact ih h

/-- Nothing is lost while each bucket has room for all of its values. -/
theorem fill_eq (h : ∀ k, (kept ++ l).countP (bucket · = k) ≤ size) : fill bucket size kept l = kept ++ l := by
  induction l generalizing kept with
  | nil => exact (List.append_nil kept).symm
  | cons a l ih =>
    have hroom : kept.countP (bucket · = bucket a) < size := by
      have ha := h (bucket a)
      rw [List.countP_append, List.countP_cons, if_pos (decide_eq_true rfl)] at ha
      omega
    rw [fill, if_pos hroom, ih fun k => by rw [← List.append_cons]; exact h k, ← List.append_cons]

/-- **All values are kept** when, and only when, no bucket is given too many. -/
theorem fill_eq_iff : fill bucket size [] l = l ↔ ∀ k, l.countP (bucket · = k) ≤ size := by
  constructor
  · intro h k
    rw [← h]
    exact countP_fill_le (fun _ => Nat.zero_le _) k
  · exact fun h => fill_eq (by rwa [List.nil_append])

end Fill

end Tally
