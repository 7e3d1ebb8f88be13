/-
The elements of a list that a list of flags picks, and what setting one flag
does to a sum over them.
-/
import Mathlib.Algebra.BigOperators.Group.List.Basic

namespace Picked

variable {α M : Type}

/-- The elements whose flag is set. -/
def picked : List Bool → List α → List α
  | b :: flags, a :: l => if b then a :: picked flags l else picked flags l
  | [], _ => []
  | _ :: _, [] => []

variable {flags : List Bool} {l : List α} {a : α} {i : Nat}

theorem picked_sublist (flags : List Bool) (l : List α) : (picked flags l).Sublist l := by
  induction l generalizing flags with
  | nil => cases flags <;> exact .slnil
  | cons a l ih =>
    cases flags with
    | nil => exact List.nil_sublist _
    | cons b flags =>
      cases b with
      | true => exact (ih flags).cons₂ a
      | false => exact (ih flags).cons a

theorem picked_all (l : List α) : picked (List.replicate l.length true) l = l := by
  induction l with
  | nil => rfl
  | cons a l ih => exact congrArg (a :: ·) ih

theorem picked_none (n : Nat) (l : List α) : picked (List.replicate n false) l = [] := by
  induction n generalizing l with
  | zero => rfl
  | succ n ih =>
    cases l with
    | nil => rfl
    | cons a l => exact ih l

/-- Setting a flag adds its element. -/
theorem sum_picked_set [AddCommMonoid M] (f : α → M) (hflag : flags[i]? = some false) (ha : l[i]? = some a) :
    ((picked (flags.set i true) l).map f).sum = ((picked flags l).map f).sum + f a := by
  induction l generalizing flags i with
  | nil => exact nomatch ha
  | cons b l ih =>
    cases flags with
    | nil => exact nomatch hflag
    | cons c flags =>
      cases i with
      | zero =>
        obtain rfl : b = a := Option.some.inj ha
        obtain rfl : c = false := Option.some.inj hflag
        exact add_comm _ _
      | succ i =>
        have hrest : ((picked (flags.set i true) l).map f).sum = ((picked flags l).map f).sum + f a := ih hflag ha
        cases c with
        | false => exact hrest
        | true =>
          have hcons : ((picked ((true :: flags).set (i + 1) true) (b :: l)).map f).sum =
              f b + ((picked (flags.set i true) l).map f).sum := List.sum_cons
          have hcons' : ((picked (true :: flags) (b :: l)).map f).sum = f b + ((picked flags l).map f).sum := List.sum_cons
          rw [hcons, hcons', hrest, add_assoc]

/-- A flag that is set and cleared again. -/
theorem set_set_of_flag (hflag : flags[i]? = some false) : (flags.set i true).set i false = flags := by
  obtain ⟨hi, hget⟩ := List.getElem?_eq_some_iff.mp hflag
  rw [List.set_set, ← hget, List.set_getElem_self hi]

end Picked
