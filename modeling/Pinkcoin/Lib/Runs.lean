/-
Runs of a machine whose calls are functions of its state: the state after a
list of calls, and what holds in it when every call of the run was made in a
state that meets a condition.
-/
import Mathlib.Data.List.Basic

namespace Runs

variable {C S : Type} (run : C → S → S)

/-- The state after the calls. -/
def play : List C → S → S
  | [], s => s
  | c :: calls, s => play calls (run c s)

/-- Each call meets `cond` in the state it is made in. -/
def Meets (cond : C → S → Prop) : List C → S → Prop
  | [], _ => True
  | c :: calls, s => cond c s ∧ Meets cond calls (run c s)

variable {run} {cond : C → S → Prop} {Inv : S → Prop} {c : C} {calls calls' : List C} {s : S}

theorem play_append : play run (calls ++ calls') s = play run calls' (play run calls s) := by
  induction calls generalizing s with
  | nil => rfl
  | cons c calls ih => exact ih

theorem meets_append : Meets run cond (calls ++ calls') s ↔ Meets run cond calls s ∧ Meets run cond calls' (play run calls s) := by
  induction calls generalizing s with
  | nil => simp [Meets, play]
  | cons c calls ih => simp [Meets, play, ih, and_assoc]

theorem Meets.and {cond' : C → S → Prop} (hmeets : Meets run cond calls s) (hmeets' : Meets run cond' calls s) :
    Meets run (fun c s => cond c s ∧ cond' c s) calls s := by
  induction calls generalizing s with
  | nil => trivial
  | cons c calls ih => exact ⟨⟨hmeets.1, hmeets'.1⟩, ih hmeets.2 hmeets'.2⟩

/-- A condition on the calls alone. -/
theorem meets_const {cond : C → Prop} : Meets run (fun c _ => cond c) calls s ↔ ∀ c ∈ calls, cond c := by
  induction calls generalizing s with
  | nil => simp [Meets]
  | cons c calls ih => simp [Meets, ih]

/-- What every call keeps, whatever it meets. -/
theorem play_keeps (hstep : ∀ c s, Inv s → Inv (run c s)) (hs : Inv s) : Inv (play run calls s) := by
  induction calls generalizing s with
  | nil => exact hs
  | cons c calls ih => exact ih (hstep c s hs)

/-- **What every call keeps, a run keeps.** -/
theorem Meets.keeps (hstep : ∀ c s, Inv s → cond c s → Inv (run c s)) (hs : Inv s) (hmeets : Meets run cond calls s) :
    Inv (play run calls s) := by
  induction calls generalizing s with
  | nil => exact hs
  | cons c calls ih => exact ih (hstep c s hs hmeets.1) hmeets.2

/-- **A property holds in every state of a run exactly where every call meets
the condition**, when that is exact for one call from the states of an
invariant that implies the property. -/
theorem holds_iff_meets {Holds : S → Prop} (hholds : ∀ s, Inv s → Holds s)
    (hexact : ∀ c s, Inv s → (Holds (run c s) ↔ cond c s)) (hstep : ∀ c s, Inv s → cond c s → Inv (run c s)) (hs : Inv s) :
    (∀ n, Holds (play run (calls.take n) s)) ↔ Meets run cond calls s := by
  induction calls generalizing s with
  | nil => simp [Meets, play, hholds s hs]
  | cons c calls ih =>
    constructor
    · intro hall
      have hfirst : cond c s := (hexact c s hs).mp (hall 1)
      exact ⟨hfirst, (ih (hstep c s hs hfirst)).mp fun n => hall (n + 1)⟩
    · intro hmeets n
      cases n with
      | zero => exact hholds s hs
      | succ n => exact (ih (hstep c s hs hmeets.1)).mpr hmeets.2 n

/-- **A run is safe in every state exactly where every call meets the
condition**, when that is exact for one call. -/
theorem safe_iff_meets (hstep : ∀ c s, Inv s → (Inv (run c s) ↔ cond c s)) (hs : Inv s) :
    (∀ n, Inv (play run (calls.take n) s)) ↔ Meets run cond calls s :=
  holds_iff_meets (fun _ h => h) hstep (fun c s hs => (hstep c s hs).mpr) hs

end Runs
