/-
Programs of a machine with a stack, typed by depth. A program that starts
with `n` elements on the stack and never reaches beyond them is given the
depth it ends with, what is known of the value it returns, and how the rest
of the machine may change on the way.
-/
import Pinkcoin.Lib.StateError

namespace Depth

open StateError

/-- The stack of a machine, the stops that are faults, and what may become of
the machine: in a part that returns, and in one that stops. -/
structure Discipline (ε σ : Type) where
  depth : σ → Nat
  Fault : ε → Prop
  Goes : σ → σ → Prop
  Stops : σ → σ → Prop
  refl : ∀ s, Goes s s
  trans : ∀ {s t u}, Goes s t → Goes t u → Goes s u
  stops : ∀ {s t}, Goes s t → Stops s t
  trans_stops : ∀ {s t u}, Goes s t → Stops t u → Stops s u

variable {ε σ α β : Type} {D : Discipline ε σ} {n k m : Nat} {V : α → Prop} {W : β → Prop}

/-- From depth `n` the program does not fault, and ends at depth `m` with a
value in `V`. -/
def Uses (D : Discipline ε σ) (n m : Nat) (V : α → Prop) (x : EStateM ε σ α) : Prop :=
  ∀ s, n ≤ D.depth s →
    match x s with
    | .ok a s' => m ≤ D.depth s' ∧ V a ∧ D.Goes s s'
    | .error e s' => ¬ D.Fault e ∧ D.Stops s s'

/-- Nothing is known of the value. -/
abbrev Any : α → Prop := fun _ => True

theorem uses_bind {x : EStateM ε σ α} {f : α → EStateM ε σ β} (hx : Uses D n k V x)
    (hf : ∀ a, V a → Uses D k m W (f a)) : Uses D n m W (x >>= f) := by
  intro s hs
  have h := hx s hs
  simp only [bind, EStateM.bind]
  cases hrun : x s with
  | ok a t =>
    rw [hrun] at h
    obtain ⟨hdepth, hval, hgoes⟩ := h
    have hrest := hf a hval t hdepth
    simp only
    cases hrun' : f a t with
    | ok b u =>
      rw [hrun'] at hrest
      exact ⟨hrest.1, hrest.2.1, D.trans hgoes hrest.2.2⟩
    | error e u =>
      rw [hrun'] at hrest
      exact ⟨hrest.1, D.trans_stops hgoes hrest.2⟩
  | error e t =>
    rw [hrun] at h
    exact h

theorem uses_pure {a : α} (h : V a) : Uses D n n V (pure a) := fun s hs => ⟨hs, h, D.refl s⟩

theorem uses_throw {e : ε} (h : ¬ D.Fault e) : Uses D n m V (throw e) := fun s _ => ⟨h, D.stops (D.refl s)⟩

theorem Uses.mono {V' : α → Prop} {n' m' : Nat} {x : EStateM ε σ α} (h : Uses D n m V x) (hn : n ≤ n') (hm : m' ≤ m)
    (hV : ∀ a, V a → V' a) : Uses D n' m' V' x := by
  intro s hs
  have hx := h s (Nat.le_trans hn hs)
  cases hrun : x s with
  | ok a t =>
    rw [hrun] at hx
    exact ⟨Nat.le_trans hm hx.1, hV a hx.2.1, hx.2.2⟩
  | error e t =>
    rw [hrun] at hx
    exact hx

theorem uses_ite {c : Prop} [Decidable c] {x y : EStateM ε σ α} (hx : c → Uses D n m V x) (hy : ¬ c → Uses D n m V y) :
    Uses D n m V (if c then x else y) := by
  by_cases hc : c
  · rw [if_pos hc]
    exact hx hc
  · rw [if_neg hc]
    exact hy hc

/-- What is read of the machine is only a value. -/
theorem uses_get {f : σ → EStateM ε σ α} (h : ∀ s, Uses D n m V (f s)) : Uses D n m V (get >>= f) := fun s hs => h s s hs

/-- A step outside the stack. -/
theorem uses_modify {g : σ → σ} (hdepth : ∀ s, D.depth (g s) = D.depth s) (hgoes : ∀ s, D.Goes s (g s)) :
    Uses D n n Any (modify g : EStateM ε σ PUnit) := by
  intro s hs
  change n ≤ D.depth (g s) ∧ True ∧ D.Goes s (g s)
  rw [hdepth]
  exact ⟨hs, trivial, hgoes s⟩

/-- A guard that stops with something else than a fault. -/
theorem uses_rejectIf {c : Prop} [Decidable c] {e : ε} (h : ¬ D.Fault e) :
    Uses D n n (fun _ => ¬ c) (rejectIf c e : EStateM ε σ Unit) := by
  by_cases hc : c
  · rw [rejectIf, if_pos hc]
    exact uses_throw h
  · rw [rejectIf, if_neg hc]
    exact uses_pure hc

/-- A guard on the machine, after which it is known to be deeper. -/
theorem uses_guard {c : σ → Prop} [∀ s, Decidable (c s)] {e : ε} {f : σ → EStateM ε σ α} (h : ¬ D.Fault e)
    (hdepth : ∀ s, ¬ c s → k ≤ D.depth s) (hf : ∀ s, ¬ c s → Uses D k m V (f s)) :
    Uses D n m V (get >>= fun s => rejectIf (c s) e >>= fun _ => f s) := by
  intro s hs
  by_cases hc : c s
  · have hrun : (get >>= fun s => rejectIf (c s) e >>= fun _ => f s) s = .error e s := by
      simp [bind, EStateM.bind, get_run, rejectIf, hc, throw_run]
    rw [hrun]
    exact ⟨h, D.stops (D.refl s)⟩
  · have hrun : (get >>= fun s => rejectIf (c s) e >>= fun _ => f s) s = f s s := by
      simp [bind, EStateM.bind, get_run, rejectIf, hc, pure, EStateM.pure]
    rw [hrun]
    exact hf s hc s (hdepth s hc)

end Depth
