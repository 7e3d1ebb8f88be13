/-
What a program costs, in a measure of the state: however its run ends, the
measure has grown by that much at most. The cost of a sequence is the sum of
the costs of its parts.
-/
import Pinkcoin.Lib.StateError

namespace Cost

open StateError

variable {ε σ α β : Type} {μ : σ → Nat} {b c : Nat} {x y : EStateM ε σ α} {f : α → EStateM ε σ β}

/-- However the run of `x` ends, the measure has grown by `c` at most. -/
def Costs (μ : σ → Nat) (c : Nat) (x : EStateM ε σ α) : Prop := ∀ s, μ (endState (x s)) ≤ μ s + c

theorem costs_bind (hx : Costs μ b x) (hf : ∀ a, Costs μ c (f a)) : Costs μ (b + c) (x >>= f) := by
  intro s
  have hfirst := hx s
  simp only [bind, EStateM.bind]
  cases hrun : x s with
  | ok a t =>
    rw [hrun, endState_ok] at hfirst
    have hrest := hf a t
    simp only
    omega
  | error e t =>
    rw [hrun, endState_error] at hfirst
    simp only [endState_error]
    omega

/-- What comes after a part that is free. -/
theorem costs_after (hx : Costs μ 0 x) (hf : ∀ a, Costs μ c (f a)) : Costs μ c (x >>= f) := by
  have h := costs_bind hx hf
  rwa [Nat.zero_add] at h

theorem costs_pure (a : α) : Costs μ c (pure a : EStateM ε σ α) := fun s => Nat.le_add_right (μ s) c

theorem costs_throw (e : ε) : Costs μ c (throw e : EStateM ε σ α) := fun s => Nat.le_add_right (μ s) c

/-- What is read of the state is only a value. -/
theorem costs_get {g : σ → EStateM ε σ α} (h : ∀ s, Costs μ c (g s)) : Costs μ c (get >>= g) := fun s => h s s

theorem costs_modify {g : σ → σ} (h : ∀ s, μ (g s) ≤ μ s + c) : Costs μ c (modify g : EStateM ε σ Unit) := h

theorem costs_ite {p : Prop} [Decidable p] (hx : p → Costs μ c x) (hy : ¬ p → Costs μ c y) :
    Costs μ c (if p then x else y) := by
  by_cases hp : p
  · rw [if_pos hp]
    exact hx hp
  · rw [if_neg hp]
    exact hy hp

theorem costs_rejectIf (p : Prop) [Decidable p] (e : ε) : Costs μ c (rejectIf p e : EStateM ε σ Unit) :=
  costs_ite (fun _ => costs_throw e) fun _ => costs_pure ()

end Cost
