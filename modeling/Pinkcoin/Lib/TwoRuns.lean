/-
Two checks side by side. They agree when both stop with an error, or both
return and what they return is related; the errors may differ.
-/
import Pinkcoin.Lib.StateError

namespace TwoRuns

open StateError

variable {ε α α' β β' : Type} {R R' : α → α' → Prop} {S : β → β' → Prop} {x : Except ε α} {x' : Except ε α'}

/-- Both fail, or both return and the results are related. -/
inductive Agree (R : α → α' → Prop) : Except ε α → Except ε α' → Prop
  | ok {a : α} {a' : α'} (h : R a a') : Agree R (.ok a) (.ok a')
  | error (e e' : ε) : Agree R (.error e) (.error e')

theorem agree_pure {a : α} {a' : α'} (h : R a a') : Agree R (pure a : Except ε α) (pure a' : Except ε α') := .ok h

theorem agree_throw (e e' : ε) : Agree R (throw e : Except ε α) (throw e' : Except ε α') := .error e e'

theorem agree_self (x : Except ε α) : Agree Eq x x := by
  cases x with
  | ok a => exact .ok rfl
  | error e => exact .error e e

theorem agree_bind {f : α → Except ε β} {f' : α' → Except ε β'} (hx : Agree R x x')
    (hf : ∀ a a', R a a' → Agree S (f a) (f' a')) : Agree S (x >>= f) (x' >>= f') := by
  cases hx with
  | ok h => exact hf _ _ h
  | error e e' => exact .error e e'

/-- A check that is the same on both sides. -/
theorem agree_rejectIf {c c' : Prop} [Decidable c] [Decidable c'] (e e' : ε) (h : c ↔ c') :
    Agree (fun _ _ => True) (rejectIf c e : Except ε Unit) (rejectIf c' e' : Except ε Unit) := by
  by_cases hc : c
  · rw [rejectIf, rejectIf, if_pos hc, if_pos (h.mp hc)]
    exact .error e e'
  · rw [rejectIf, rejectIf, if_neg hc, if_neg (mt h.mpr hc)]
    exact .ok trivial

/-- Checks that go together on both sides. -/
theorem agree_of_ok (h : ∀ a, x = .ok a → ∃ a', x' = .ok a' ∧ R a a') (h' : ∀ a', x' = .ok a' → ∃ a, x = .ok a) :
    Agree R x x' := by
  cases x with
  | ok a =>
    obtain ⟨a', rfl, hR⟩ := h a rfl
    exact .ok hR
  | error e =>
    cases x' with
    | ok a' =>
      obtain ⟨a, ha⟩ := h' a' rfl
      cases ha
    | error e' => exact .error e e'

theorem Agree.ok_iff (h : Agree R x x') : (∃ a, x = .ok a) ↔ ∃ a', x' = .ok a' := by
  cases h with
  | ok h => exact ⟨fun _ => ⟨_, rfl⟩, fun _ => ⟨_, rfl⟩⟩
  | error e e' => exact ⟨fun ⟨_, h⟩ => (nomatch h), fun ⟨_, h⟩ => (nomatch h)⟩

/-! ## One run that another follows -/

section Follows

variable {ε' : Type} {y : Except ε' α'}

/-- Where the first check returns the second does too, and the results are
related. -/
def Follows (R : α → α' → Prop) (x : Except ε α) (y : Except ε' α') : Prop := ∀ a, x = .ok a → ∃ a', y = .ok a' ∧ R a a'

theorem follows_pure {a : α} {a' : α'} (h : R a a') : Follows R (pure a : Except ε α) (pure a' : Except ε' α') := by
  intro b hb
  obtain rfl := except_pure_ok.mp hb
  exact ⟨a', rfl, h⟩

theorem follows_throw (e : ε) : Follows R (throw e : Except ε α) y := by
  intro a ha
  exact absurd ha (by simp)

theorem follows_bind {f : α → Except ε β} {f' : α' → Except ε' β'} (hx : Follows R x y)
    (hf : ∀ a a', R a a' → Follows S (f a) (f' a')) : Follows S (x >>= f) (y >>= f') := by
  intro b hb
  obtain ⟨a, ha, hb⟩ := except_bind_ok.mp hb
  obtain ⟨a', ha', hR⟩ := hx a ha
  obtain ⟨b', hb', hS⟩ := hf a a' hR b hb
  exact ⟨b', except_bind_ok.mpr ⟨a', ha', hb'⟩, hS⟩

/-- A check that the first run makes too. -/
theorem follows_rejectIf {c c' : Prop} [Decidable c] [Decidable c'] (e : ε) (e' : ε') (h : c' → c) :
    Follows (fun _ _ => True) (rejectIf c e : Except ε Unit) (rejectIf c' e' : Except ε' Unit) := by
  intro u hu
  exact ⟨(), except_rejectIf_ok.mpr (mt h (except_rejectIf_ok.mp hu)), trivial⟩

end Follows

end TwoRuns
