/-
A pass over distinct keys, where the step at a key changes what is seen at
that key alone: it happens once at each key of the list and nowhere else.
-/
import Mathlib.Data.List.Nodup

namespace Pass

variable {ε S K V : Type} [DecidableEq K]

/-- **Once at each key.** `Inv` is kept by every step, and `R` says at
which keys the step does not fail. -/
theorem foldlM_each {step : S → K → Except ε S} {view : S → K → V} {change : K → V → V} {Inv : S → Prop}
    {R : K → V → Prop}
    (hstep : ∀ s k, Inv s → R k (view s k) → ∃ s', step s k = .ok s' ∧ Inv s' ∧
      ∀ x, view s' x = if x = k then change k (view s k) else view s x)
    {l : List K} (hnodup : l.Nodup) {s : S} (hs : Inv s) (hready : ∀ k ∈ l, R k (view s k)) :
    ∃ s', l.foldlM step s = .ok s' ∧ Inv s' ∧ ∀ x, view s' x = if x ∈ l then change x (view s x) else view s x := by
  induction l generalizing s with
  | nil => exact ⟨s, rfl, hs, fun x => by simp⟩
  | cons k l ih =>
    obtain ⟨hk, hrest⟩ := List.nodup_cons.mp hnodup
    obtain ⟨t, ht, hinv, hview⟩ := hstep s k hs (hready k List.mem_cons_self)
    have hready' : ∀ j ∈ l, R j (view t j) := fun j hj => by
      have hne : j ≠ k := fun heq => hk (heq ▸ hj)
      rw [hview, if_neg hne]
      exact hready j (List.mem_cons_of_mem _ hj)
    obtain ⟨s', hs', hinv', hview'⟩ := ih hrest hinv hready'
    refine ⟨s', ?_, hinv', fun x => ?_⟩
    · rw [List.foldlM_cons, ht]
      exact hs'
    · rw [hview', hview]
      by_cases hx : x = k
      · subst hx
        rw [if_neg hk, if_pos rfl, if_pos List.mem_cons_self]
      · simp [hx]

end Pass
