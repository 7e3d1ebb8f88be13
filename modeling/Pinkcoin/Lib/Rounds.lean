/-
A loop that is left when one of its rounds says so. What a round meets may
differ from round to round, so a round is given its number.
-/
import Mathlib.Data.Nat.Basic

namespace Rounds

/-- How a round ends: with another one, or with a result. -/
inductive Turn (S R : Type)
  | again (s : S)
  | done (r : R)

variable {S R : Type} (round : Nat → S → Turn S R)

/-- The loop, for at most `fuel` more rounds. -/
def loop : Nat → Nat → S → Option R
  | 0, _, _ => none
  | fuel + 1, n, s =>
    match round n s with
    | .again s => loop fuel (n + 1) s
    | .done r => some r

/-- The round that ends the loop: its number, and the state it starts in. -/
def last : Nat → Nat → S → Option (Nat × S)
  | 0, _, _ => none
  | fuel + 1, n, s =>
    match round n s with
    | .again s => last fuel (n + 1) s
    | .done _ => some (n, s)

variable {round} {Inv : S → Prop} {Post : R → Prop} {fuel n : Nat} {s : S} {r : R}

/-- **What every round keeps holds of the result.** -/
theorem loop_meets (hagain : ∀ n s s', Inv s → round n s = .again s' → Inv s')
    (hdone : ∀ n s r, Inv s → round n s = .done r → Post r) (hs : Inv s) (hloop : loop round fuel n s = some r) : Post r := by
  induction fuel generalizing n s with
  | zero => exact nomatch hloop
  | succ fuel ih =>
    unfold loop at hloop
    cases hround : round n s with
    | again s' =>
      rw [hround] at hloop
      exact ih (hagain n s s' hs hround) hloop
    | done r' =>
      rw [hround] at hloop
      obtain rfl : r' = r := Option.some.inj hloop
      exact hdone n s r' hs hround

/-- **A loop ends** when a measure falls from round to round, and more fuel
than the measure does not change its result. -/
theorem loop_ends (μ : S → Nat) (hagain : ∀ n s s', round n s = .again s' → μ s' < μ s) :
    ∃ r, ∀ fuel, μ s < fuel → loop round fuel n s = some r := by
  induction hk : μ s using Nat.strongRecOn generalizing n s with
  | ind k ih =>
    cases hround : round n s with
    | done r =>
      refine ⟨r, fun fuel hfuel => ?_⟩
      obtain ⟨fuel, rfl⟩ : ∃ fuel', fuel = fuel' + 1 := ⟨fuel - 1, by omega⟩
      simp only [loop, hround]
    | again s' =>
      have hless := hagain n s s' hround
      obtain ⟨r, hr⟩ := ih (μ s') (hk ▸ hless) rfl
      refine ⟨r, fun fuel hfuel => ?_⟩
      obtain ⟨fuel, rfl⟩ : ∃ fuel', fuel = fuel' + 1 := ⟨fuel - 1, by omega⟩
      simp only [loop, hround]
      exact hr fuel (by omega)

/-- The result is that of the last round. -/
theorem loop_eq_some_iff :
    loop round fuel n s = some r ↔ ∃ m s', last round fuel n s = some (m, s') ∧ round m s' = .done r := by
  induction fuel generalizing n s with
  | zero => simp [loop, last]
  | succ fuel ih =>
    rw [loop, last]
    cases hround : round n s with
    | again s' => exact ih
    | done r' =>
      simp only [Option.some.injEq, Prod.mk.injEq]
      constructor
      · rintro rfl
        exact ⟨n, s, ⟨rfl, rfl⟩, hround⟩
      · rintro ⟨m, s', ⟨rfl, rfl⟩, hdone⟩
        exact Turn.done.inj (hround.symm.trans hdone)

section Lockstep

variable {T Q : Type} {round' : Nat → T → Turn T Q} {Rel : S → T → Prop} {t : T}

/-- **Two loops in lockstep**, round by round from related states, end in the
same round. -/
theorem last_lockstep
    (hagain : ∀ n s t s', Rel s t → round n s = .again s' → ∃ t', round' n t = .again t' ∧ Rel s' t')
    (hdone : ∀ n s t r, Rel s t → round n s = .done r → ∃ q, round' n t = .done q) (hst : Rel s t) {m : Nat} {s' : S}
    (hlast : last round fuel n s = some (m, s')) : ∃ t', last round' fuel n t = some (m, t') ∧ Rel s' t' := by
  induction fuel generalizing n s t with
  | zero => exact nomatch hlast
  | succ fuel ih =>
    rw [last] at hlast ⊢
    cases hround : round n s with
    | again s₁ =>
      rw [hround] at hlast
      obtain ⟨t₁, hround', hrel⟩ := hagain n s t s₁ hst hround
      rw [hround']
      exact ih hrel hlast
    | done r =>
      rw [hround] at hlast
      obtain ⟨q, hround'⟩ := hdone n s t r hst hround
      cases hlast
      rw [hround']
      exact ⟨t, rfl, hst⟩

end Lockstep

end Rounds
