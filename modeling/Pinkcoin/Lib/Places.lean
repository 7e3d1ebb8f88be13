/-
A list that is also read backwards: beside the list, each element is kept
with the position it has in it. Elements are taken out by swapping them with
the last one.
-/
import Mathlib.Data.List.Nodup
import Mathlib.Logic.Function.Basic

/-- The list and the positions say the same. -/
structure Places {α : Type} (order : List α) (pos : α → Option Int) : Prop where
  placed : ∀ {x q}, pos x = some q → 0 ≤ q ∧ order[q.toNat]? = some x
  position : ∀ {x} {p : Nat}, order[p]? = some x → pos x = some (p : Int)

namespace Places

variable {α : Type} {order : List α} {pos : α → Option Int} {x y : α} {p q : Nat}

theorem empty : Places ([] : List α) fun _ => none where
  placed := nofun
  position := nofun

theorem congr {pos' : α → Option Int} (h : Places order pos) (hpos : ∀ x, pos' x = pos x) : Places order pos' := by
  rwa [funext hpos]

theorem mem_iff (h : Places order pos) : x ∈ order ↔ (pos x).isSome := by
  constructor
  · intro hx
    obtain ⟨p, hp⟩ := List.getElem?_of_mem hx
    rw [h.position hp]
    rfl
  · intro hx
    obtain ⟨q, hq⟩ := Option.isSome_iff_exists.mp hx
    exact List.mem_of_getElem? (h.placed hq).2

/-- An element has one position. -/
theorem nodup (h : Places order pos) : order.Nodup := by
  refine List.nodup_iff_getElem?_ne_getElem?.mpr fun i j hij hj heq => ?_
  have hi := h.position (List.getElem?_eq_getElem (Nat.lt_trans hij hj))
  have hj' := h.position (p := j) (heq.symm.trans (List.getElem?_eq_getElem (Nat.lt_trans hij hj)))
  have hsame := Option.some.inj (hi.symm.trans hj')
  omega

section Update

variable [DecidableEq α]

theorem push (h : Places order pos) (hx : pos x = none) :
    Places (order ++ [x]) (Function.update pos x (some (order.length : Int))) where
  placed := by
    intro y q hy
    by_cases hxy : y = x
    · subst hxy
      rw [Function.update_self, Option.some.injEq] at hy
      subst hy
      exact ⟨Int.natCast_nonneg _, by rw [Int.toNat_natCast, List.getElem?_concat_length]⟩
    · rw [Function.update_of_ne hxy] at hy
      obtain ⟨hq, hat⟩ := h.placed hy
      exact ⟨hq, by rw [List.getElem?_append_left (List.getElem?_eq_some_iff.mp hat).1, hat]⟩
  position := by
    intro y p hp
    rw [List.getElem?_append] at hp
    split at hp
    · have hpos := h.position hp
      have hxy : y ≠ x := by
        rintro rfl
        rw [hx] at hpos
        exact nomatch hpos
      rw [Function.update_of_ne hxy, hpos]
    · obtain ⟨hlt, heq⟩ := List.getElem?_eq_some_iff.mp hp
      rw [List.getElem_singleton] at heq
      rw [List.length_singleton] at hlt
      rw [← heq, Function.update_self]
      congr
      omega

/-- Two elements change places. -/
theorem swap (h : Places order pos) (hp : order[p]? = some x) (hq : order[q]? = some y) (hpq : p ≠ q) :
    Places ((order.set p y).set q x) (Function.update (Function.update pos x (some (q : Int))) y (some (p : Int))) := by
  have hxy : x ≠ y := by
    rintro rfl
    have hsame := Option.some.inj ((h.position hp).symm.trans (h.position hq))
    omega
  have hplt := (List.getElem?_eq_some_iff.mp hp).1
  have hqlt := (List.getElem?_eq_some_iff.mp hq).1
  have hat : ∀ r, ((order.set p y).set q x)[r]? = if q = r then some x else if p = r then some y else order[r]? := by
    intro r
    rw [List.getElem?_set, List.getElem?_set, List.length_set, if_pos hqlt, if_pos hplt]
  constructor
  · intro z r hz
    by_cases hzy : z = y
    · subst hzy
      rw [Function.update_self, Option.some.injEq] at hz
      subst hz
      rw [hat, Int.toNat_natCast, if_neg (Ne.symm hpq), if_pos rfl]
      exact ⟨Int.natCast_nonneg _, rfl⟩
    · rw [Function.update_of_ne hzy] at hz
      by_cases hzx : z = x
      · subst hzx
        rw [Function.update_self, Option.some.injEq] at hz
        subst hz
        rw [hat, Int.toNat_natCast, if_pos rfl]
        exact ⟨Int.natCast_nonneg _, rfl⟩
      · rw [Function.update_of_ne hzx] at hz
        obtain ⟨hr, hzr⟩ := h.placed hz
        have hne : q ≠ r.toNat ∧ p ≠ r.toNat := by
          constructor
          · rintro rfl
            exact hzy (Option.some.inj (hzr.symm.trans hq))
          · rintro rfl
            exact hzx (Option.some.inj (hzr.symm.trans hp))
        rw [hat, if_neg hne.1, if_neg hne.2]
        exact ⟨hr, hzr⟩
  · intro z r hz
    rw [hat] at hz
    split at hz
    next hr =>
      subst hr
      obtain rfl := Option.some.inj hz
      rw [Function.update_of_ne hxy, Function.update_self]
    next hqr =>
      split at hz
      next hr =>
        subst hr
        obtain rfl := Option.some.inj hz
        rw [Function.update_self]
      next hpr =>
        have hpos := h.position hz
        have hzx : z ≠ x := by
          rintro rfl
          have hsame := Option.some.inj ((h.position hp).symm.trans hpos)
          omega
        have hzy : z ≠ y := by
          rintro rfl
          have hsame := Option.some.inj ((h.position hq).symm.trans hpos)
          omega
        rw [Function.update_of_ne hzy, Function.update_of_ne hzx, hpos]

/-- The last element leaves. -/
theorem pop (h : Places order pos) (hx : order.getLast? = some x) :
    Places order.dropLast (Function.update pos x none) := by
  have hlast : order[order.length - 1]? = some x := by rwa [← List.getLast?_eq_getElem?]
  constructor
  · intro y q hy
    by_cases hxy : y = x
    · subst hxy
      rw [Function.update_self] at hy
      exact nomatch hy
    · rw [Function.update_of_ne hxy] at hy
      obtain ⟨hq, hat⟩ := h.placed hy
      have hlt := (List.getElem?_eq_some_iff.mp hat).1
      have hne : q.toNat ≠ order.length - 1 := fun heq => hxy (Option.some.inj ((heq ▸ hat).symm.trans hlast))
      refine ⟨hq, ?_⟩
      rw [List.getElem?_dropLast, if_pos (by omega), hat]
  · intro y p hp
    rw [List.getElem?_dropLast] at hp
    split at hp
    next hlt =>
      have hpos := h.position hp
      have hxy : y ≠ x := by
        rintro rfl
        have hsame := Option.some.inj (hpos.symm.trans (h.position hlast))
        omega
      rw [Function.update_of_ne hxy, hpos]
    next => exact nomatch hp

end Update

end Places
