/-
A list shuffled in part: round `i` exchanges place `i` with a drawn place, no
earlier one. What is drawn is from then on at the place of its round. And the
first of the least among some numbered elements.
-/
import Mathlib.Data.List.Nodup
import Mathlib.Order.Lattice

namespace Shuffle

/-! ## The shuffle -/

section

variable {α : Type}

/-- Exchange two places. -/
def exchange (l : List α) (i p : Nat) : List α :=
  match l[i]?, l[p]? with
  | some a, some b => (l.set p a).set i b
  | _, _ => l

/-- The list after `k` rounds, where round `i` draws place `d i`. -/
def shuffle (d : Nat → Nat) (l : List α) : Nat → List α
  | 0 => l
  | k + 1 => exchange (shuffle d l k) k (d k)

/-- What round `i` draws. -/
def drawn (d : Nat → Nat) (l : List α) (i : Nat) : Option α := (shuffle d l i)[d i]?

/-- The first `k` draws are among the places not passed yet. -/
def Ahead (d : Nat → Nat) (l : List α) (k : Nat) : Prop := ∀ i < k, i ≤ d i ∧ d i < l.length

variable {d : Nat → Nat} {l : List α} {i j k p : Nat}

theorem exchange_eq {a b : α} (ha : l[i]? = some a) (hb : l[p]? = some b) : exchange l i p = (l.set p a).set i b := by
  rw [exchange, ha, hb]

theorem perm_exchange (l : List α) (i p : Nat) : (exchange l i p).Perm l := by
  cases ha : l[i]? with
  | none => rw [exchange, ha]
  | some a =>
    cases hb : l[p]? with
    | none => rw [exchange, ha, hb]
    | some b =>
      rw [exchange_eq ha hb]
      obtain ⟨hi, rfl⟩ := List.getElem?_eq_some_iff.mp ha
      obtain ⟨hp, rfl⟩ := List.getElem?_eq_some_iff.mp hb
      exact List.set_set_perm hp hi

theorem getElem?_exchange (hi : i < l.length) (hp : p < l.length) (q : Nat) :
    (exchange l i p)[q]? = if q = i then l[p]? else if q = p then l[i]? else l[q]? := by
  have ha := List.getElem?_eq_getElem hi
  have hb := List.getElem?_eq_getElem hp
  rw [exchange_eq ha hb, ha, hb]
  by_cases hqi : q = i
  · subst hqi
    rw [if_pos rfl, List.getElem?_set_self (by rwa [List.length_set])]
  · rw [if_neg hqi, List.getElem?_set_ne (Ne.symm hqi)]
    by_cases hqp : q = p
    · subst hqp
      rw [if_pos rfl, List.getElem?_set_self hp]
    · rw [if_neg hqp, List.getElem?_set_ne (Ne.symm hqp)]

theorem perm_shuffle (d : Nat → Nat) (l : List α) (k : Nat) : (shuffle d l k).Perm l := by
  induction k with
  | zero => exact List.Perm.refl l
  | succ k ih => exact (perm_exchange _ k (d k)).trans ih

theorem length_shuffle (d : Nat → Nat) (l : List α) (k : Nat) : (shuffle d l k).length = l.length :=
  (perm_shuffle d l k).length_eq

theorem Ahead.lt (h : Ahead d l k) (hi : i < k) : d i < (shuffle d l i).length := by
  rw [length_shuffle]
  exact (h i hi).2

theorem Ahead.place_lt (h : Ahead d l k) (hi : i < k) : i < (shuffle d l i).length :=
  Nat.lt_of_le_of_lt (h i hi).1 (h.lt hi)

theorem Ahead.mono (h : Ahead d l k) (hj : j ≤ k) : Ahead d l j := fun i hi => h i (Nat.lt_of_lt_of_le hi hj)

theorem Ahead.drawn_eq (h : Ahead d l k) (hi : i < k) : drawn d l i = some ((shuffle d l i).get ⟨d i, h.lt hi⟩) :=
  List.getElem?_eq_getElem _

/-- **What a round has drawn stays at the place of that round.** -/
theorem getElem?_shuffle (h : Ahead d l k) (hi : i < k) : (shuffle d l k)[i]? = drawn d l i := by
  induction k with
  | zero => exact absurd hi (Nat.not_lt_zero i)
  | succ k ih =>
    have hlast := Nat.lt_succ_self k
    rw [shuffle, getElem?_exchange (h.place_lt hlast) (h.lt hlast)]
    by_cases hik : i = k
    · subst hik
      rw [if_pos rfl, drawn]
    · -- later rounds leave the places before them alone
      have hlt : i < k := by omega
      have hne : i ≠ d k := by
        have := (h k hlast).1
        omega
      rw [if_neg hik, if_neg hne]
      exact ih (h.mono (Nat.le_succ k)) hlt

/-- In a list without repetitions, past the rounds nothing drawn is left. -/
theorem Ahead.not_drawn (h : Ahead d l k) (hnodup : l.Nodup) (hi : i < k) (hp : k ≤ p) {a : α} (ha : drawn d l i = some a) :
    (shuffle d l k)[p]? ≠ some a := by
  intro hat
  have hnodup' := (perm_shuffle d l k).nodup_iff.mpr hnodup
  rw [← getElem?_shuffle h hi] at ha
  have hsame := (List.getElem?_inj (List.getElem?_eq_some_iff.mp hat).1 hnodup').mp (hat.trans ha.symm)
  omega

end

/-! ## The first of the least -/

section

variable {K : Type} [LinearOrder K] {key : Nat → K} {k f g : Nat}

/-- Of the first `k`, `f` has the least key, and all before it have greater
ones. -/
structure FirstLeast (key : Nat → K) (k f : Nat) : Prop where
  lt : f < k
  least : ∀ i < k, key f ≤ key i
  first : ∀ i < f, key f < key i

theorem FirstLeast.one (key : Nat → K) : FirstLeast key 1 0 where
  lt := Nat.one_pos
  least i hi := by
    obtain rfl : i = 0 := Nat.lt_one_iff.mp hi
    exact le_refl _
  first i hi := absurd hi (Nat.not_lt_zero i)

/-- The next one takes over where its key is less. -/
theorem FirstLeast.next_of_lt (h : FirstLeast key k f) (hless : key k < key f) : FirstLeast key (k + 1) k where
  lt := Nat.lt_succ_self k
  least i hi := by
    rcases Nat.lt_succ_iff_lt_or_eq.mp hi with hlt | rfl
    · exact le_trans (le_of_lt hless) (h.least i hlt)
    · exact le_refl _
  first i hi := lt_of_lt_of_le hless (h.least i hi)

theorem FirstLeast.next_of_le (h : FirstLeast key k f) (hle : key f ≤ key k) : FirstLeast key (k + 1) f where
  lt := Nat.lt_succ_of_lt h.lt
  least i hi := by
    rcases Nat.lt_succ_iff_lt_or_eq.mp hi with hlt | rfl
    · exact h.least i hlt
    · exact hle
  first := h.first

theorem FirstLeast.unique (h : FirstLeast key k f) (h' : FirstLeast key k g) : f = g := by
  rcases Nat.lt_trichotomy f g with hlt | heq | hgt
  · exact absurd (h.least g h'.lt) (not_le.mpr (h'.first f hlt))
  · exact heq
  · exact absurd (h'.least f h.lt) (not_le.mpr (h.first g hgt))

end

end Shuffle
