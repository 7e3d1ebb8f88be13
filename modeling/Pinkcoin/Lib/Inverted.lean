/-
An inverted index: for each key the set of the values that have it, without
keys whose set is empty.
-/
import Mathlib.Data.Finset.Insert
import Mathlib.Data.Finset.Erase
import Mathlib.Data.List.AList

namespace Inverted

variable {K V : Type} [DecidableEq K] [DecidableEq V]

/-- `m[k].insert(v)`. -/
def add (v : V) (m : AList fun _ : K => Finset V) (k : K) : AList fun _ : K => Finset V :=
  m.insert k (insert v ((m.lookup k).getD ∅))

/-- The value is taken out of the set of a key, which goes with its last value. -/
def drop (v : V) (m : AList fun _ : K => Finset V) (k : K) : AList fun _ : K => Finset V :=
  match m.lookup k with
  | none => m
  | some S => if S.erase v = ∅ then m.erase k else m.insert k (S.erase v)

/-- The value is indexed under the key. -/
def Has (m : AList fun _ : K => Finset V) (k : K) (v : V) : Prop := ∃ S ∈ m.lookup k, v ∈ S

/-- No set is empty. -/
def Tidy (m : AList fun _ : K => Finset V) : Prop := ∀ k, ∀ S ∈ m.lookup k, S.Nonempty

variable {m : AList fun _ : K => Finset V} {k k' : K} {v v' : V} {ks : List K}

theorem not_has_empty : ¬ Has (∅ : AList fun _ : K => Finset V) k v := fun h => by
  obtain ⟨S, hS, -⟩ := h
  rw [AList.lookup_empty] at hS
  cases hS

theorem tidy_empty : Tidy (∅ : AList fun _ : K => Finset V) := fun k S hS => by
  rw [AList.lookup_empty] at hS
  cases hS

theorem lookup_add : (add v m k).lookup k' = if k' = k then some (insert v ((m.lookup k).getD ∅)) else m.lookup k' := by
  unfold add
  by_cases hk : k' = k
  · subst hk
    rw [AList.lookup_insert, if_pos rfl]
  · rw [AList.lookup_insert_ne hk, if_neg hk]

theorem lookup_drop : (drop v m k).lookup k' =
    if k' = k then ((m.lookup k).map (·.erase v)).filter (· ≠ ∅) else m.lookup k' := by
  unfold drop
  by_cases hk : k' = k
  · subst hk
    cases hS : m.lookup k' with
    | none => simp [hS]
    | some S =>
      by_cases hempty : S.erase v = ∅
      · simp [hempty, AList.lookup_erase, Option.filter]
      · simp [hempty, AList.lookup_insert, Option.filter]
  · rw [if_neg hk]
    cases hS : m.lookup k with
    | none => rfl
    | some S =>
      dsimp only
      split
      · exact AList.lookup_erase_ne hk
      · exact AList.lookup_insert_ne hk

/-! ## One key -/

theorem has_add : Has (add v m k) k' v' ↔ Has m k' v' ∨ k' = k ∧ v' = v := by
  unfold Has
  rw [lookup_add]
  by_cases hk : k' = k
  · subst hk
    cases hS : m.lookup k' with
    | none => simp
    | some S => simp [or_comm]
  · simp [hk]

theorem tidy_add (h : Tidy m) : Tidy (add v m k) := by
  intro k' S hS
  rw [lookup_add] at hS
  by_cases hk : k' = k
  · rw [if_pos hk] at hS
    cases hS
    exact Finset.insert_nonempty _ _
  · rw [if_neg hk] at hS
    exact h k' S hS

theorem has_drop : Has (drop v m k) k' v' ↔ Has m k' v' ∧ ¬ (k' = k ∧ v' = v) := by
  unfold Has
  rw [lookup_drop]
  by_cases hk : k' = k
  · subst hk
    cases hS : m.lookup k' with
    | none => simp
    | some S =>
      simp only [if_true, Option.map_some, Option.mem_def, Option.filter_eq_some_iff, Option.some.injEq, decide_eq_true_eq,
        exists_eq_left', true_and]
      constructor
      · intro h
        obtain ⟨T, ⟨rfl, -⟩, hv⟩ := h
        exact ⟨Finset.mem_of_mem_erase hv, Finset.ne_of_mem_erase hv⟩
      · intro h
        obtain ⟨hv, hne⟩ := h
        have hmem : v' ∈ S.erase v := Finset.mem_erase.mpr ⟨hne, hv⟩
        exact ⟨S.erase v, ⟨rfl, Finset.ne_empty_of_mem hmem⟩, hmem⟩
  · rw [if_neg hk]
    exact ⟨fun h => ⟨h, fun hboth => hk hboth.1⟩, fun h => h.1⟩

theorem tidy_drop (h : Tidy m) : Tidy (drop v m k) := by
  intro k' S hS
  rw [lookup_drop] at hS
  by_cases hk : k' = k
  · rw [if_pos hk, Option.mem_def, Option.filter_eq_some_iff] at hS
    exact Finset.nonempty_iff_ne_empty.mpr (by simpa using hS.2)
  · rw [if_neg hk] at hS
    exact h k' S hS

/-! ## All keys of a value -/

theorem has_addAll : Has (ks.foldl (add v) m) k' v' ↔ Has m k' v' ∨ k' ∈ ks ∧ v' = v := by
  induction ks generalizing m with
  | nil => simp
  | cons k ks ih =>
    rw [List.foldl_cons, ih, has_add, List.mem_cons, or_assoc, or_and_right]

theorem tidy_addAll (h : Tidy m) : Tidy (ks.foldl (add v) m) := by
  induction ks generalizing m with
  | nil => exact h
  | cons k ks ih => exact ih (tidy_add h)

theorem has_dropAll : Has (ks.foldl (drop v) m) k' v' ↔ Has m k' v' ∧ ¬ (k' ∈ ks ∧ v' = v) := by
  induction ks generalizing m with
  | nil => simp
  | cons k ks ih =>
    rw [List.foldl_cons, ih, has_drop, List.mem_cons, or_and_right, not_or, and_assoc]

theorem tidy_dropAll (h : Tidy m) : Tidy (ks.foldl (drop v) m) := by
  induction ks generalizing m with
  | nil => exact h
  | cons k ks ih => exact ih (tidy_drop h)

end Inverted
