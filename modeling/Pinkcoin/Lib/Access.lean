/-
Accesses to a buffer, by offset and length, and whether all of them stay
inside it.
-/
import Mathlib.Data.List.Basic

/-- The bytes of a buffer that are read, or written, at once. -/
structure Access where
  ofs : Nat
  len : Nat
  deriving DecidableEq

namespace Access

/-- The last byte is not behind the end. -/
def Inside (size : Nat) (a : Access) : Prop := a.ofs + a.len ≤ size

instance (size : Nat) (a : Access) : Decidable (a.Inside size) := inferInstanceAs (Decidable (_ ≤ _))

/-- Every access stays inside. -/
def AllInside (size : Nat) (accesses : List Access) : Prop := ∀ a ∈ accesses, a.Inside size

instance (size : Nat) (accesses : List Access) : Decidable (AllInside size accesses) :=
  inferInstanceAs (Decidable (∀ a ∈ accesses, _))

variable {size : Nat} {a : Access} {accesses rest : List Access}

@[simp] theorem allInside_nil : AllInside size [] := List.forall_mem_nil _

@[simp] theorem allInside_cons : AllInside size (a :: accesses) ↔ a.Inside size ∧ AllInside size accesses :=
  List.forall_mem_cons

@[simp] theorem allInside_append : AllInside size (accesses ++ rest) ↔ AllInside size accesses ∧ AllInside size rest :=
  List.forall_mem_append

@[simp] theorem inside_mk {ofs len : Nat} : (⟨ofs, len⟩ : Access).Inside size ↔ ofs + len ≤ size := Iff.rfl

/-- Entries of one size, one behind the other, lie inside together. -/
theorem allInside_entries {ofs len count : Nat} :
    AllInside size ((List.range count).map fun i => ⟨ofs + len * i, len⟩) ↔ count = 0 ∨ ofs + len * count ≤ size := by
  induction count with
  | zero => simp
  | succ count ih =>
    rw [List.range_succ, List.map_append, allInside_append, ih]
    simp only [List.map_cons, List.map_nil, allInside_cons, allInside_nil, inside_mk, Nat.mul_succ, and_true]
    omega

end Access
