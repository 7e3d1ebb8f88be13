/-
A file of records, written one after the other, and the index of the offsets
they start at.
-/
import Mathlib.Data.List.Basic

namespace RecordLog

variable {α β : Type} (encode : α → List β)

/-- The records, one after the other. -/
def log (records : List α) : List β := (records.map encode).flatten

/-- The records with the offsets they start at, the first of them at `ofs`. -/
def index : Nat → List α → List (Nat × α)
  | _, [] => []
  | ofs, a :: records => (ofs, a) :: index (ofs + (encode a).length) records

variable {encode} {records records' : List α} {ofs : Nat} {a : α}

theorem log_cons : log encode (a :: records) = encode a ++ log encode records := rfl

theorem log_append : log encode (records ++ records') = log encode records ++ log encode records' := by
  rw [log, List.map_append, List.flatten_append]
  rfl

theorem log_singleton : log encode [a] = encode a := List.append_nil _

/-- Where every record has a length, there are no more records than places. -/
theorem length_le_log (h : ∀ a ∈ records, 0 < (encode a).length) : records.length ≤ (log encode records).length := by
  induction records with
  | nil => exact Nat.le_refl 0
  | cons a records ih =>
    have ha := h a List.mem_cons_self
    have hle := ih fun b hb => h b (List.mem_cons_of_mem _ hb)
    rw [log_cons, List.length_append, List.length_cons]
    omega

theorem index_append : index encode ofs (records ++ records') =
    index encode ofs records ++ index encode (ofs + (log encode records).length) records' := by
  induction records generalizing ofs with
  | nil => rfl
  | cons a records ih =>
    rw [List.cons_append, index, index, ih, List.cons_append, log_cons, List.length_append, Nat.add_assoc]

/-- A record starts where the records before it end. -/
theorem mem_index {start : Nat} (h : (ofs, a) ∈ index encode start records) :
    ∃ before after, records = before ++ a :: after ∧ ofs = start + (log encode before).length := by
  induction records generalizing start with
  | nil => simp [index] at h
  | cons b records ih =>
    rcases List.mem_cons.mp h with heq | hmem
    · obtain ⟨rfl, rfl⟩ := Prod.mk.inj heq
      exact ⟨[], records, rfl, rfl⟩
    · obtain ⟨before, after, rfl, hofs⟩ := ih hmem
      refine ⟨b :: before, after, rfl, ?_⟩
      rw [hofs, log_cons, List.length_append, Nat.add_assoc]

theorem mem_of_mem_index {start : Nat} (h : (ofs, a) ∈ index encode start records) : a ∈ records := by
  obtain ⟨before, after, rfl, -⟩ := mem_index h
  exact List.mem_append_right _ List.mem_cons_self

/-- **A record is read back at its offset.** -/
theorem drop_log (h : (ofs, a) ∈ index encode 0 records) :
    ∃ after, (log encode records).drop ofs = encode a ++ log encode after := by
  obtain ⟨before, after, rfl, hofs⟩ := mem_index h
  rw [Nat.zero_add] at hofs
  exact ⟨after, by rw [hofs, log_append, List.drop_left, log_cons]⟩

end RecordLog
