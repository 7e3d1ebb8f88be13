/-
A key-value store whose writes are gathered in a batch and applied to the
store at once, or dropped. While a batch is open a read answers from its
last operation on the key, and from the base only where the batch does not
mention it. Values may have a different type under each key.
-/
import Mathlib.Data.List.AList

namespace BatchStore

variable {K : Type} [DecidableEq K] {V : K → Type}

inductive Op (V : K → Type)
  | put (k : K) (v : V k)
  | delete (k : K)

/-- `batch` holds the open batch, its last operation first. -/
structure Store (V : K → Type) where
  base : AList V
  batch : Option (List (Op V))

/-- What an operation says about a key: nothing, a deletion, or a value. -/
def Op.about (op : Op V) (k : K) : Option (Option (V k)) :=
  match op with
  | .put k' v => if h : k' = k then some (some (h ▸ v)) else none
  | .delete k' => if k' = k then some none else none

/-- The batch's last word about a key. -/
def scan (k : K) : List (Op V) → Option (Option (V k))
  | [] => none
  | op :: ops => (op.about k).or (scan k ops)

def Op.apply (op : Op V) (m : AList V) : AList V :=
  match op with
  | .put k v => m.insert k v
  | .delete k => m.erase k

namespace Store

variable (s : Store V)

/-- The operations of the open batch, none when no batch is open. -/
def ops : List (Op V) := s.batch.getD []

def read (k : K) : Option (V k) := (scan k s.ops).getD (s.base.lookup k)

def record (op : Op V) : Store V :=
  match s.batch with
  | some ops => { s with batch := some (op :: ops) }
  | none => { s with base := op.apply s.base }

def write (k : K) (v : V k) : Store V := s.record (.put k v)
def erase (k : K) : Store V := s.record (.delete k)

def begin : Store V := { s with batch := some [] }
def abort : Store V := { s with batch := none }
def commit : Store V := ⟨s.ops.foldr Op.apply s.base, none⟩

end Store

/-! ## Reading what was written -/

variable {s : Store V} {k k' : K} {v : V k}

@[simp] theorem about_put : (Op.put k v).about k = some (some v) := by simp [Op.about]
@[simp] theorem about_delete : (Op.delete k : Op V).about k = some none := by simp [Op.about]

theorem about_put_of_ne (h : k' ≠ k) : (Op.put k v).about k' = none := by simp [Op.about, Ne.symm h]
theorem about_delete_of_ne (h : k' ≠ k) : (Op.delete k : Op V).about k' = none := by simp [Op.about, Ne.symm h]

theorem lookup_apply (op : Op V) (m : AList V) (k : K) :
    (op.apply m).lookup k = (op.about k).getD (m.lookup k) := by
  cases op with
  | put k' v =>
    by_cases h : k = k'
    · subst h; simp [Op.apply]
    · simp [Op.apply, about_put_of_ne h, h]
  | delete k' =>
    by_cases h : k = k'
    · subst h; simp [Op.apply]
    · simp [Op.apply, about_delete_of_ne h, h]

theorem lookup_applyAll (ops : List (Op V)) (m : AList V) (k : K) :
    (ops.foldr Op.apply m).lookup k = (scan k ops).getD (m.lookup k) := by
  induction ops with
  | nil => rfl
  | cons op ops ih =>
    rw [List.foldr_cons, lookup_apply, ih, scan]
    cases op.about k <;> rfl

theorem read_record (op : Op V) (k : K) : (s.record op).read k = (op.about k).getD (s.read k) := by
  obtain ⟨base, _ | ops⟩ := s
  · simp [Store.record, Store.read, Store.ops, scan, lookup_apply]
  · simp only [Store.record, Store.read, Store.ops, Option.getD_some, scan]
    cases op.about k <;> rfl

@[simp] theorem read_write : (s.write k v).read k = some v := by simp [Store.write, read_record]

theorem read_write_of_ne (h : k' ≠ k) : (s.write k v).read k' = s.read k' := by
  simp [Store.write, read_record, about_put_of_ne h]

@[simp] theorem read_erase : (s.erase k).read k = none := by simp [Store.erase, read_record]

theorem read_erase_of_ne (h : k' ≠ k) : (s.erase k).read k' = s.read k' := by
  simp [Store.erase, read_record, about_delete_of_ne h]

/-! ## Opening and closing a batch -/

theorem read_of_no_batch (h : s.batch = none) : s.read k = s.base.lookup k := by
  simp [Store.read, Store.ops, h, scan]

@[simp] theorem read_begin : s.begin.read k = s.base.lookup k := by simp [Store.read, Store.begin, Store.ops, scan]

@[simp] theorem read_abort : s.abort.read k = s.base.lookup k := by simp [Store.read, Store.abort, Store.ops, scan]

/-- A commit makes the base answer what the store answered with its batch open. -/
@[simp] theorem lookup_commit : s.commit.base.lookup k = s.read k := lookup_applyAll _ _ _

@[simp] theorem read_commit : s.commit.read k = s.read k := by
  rw [read_of_no_batch rfl, lookup_commit]

section

omit [DecidableEq K]

@[simp] theorem base_begin : s.begin.base = s.base := rfl
@[simp] theorem base_abort : s.abort.base = s.base := rfl
@[simp] theorem batch_begin : s.begin.batch = some [] := rfl
@[simp] theorem batch_abort : s.abort.batch = none := rfl

end

@[simp] theorem batch_commit : s.commit.batch = none := rfl

/-! ## While a batch is open the base stays -/

/-- A batch is open, over the base `m`. -/
def Open (m : AList V) (s : Store V) : Prop := s.base = m ∧ s.batch.isSome

theorem Open.record {m : AList V} (h : Open m s) (op : Op V) : Open m (s.record op) := by
  obtain ⟨base, _ | ops⟩ := s
  · simp [Open] at h
  · exact ⟨h.1, rfl⟩

theorem Open.write {m : AList V} (h : Open m s) (k : K) (v : V k) : Open m (s.write k v) := h.record _

theorem Open.erase {m : AList V} (h : Open m s) (k : K) : Open m (s.erase k) := h.record _

/-! ## A key no operation mentions -/

/-- The operations between the two stores do not mention `k`: when the open
batch does not to begin with, it still does not, and the base has the same
under it. -/
def Untouched (k : K) (s s' : Store V) : Prop :=
  scan k s.ops = none → scan k s'.ops = none ∧ s'.base.lookup k = s.base.lookup k

variable {s' s'' : Store V}

theorem Untouched.refl : Untouched k s s := fun h => ⟨h, rfl⟩

theorem Untouched.trans (h : Untouched k s s') (h' : Untouched k s' s'') : Untouched k s s'' := by
  intro hs
  obtain ⟨hscan, hbase⟩ := h hs
  obtain ⟨hscan', hbase'⟩ := h' hscan
  exact ⟨hscan', hbase'.trans hbase⟩

theorem untouched_record {op : Op V} (h : op.about k = none) : Untouched k s (s.record op) := by
  obtain ⟨base, _ | ops⟩ := s
  · intro hs
    exact ⟨hs, by simp [Store.record, lookup_apply, h]⟩
  · intro hs
    exact ⟨by simpa [Store.record, Store.ops, scan, h] using hs, rfl⟩

theorem untouched_write {v : V k'} (h : k ≠ k') : Untouched k s (s.write k' v) := untouched_record (about_put_of_ne h)

theorem untouched_erase (h : k ≠ k') : Untouched k s (s.erase k') := untouched_record (about_delete_of_ne h)

theorem Untouched.begin : Untouched k s s.begin := fun _ => ⟨rfl, rfl⟩

theorem Untouched.abort : Untouched k s s.abort := fun _ => ⟨rfl, rfl⟩

theorem Untouched.commit : Untouched k s s.commit := fun hs =>
  ⟨rfl, by rw [lookup_commit, Store.read, hs, Option.getD_none]⟩

theorem Untouched.read_eq (h : Untouched k s s') (hb : s.batch = none) (hb' : s'.batch = none) : s'.read k = s.read k := by
  rw [read_of_no_batch hb, read_of_no_batch hb']
  exact (h (by rw [Store.ops, hb]; rfl)).2

end BatchStore
