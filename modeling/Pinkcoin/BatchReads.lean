/-
What the database answers while a batch is open: `Read` answers what it
would answer after the commit. `Exists` looks into the base where the batch
deletes the key, so it still finds what the commit takes away.
-/
import Pinkcoin.TxDB

namespace Pinkcoin

open BatchStore (Op scan)

namespace CTxDB

/-- `Exists`: a value in the open batch, or else a record in the base, even
where the batch deletes it. -/
def keyExists (txdb : CTxDB) (k : DbKey) : Bool :=
  match scan k txdb.ops with
  | some (some _) => true
  | _ => (txdb.base.lookup k).isSome

/-- The database inside a transaction, after a sequence of `Write` and `Erase`
calls. -/
def inTxn (txdb : CTxDB) (calls : List (Op DbKey.Value)) : CTxDB := calls.foldl BatchStore.Store.record txdb.txnBegin

/-- The call that comes last of those about the key is `Erase`. -/
def ErasedLast (calls : List (Op DbKey.Value)) (k : DbKey) : Prop := scan k calls.reverse = some none

/-- `Read` and `Exists` of the key answer inside the transaction as they do
after its commit, and after its abort as they did before it began. -/
structure ReadYourWrites (txdb : CTxDB) (calls : List (Op DbKey.Value)) (k : DbKey) : Prop where
  read : (txdb.inTxn calls).read k = (txdb.inTxn calls).commit.read k
  keyExists : (txdb.inTxn calls).keyExists k = CTxDB.keyExists (txdb.inTxn calls).commit k
  readAborted : (txdb.inTxn calls).txnAbort.read k = txdb.read k
  existsAborted : (txdb.inTxn calls).txnAbort.keyExists k = txdb.keyExists k

variable {txdb : CTxDB} {calls : List (Op DbKey.Value)} {k : DbKey}

theorem foldl_record {ops : List (Op DbKey.Value)} (hb : txdb.batch = some ops) :
    calls.foldl BatchStore.Store.record txdb = ⟨txdb.base, some (calls.reverse ++ ops)⟩ := by
  induction calls generalizing txdb ops with
  | nil => rw [List.foldl_nil, List.reverse_nil, List.nil_append, ← hb]
  | cons op calls ih =>
    have hrec : BatchStore.Store.record txdb op = ⟨txdb.base, some (op :: ops)⟩ := by
      rw [BatchStore.Store.record, hb]
    rw [List.foldl_cons, hrec, ih rfl, List.reverse_cons, List.append_assoc]
    rfl

/-- The batch holds the calls, the last one first. -/
theorem inTxn_eq : txdb.inTxn calls = ⟨txdb.base, some calls.reverse⟩ := by
  rw [inTxn, foldl_record (show txdb.txnBegin.batch = some [] from rfl), List.append_nil]
  rfl

@[simp] theorem ops_inTxn : (txdb.inTxn calls).ops = calls.reverse := by rw [inTxn_eq]; rfl

@[simp] theorem base_inTxn : (txdb.inTxn calls).base = txdb.base := by rw [inTxn_eq]

/-- With no batch open `Exists` and `Read` agree. -/
theorem keyExists_of_no_batch (hb : txdb.batch = none) : txdb.keyExists k = (txdb.read k).isSome := by
  rw [keyExists, BatchStore.read_of_no_batch hb, BatchStore.Store.ops, hb]
  rfl

/-- Of a key the batch erases `Exists` asks the base. -/
theorem keyExists_of_erased (h : scan k txdb.ops = some none) : txdb.keyExists k = (txdb.base.lookup k).isSome := by
  rw [keyExists, h]

/-- Of any other key `Exists` says whether it can be read. -/
theorem keyExists_of_not_erased (h : scan k txdb.ops ≠ some none) : txdb.keyExists k = (txdb.read k).isSome := by
  unfold keyExists BatchStore.Store.read
  rcases hs : scan k txdb.ops with _ | _ | v
  · rfl
  · exact absurd hs h
  · rfl

/-- **Read your writes.** `Read` answers inside a transaction what it answers
after the commit. `Exists` does so exactly when the transaction does not end
with erasing a key that the database has. -/
theorem readYourWrites_iff (hb : txdb.batch = none) :
    ReadYourWrites txdb calls k ↔ ¬ (ErasedLast calls k ∧ (txdb.base.lookup k).isSome) := by
  have hcommit : CTxDB.keyExists (txdb.inTxn calls).commit k = ((txdb.inTxn calls).read k).isSome := by
    rw [keyExists_of_no_batch (show (txdb.inTxn calls).commit.batch = none from rfl), BatchStore.read_commit]
  have habort : (txdb.inTxn calls).txnAbort.read k = txdb.read k := by
    rw [txnAbort, BatchStore.read_abort, base_inTxn, BatchStore.read_of_no_batch hb]
  have habort' : (txdb.inTxn calls).txnAbort.keyExists k = txdb.keyExists k := by
    rw [keyExists_of_no_batch (show (txdb.inTxn calls).txnAbort.batch = none from rfl), habort, keyExists_of_no_batch hb]
  have hiff : (txdb.inTxn calls).keyExists k = CTxDB.keyExists (txdb.inTxn calls).commit k ↔
      ¬ (ErasedLast calls k ∧ (txdb.base.lookup k).isSome) := by
    rw [hcommit]
    by_cases he : ErasedLast calls k
    · have hscan : scan k (txdb.inTxn calls).ops = some none := by rw [ops_inTxn]; exact he
      have hread : (txdb.inTxn calls).read k = none := by unfold BatchStore.Store.read; rw [hscan, Option.getD_some]
      rw [keyExists_of_erased hscan, hread, base_inTxn]
      simp [he]
    · rw [keyExists_of_not_erased (by rw [ops_inTxn]; exact he)]
      simp [he]
  constructor
  · intro h
    exact hiff.mp h.keyExists
  · intro h
    exact ⟨BatchStore.read_commit.symm, hiff.mpr h, habort, habort'⟩

end CTxDB

namespace Sample

/-- A database with one entry of the transaction index. -/
def oneEntry : CTxDB := CTxDB.updateTxIndex ⟨∅, none⟩ 5 (CTxIndex.fresh ⟨1, 8, 100⟩ 1)

end Sample

/-- An entry put, erased and put again, over a base that has it. -/
theorem CTxDB.readYourWrites_iff_sample :
    let e := CTxIndex.fresh ⟨1, 8, 200⟩ 2
    CTxDB.ReadYourWrites Sample.oneEntry [.put (.tx 5) e, .delete (.tx 5), .put (.tx 5) e] (.tx 5) := by
  intro e
  refine (CTxDB.readYourWrites_iff rfl).mpr fun h => ?_
  have hlast : ¬ CTxDB.ErasedLast [.put (.tx 5) e, .delete (.tx 5), .put (.tx 5) e] (.tx 5) := by
    simp [CTxDB.ErasedLast, scan]
  exact hlast h.1

/-- An erased entry still exists until the commit. -/
theorem CTxDB.exists_after_erase :
    (Sample.oneEntry.inTxn [.delete (.tx 5)]).keyExists (.tx 5) = true ∧
      CTxDB.keyExists (Sample.oneEntry.inTxn [.delete (.tx 5)]).commit (.tx 5) = false ∧
      ¬ CTxDB.ReadYourWrites Sample.oneEntry [.delete (.tx 5)] (.tx 5) := by
  have hin : (Sample.oneEntry.inTxn [.delete (.tx 5)]).keyExists (.tx 5) = true := by decide +kernel
  have hafter : CTxDB.keyExists (Sample.oneEntry.inTxn [.delete (.tx 5)]).commit (.tx 5) = false := by decide +kernel
  refine ⟨hin, hafter, fun h => ?_⟩
  have := h.keyExists
  rw [hin, hafter] at this
  simp at this

end Pinkcoin
