/-
Synchronized checkpoints: a signed message names a block, every chain the
node follows from then on has to go through it. A checkpoint whose block is
not known yet is pending.
-/
import Mathlib.Data.List.Sort
import Pinkcoin.BestChain

namespace Pinkcoin

open StateError (rejectIf lift attempt withError)

/-- `while (pindex->nHeight > nHeight) pindex = pindex->pprev;` from the first
record of a branch. -/
def backTo (nHeight : Nat) (branch : List CBlockIndex) : Option CBlockIndex :=
  (branch.dropWhile fun pindex => decide (nHeight < pindex.nHeight)).head?

/-- `ValidateSyncCheckpoint`: only a descendant of the current sync-checkpoint
is allowed. -/
def validateSyncCheckpoint (hashCheckpoint : Uint256) : NodeM Unit := do
  let s ← get
  match s.mapBlockIndex.find s.hashSyncCheckpoint, s.mapBlockIndex.find hashCheckpoint with
  | none, _ => throw (error "ValidateSyncCheckpoint: block index missing for current sync-checkpoint")
  | _, none => throw (error "ValidateSyncCheckpoint: block index missing for received sync-checkpoint")
  | some pindexSyncCheckpoint, some pindexCheckpointRecv =>
    if pindexCheckpointRecv.nHeight ≤ pindexSyncCheckpoint.nHeight then
      match backTo pindexCheckpointRecv.nHeight (s.mapBlockIndex.branch s.hashSyncCheckpoint) with
      | none => throw (error "ValidateSyncCheckpoint: pprev null - block index structure failure")
      | some pindex =>
        if pindex.phashBlock ≠ hashCheckpoint then
          modify fun s => { s with hashInvalidCheckpoint := hashCheckpoint }
          throw (error "ValidateSyncCheckpoint: new sync-checkpoint is conflicting with current sync-checkpoint")
        else throw failed -- an older checkpoint is ignored
    else
      match backTo pindexSyncCheckpoint.nHeight (s.mapBlockIndex.branch hashCheckpoint) with
      | none => throw (error "ValidateSyncCheckpoint: pprev2 null - block index structure failure")
      | some pindex =>
        if pindex.phashBlock ≠ s.hashSyncCheckpoint then
          modify fun s => { s with hashInvalidCheckpoint := hashCheckpoint }
          throw (error "ValidateSyncCheckpoint: new sync-checkpoint is not a descendant of current sync-checkpoint")

/-- `WriteSyncCheckpoint`: in a batch of its own, then in memory. -/
def writeSyncCheckpoint (env : Env) (hashCheckpoint : Uint256) : NodeM Unit := do
  modifyTxdb fun txdb => txdb.txnBegin.writeSyncCheckpoint hashCheckpoint
  txnCommit env (error "WriteSyncCheckpoint(): failed to commit to db sync checkpoint")
  modify fun s => { s with hashSyncCheckpoint := hashCheckpoint }

/-- Make a checkpoint's block part of the main chain, when it is not. The
texts are of the two ways it fails; a sync-checkpoint is then invalid, a
hardened one is not. -/
def moveToCheckpoint (P : Params) (env : Env) (hashCheckpoint : Uint256) (fSync : Bool) (readFailed setFailed : String) :
    NodeM Unit := do
  let s ← get
  if ¬ s.isInMainChain hashCheckpoint then
    let pindexCheckpoint ← deref hashCheckpoint
    match s.readIndexed env P pindexCheckpoint with
    | .error _ => throw (error readFailed)
    | .ok block =>
      let fOk ← attempt (setBestChain P env block hashCheckpoint)
      if ¬ fOk then
        modify fun s => { s with hashInvalidCheckpoint := if fSync then hashCheckpoint else s.hashInvalidCheckpoint }
        throw (error setFailed)

/-- `AcceptPendingSyncCheckpoint`. -/
def acceptPendingSyncCheckpoint (P : Params) (env : Env) : NodeM Unit := do
  let s ← get
  rejectIf (¬ (s.hashPendingCheckpoint ≠ 0 ∧ s.mapBlockIndex.Has s.hashPendingCheckpoint)) failed
  let fValid ← attempt (validateSyncCheckpoint s.hashPendingCheckpoint)
  if fValid then
    moveToCheckpoint P env s.hashPendingCheckpoint true
      "AcceptPendingSyncCheckpoint: ReadFromDisk failed for sync checkpoint"
      "AcceptPendingSyncCheckpoint: SetBestChain failed for sync checkpoint"
    withError (error "AcceptPendingSyncCheckpoint(): failed to write sync checkpoint")
      (writeSyncCheckpoint env s.hashPendingCheckpoint)
    modify fun s => { s with hashPendingCheckpoint := 0 }
  else
    modify fun s => { s with hashPendingCheckpoint := 0 }
    throw failed

/-- `ProcessSyncCheckpoint` of a message that names `hashCheckpoint`. -/
def processSyncCheckpoint (P : Params) (env : Env) (fSignatureOk : Bool) (hashCheckpoint : Uint256) : NodeM Unit := do
  rejectIf (fSignatureOk = false) failed
  let s ← get
  if ¬ s.mapBlockIndex.Has hashCheckpoint then
    modify fun s => { s with hashPendingCheckpoint := hashCheckpoint }
    throw failed
  else
    validateSyncCheckpoint hashCheckpoint
    moveToCheckpoint P env hashCheckpoint true
      "ProcessSyncCheckpoint: ReadFromDisk failed for sync checkpoint"
      "ProcessSyncCheckpoint: SetBestChain failed for sync checkpoint"
    withError (error "ProcessSyncCheckpoint(): failed to write sync checkpoint")
      (writeSyncCheckpoint env hashCheckpoint)
    modify fun s => { s with hashPendingCheckpoint := 0 }

/-- The hashes of `mapCheckpoints`, from the highest down. -/
def Params.checkpointsDown (P : Params) : List Uint256 :=
  ((P.mapCheckpoints.filter fun c : Nat × Uint256 => P.mapCheckpoints.lookup c.1 == some c.2).insertionSort
    fun a b : Nat × Uint256 => b.1 ≤ a.1).map Prod.snd

/-- `ResetSyncCheckpoint`: back to the last hardened checkpoint of the main
chain. The last one of all is made part of the main chain, or is pending. -/
def resetSyncCheckpoint (P : Params) (env : Env) : NodeM Unit := do
  let s ← get
  match P.checkpointsDown.head? with
  | none => throw nullPointer
  | some hash =>
    if s.mapBlockIndex.Has hash then
      moveToCheckpoint P env hash false "ResetSyncCheckpoint: ReadFromDisk failed for hardened checkpoint"
        "ResetSyncCheckpoint: SetBestChain failed for hardened checkpoint"
    else modify fun s => { s with hashPendingCheckpoint := hash }
    let s ← get
    match P.checkpointsDown.find? fun hash => decide (s.mapBlockIndex.Has hash ∧ s.isInMainChain hash) with
    | none => throw failed
    | some hash =>
      withError (error "ResetSyncCheckpoint: failed to write sync checkpoint") (writeSyncCheckpoint env hash)

/-- `CheckSync`: the block `hashBlock` on top of `branch` agrees with the
sync-checkpoint. -/
def checkSync (P : Params) (s : Node) (hashBlock : Uint256) (branch : List CBlockIndex) : Prop :=
  P.fTestNet ∨
    ∃ pindexPrev ∈ branch.head?, ∃ pindexSync ∈ s.mapBlockIndex.find s.hashSyncCheckpoint,
      let nHeight := pindexPrev.nHeight + 1
      (pindexSync.nHeight < nHeight → ∃ pindex ∈ backTo pindexSync.nHeight branch,
        ¬ (pindex.nHeight < pindexSync.nHeight ∨ pindex.phashBlock ≠ s.hashSyncCheckpoint)) ∧
      ¬ (nHeight = pindexSync.nHeight ∧ hashBlock ≠ s.hashSyncCheckpoint) ∧
      ¬ (nHeight < pindexSync.nHeight ∧ ¬ s.mapBlockIndex.Has hashBlock)

instance (P : Params) (s : Node) (h : Uint256) (branch : List CBlockIndex) : Decidable (checkSync P s h branch) :=
  inferInstanceAs (Decidable (_ ∨ ∃ pindexPrev ∈ branch.head?, ∃ pindexSync ∈ s.mapBlockIndex.find s.hashSyncCheckpoint,
    (_ → ∃ pindex ∈ backTo _ branch, ¬ _) ∧ ¬ _ ∧ ¬ _))

end Pinkcoin
