/-
The best chain: `Reorganize`, which moves the database from one branch to
another inside one batch, and `SetBestChain`, which extends the chain,
reorganizes, and connects what it postponed block by block.
-/
import Pinkcoin.Accept

namespace Pinkcoin

open StateError (lift attempt withError)

/-- The program goes through a null pointer. -/
def nullPointer : Reject := error "null pointer"

/-- The record a pointer points to. -/
def deref (pindex : Uint256) : NodeM CBlockIndex := do
  let s ← get
  match s.mapBlockIndex.find pindex with
  | none => throw nullPointer
  | some b => pure b

/-! ## Reorganize -/

section

variable (P : Params) (env : Env)

/-- Disconnect one block. The result are its transactions to resurrect: the
ordinary ones of a block above the last hardened checkpoint. -/
def disconnectOne (h : Uint256) : NodeM (List CTransaction) := do
  let pindex ← deref h
  let s ← get
  let block ← withError (error "Reorganize() : ReadFromDisk for disconnect failed") (lift (s.readIndexed env P pindex))
  withError (error "Reorganize() : DisconnectBlock failed") (block.disconnectBlock P env pindex)
  pure (block.vtx.filter fun tx =>
    decide (¬ (tx.isCoinBase ∨ tx.isCoinStake) ∧ P.getTotalBlocksEstimate < pindex.nHeight))

/-- The blocks from the tip down. Transactions of lower blocks come first in
the result. -/
def disconnectLoop : List Uint256 → List CTransaction → NodeM (List CTransaction)
  | [], vResurrect => pure vResurrect
  | h :: vDisconnect, vResurrect => do
    let vtx ← disconnectOne P env h
    disconnectLoop vDisconnect (vtx ++ vResurrect)

/-- Connect one block. The result are its transactions. -/
def connectOne (h : Uint256) : NodeM (List CTransaction) := do
  let pindex ← deref h
  let s ← get
  let block ← withError (error "Reorganize() : ReadFromDisk for connect failed") (lift (s.readIndexed env P pindex))
  let _ ← withError (error "Reorganize() : ConnectBlock failed") (block.connectBlock P env pindex false)
  pure block.vtx

def connectLoop : List Uint256 → List CTransaction → NodeM (List CTransaction)
  | [], vDelete => pure vDelete
  | h :: vConnect, vDelete => do
    let vtx ← connectOne P env h
    connectLoop vConnect (vDelete ++ vtx)

/-- `if (pindex->pprev) pindex->pprev->pnext = …;` -/
def setPrevNext (t : BlockTree) (h : Uint256) (pnext : Option Uint256) : BlockTree :=
  match (t.find h).bind CBlockIndex.pprev with
  | none => t
  | some p => t.setPnext p pnext

/-- The pointers after the commit: cleared along the old branch, set along
the new one. -/
def relink (vDisconnect vConnect : List Uint256) (t : BlockTree) : BlockTree :=
  vConnect.foldl (fun t h => setPrevNext t h (some h)) (vDisconnect.foldl (fun t h => setPrevNext t h none) t)

/-- `mempool.remove(tx); mempool.removeConflicts(tx);` -/
def dropFromPool (tx : CTransaction) (pool : CTxMemPool) : CTxMemPool := (pool.remove P tx false).removeConflicts P tx

/-- What `Reorganize` does inside the batch, with the transactions to
resurrect and to delete. -/
def switchBranch (vDisconnect vConnect : List Uint256) (pindexNew : Uint256) :
    NodeM (List CTransaction × List CTransaction) := do
  let vResurrect ← disconnectLoop P env vDisconnect []
  let vDelete ← connectLoop P env vConnect []
  modifyTxdb fun txdb => txdb.writeHashBestChain pindexNew
  txnCommit env (error "Reorganize() : TxnCommit failed")
  pure (vResurrect, vDelete)

/-- What `Reorganize` does in memory, after the commit. -/
def settleBranch (vDisconnect vConnect : List Uint256) (vResurrect vDelete : List CTransaction) : NodeM Unit := do
  modify fun s => { s with mapBlockIndex := relink vDisconnect vConnect s.mapBlockIndex }
  forM vResurrect fun tx => do
    let _ ← attempt (acceptToMemoryPool P env tx)
    pure ()
  modify fun s => { s with mempool := vDelete.foldl (fun pool tx => dropFromPool P tx pool) s.mempool }

/-- The fork of the best chain and the branch of `pindexNew`. -/
def findFork (s : Node) (pindexBest pindexNew : Uint256) : Option Uint256 :=
  let F := s.mapBlockIndex.forest
  F.meet (F.rank pindexBest + F.rank pindexNew + 1) pindexBest pindexNew

/-- `Reorganize`. -/
def reorganize (pindexNew : Uint256) : NodeM Unit := do
  let s ← get
  match s.pindexBest with
  | none => throw nullPointer
  | some pindexBest =>
    match findFork s pindexBest pindexNew with
    | none => throw (error "Reorganize() : pprev is null")
    | some pfork =>
      let vDisconnect := s.mapBlockIndex.forest.below pindexBest pfork
      let vConnect := (s.mapBlockIndex.forest.below pindexNew pfork).reverse
      let (vResurrect, vDelete) ← switchBranch P env vDisconnect vConnect pindexNew
      settleBranch P env vDisconnect vConnect vResurrect vDelete

/-! ## SetBestChain -/

/-- `ConnectBlock(txdb, pindexNew) && txdb.WriteHashBestChain(hash)`. -/
def attachBlock (block : CBlock) (pindexNew : Uint256) : NodeM Unit := do
  let pindex ← deref pindexNew
  let _ ← block.connectBlock P env pindex false
  modifyTxdb fun txdb => txdb.writeHashBestChain (block.getHash P)

/-- `SetBestChainInner`: attach one block to the chain in its own batch. -/
def setBestChainInner (block : CBlock) (pindexNew : Uint256) : NodeM Unit := do
  let fConnected ← attempt (attachBlock P env block pindexNew)
  if fConnected then
    txnCommit env (error "SetBestChain() : TxnCommit failed")
    modify fun s => { s with
      mapBlockIndex := setPrevNext s.mapBlockIndex pindexNew (some pindexNew)
      mempool := block.vtx.foldl (fun pool tx => pool.remove P tx false) s.mempool }
  else
    modifyTxdb CTxDB.txnAbort
    throw failed

/-- The walk that finds `pindexIntermediate`, the first block of the new
branch with more trust than the best chain, and the blocks after it, which
are connected later. -/
def postpone (nBestTrust : Uint256) : List CBlockIndex → List Uint256 → Option (Uint256 × List Uint256)
  | [], _ => none
  | [pindex], secondary => some (pindex.phashBlock, secondary)
  | pindex :: prev :: rest, secondary =>
    if nBestTrust < prev.nChainTrust then postpone nBestTrust (prev :: rest) (pindex.phashBlock :: secondary)
    else some (pindex.phashBlock, secondary)

/-- The loop over the postponed blocks, the lowest first. It ends at the
first that cannot be read or connected. -/
def connectSecondary : List Uint256 → NodeM Unit
  | [] => pure ()
  | h :: rest => do
    let s ← get
    match s.mapBlockIndex.find h with
    | none => throw nullPointer
    | some pindex =>
      match s.readIndexed env P pindex with
      | .error _ => pure ()
      | .ok block =>
        modifyTxdb CTxDB.txnBegin
        let fOk ← attempt (setBestChainInner P env block h)
        if fOk then connectSecondary rest else pure ()

/-- The branch of `SetBestChain` that leaves the current chain. -/
def switchChain (pindexNew : Uint256) : NodeM Unit := do
  let s ← get
  match s.best.bind fun best => postpone best.nChainTrust (s.mapBlockIndex.branch pindexNew) [] with
  | none => throw nullPointer
  | some (pindexIntermediate, secondary) =>
    let fOk ← attempt (reorganize P env pindexIntermediate)
    if fOk then connectSecondary P env secondary
    else
      modifyTxdb CTxDB.txnAbort
      throw (error "SetBestChain() : Reorganize failed")

/-- The new best block, in memory. -/
def installBest (hash pindexNew : Uint256) : NodeM Unit := do
  let pindex ← deref pindexNew
  modify fun s => { s with
    hashBestChain := hash
    pindexBest := some pindexNew
    nBestHeight := pindex.nHeight
    nBestChainTrust := pindex.nChainTrust }

/-- The three ways of `SetBestChain`: the genesis block, a block on top of
the best chain, and a block of another branch. -/
def moveChain (block : CBlock) (pindexNew : Uint256) : NodeM Unit := do
  let hash := block.getHash P
  let s ← get
  if s.pindexGenesisBlock = none ∧ hash = P.hashGenesisBlock then
    modifyTxdb fun txdb => txdb.writeHashBestChain hash
    txnCommit env (error "SetBestChain() : TxnCommit failed")
    modify fun s => { s with pindexGenesisBlock := some pindexNew }
  else if block.hashPrevBlock = s.hashBestChain then
    withError (error "SetBestChain() : SetBestChainInner failed") (setBestChainInner P env block pindexNew)
  else
    switchChain P env pindexNew

/-- `SetBestChain(txdb, pindexNew)`. -/
def setBestChain (block : CBlock) (pindexNew : Uint256) : NodeM Unit := do
  modifyTxdb CTxDB.txnBegin
  moveChain P env block pindexNew
  installBest (block.getHash P) pindexNew

end

end Pinkcoin
