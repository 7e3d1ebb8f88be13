/-
Connecting a block to the chain and disconnecting it again. `connectBlock`
checks first and writes at the end: the checks and the loop over the
transactions only read the node, and collect the changes to the transaction
index in `mapQueuedChanges`.
-/
import Pinkcoin.Inputs

namespace Pinkcoin

open StateError (rejectIf lift)

namespace Node

/-- `pindexBest->nTime > nTimeV231`. There is a best block before any other
block is checked. -/
def fDisablePOW (s : Node) : Bool :=
  match s.best with
  | none => false
  | some pindexBest => decide (nTimeV231 < pindexBest.nTime)

/-- `pindex` and the records along its `pprev`. -/
def branchOf (s : Node) (pindex : CBlockIndex) : List CBlockIndex :=
  pindex :: pindex.pprev.elim [] s.mapBlockIndex.branch

end Node

/-! ## Coin age -/

/-- The loop of `CTransaction::GetCoinAge`, in cent-seconds so far. -/
def coinAgeLoop (env : Env) (s : Node) (nTime : Nat) : List CTxIn → CBigNum → Option CBigNum
  | [], bnCentSecond => some bnCentSecond
  | txin :: vin, bnCentSecond =>
    match s.readPrevout env txin.prevout with
    | none => coinAgeLoop env s nTime vin bnCentSecond
    | some (txPrev, txindex) =>
      if nTime < txPrev.nTime then none
      else
        match txindex.pos.bind fun pos => s.readBlock env pos.nFile pos.nBlockPos with
        | none => none
        | some block =>
          if nTime < block.nTime + nStakeMinAge then coinAgeLoop env s nTime vin bnCentSecond
          else
            let nValueIn := ((txPrev.vout[txin.prevout.n]?).map CTxOut.nValue).getD 0
            coinAgeLoop env s nTime vin
              (bnCentSecond + (nValueIn * ((nTime : Int) - txPrev.nTime)).tdiv CENT)

/-- `CTransaction::GetCoinAge`, in coin-days. -/
def getCoinAge (env : Env) (s : Node) (tx : CTransaction) : Option Nat :=
  if tx.isCoinBase then some 0
  else (coinAgeLoop env s tx.nTime tx.vin 0).map fun bnCentSecond =>
    CBigNum.getuint64 (((bnCentSecond * CENT).tdiv COIN).tdiv (24 * 60 * 60))

/-! ## The loop over the transactions -/

/-- The local variables of `ConnectBlock`. -/
structure ConnectAcc where
  mapQueuedChanges : Map Uint256 CTxIndex
  nFees : Int
  nValueIn : Int
  nValueOut : Int
  nStakeReward : Int
  nSigOps : Nat
  nTxPos : Nat

namespace CBlock

section

variable (P : Params) (env : Env) (s : Node) (pindex : CBlockIndex) (fJustCheck : Bool)

/-- The part of the loop for a transaction with inputs: what it spends and
what that adds to the sums. -/
def connectSpends (tx : CTransaction) (posThisTx : CDiskTxPos) (acc : ConnectAcc) : Except Reject ConnectAcc := do
  match tx.fetchInputs env s acc.mapQueuedChanges true false with
  | .error _ => throw failed
  | .ok mapInputs =>
    let nSigOps := acc.nSigOps + tx.getP2SHSigOpCount mapInputs
    rejectIf (MAX_BLOCK_SIGOPS < nSigOps) (DoS 100 "ConnectBlock() : too many sigops")
    let nTxValueIn := tx.getValueIn mapInputs
    let nTxValueOut := tx.getValueOut
    match tx.connectInputs P s posThisTx (s.branchOf pindex) true false mapInputs acc.mapQueuedChanges with
    | .error _ => throw failed
    | .ok mapQueuedChanges =>
      pure { acc with
        mapQueuedChanges := mapQueuedChanges
        nSigOps := nSigOps
        nValueIn := acc.nValueIn + nTxValueIn
        nValueOut := acc.nValueOut + nTxValueOut
        nFees := if tx.isCoinStake then acc.nFees else acc.nFees + (nTxValueIn - nTxValueOut)
        nStakeReward := if tx.isCoinStake then nTxValueOut - nTxValueIn else acc.nStakeReward }

/-- One turn of the loop. -/
def connectTx (acc : ConnectAcc) (tx : CTransaction) : Except Reject ConnectAcc := do
  let hashTx := tx.getHash P
  -- an older transaction of this hash must be completely spent
  rejectIf (∃ txindexOld ∈ s.txdb.readTxIndex hashTx, none ∈ txindexOld.vSpent) failed
  let nSigOps := acc.nSigOps + tx.getLegacySigOpCount
  rejectIf (MAX_BLOCK_SIGOPS < nSigOps) (DoS 100 "ConnectBlock() : too many sigops")
  let posThisTx : CDiskTxPos := ⟨pindex.nFile, pindex.nBlockPos, acc.nTxPos⟩
  let acc := { acc with
    nSigOps := nSigOps
    nTxPos := if fJustCheck then acc.nTxPos else acc.nTxPos + tx.getSerializeSize }
  let acc ←
    if tx.isCoinBase then pure { acc with nValueOut := acc.nValueOut + tx.getValueOut }
    else connectSpends P env s pindex tx posThisTx acc
  pure { acc with mapQueuedChanges := acc.mapQueuedChanges.insert hashTx (CTxIndex.fresh posThisTx tx.vout.length) }

def connectTxs : List CTransaction → ConnectAcc → Except Reject ConnectAcc
  | [], acc => pure acc
  | tx :: vtx, acc => do
    let acc ← connectTx P env s pindex fJustCheck acc tx
    connectTxs vtx acc

/-- The position of the first transaction; 1 stands for the memory pool. -/
def firstTxPos (block : CBlock) : Nat := if fJustCheck then 1 else pindex.nBlockPos + block.firstTxOffset

/-- The reward rules at the end of `ConnectBlock`. -/
def checkReward (block : CBlock) (acc : ConnectAcc) : Except Reject Unit := do
  if block.isProofOfWork then
    rejectIf (∃ coinbase ∈ block.vtx.head?, getProofOfWorkReward pindex.nHeight acc.nFees < coinbase.getValueOut)
      (DoS 50 "ConnectBlock() : coinbase reward exceeded")
  else
    match block.vtx[1]?.bind (getCoinAge env s) with
    | none => throw (error "ConnectBlock() : unable to get coin age for coinstake")
    | some nCoinAge =>
      rejectIf (getProofOfStakeReward s.fDisablePOW nCoinAge acc.nFees pindex.nHeight pindex.nTime < acc.nStakeReward)
        (DoS 100 "ConnectBlock() : coinstake pays too much")

/-- Everything `ConnectBlock` does before it writes. -/
def connectChecks (block : CBlock) : Except Reject ConnectAcc := do
  block.checkBlock P env (!fJustCheck) (!fJustCheck) false
  rejectIf (¬ s.mapBlockIndex.Has block.hashPrevBlock) (DoS 10 "AcceptBlock() : prev block not found")
  rejectIf (getNextTargetRequired P s.fDisablePOW (s.mapBlockIndex.branch block.hashPrevBlock)
      (decide block.isProofOfStake) block.nTime ≠ some block.nBits)
    (DoS 100 (if block.isProofOfWork then "AcceptBlock() : incorrect proof-of-work"
      else "AcceptBlock() : incorrect proof-of-stake"))
  let acc ← connectTxs P env s pindex fJustCheck block.vtx ⟨∅, 0, 0, 0, 0, 0, firstTxPos pindex fJustCheck block⟩
  checkReward env s pindex block acc
  pure acc

end

/-- The record of the block's predecessor is written with another `hashNext`;
the one in memory changes after the commit. -/
def withHashNext (P : Params) (t : BlockTree) (pindex : CBlockIndex) (hashNext : Uint256) (txdb : CTxDB) : CTxDB :=
  match pindex.pprev.bind t.find with
  | none => txdb
  | some prev => txdb.writeBlockIndex P { CDiskBlockIndex.ofIndex prev with hashNext := hashNext }

def writeHashNext (P : Params) (pindex : CBlockIndex) (hashNext : Uint256) : NodeM Unit :=
  modify fun s => s.withTxdb (withHashNext P s.mapBlockIndex pindex hashNext s.txdb)

/-- The mint and the money supply of a block after its transactions. -/
def withSupply (s : Node) (pindex : CBlockIndex) (acc : ConnectAcc) : CBlockIndex :=
  { pindex with
    nMint := acc.nValueOut - acc.nValueIn + acc.nFees
    nMoneySupply := ((pindex.pprev.bind s.mapBlockIndex.find).map CBlockIndex.nMoneySupply).getD 0
      + acc.nValueOut - acc.nValueIn }

/-- `ConnectBlock(txdb, pindex, fJustCheck)`. The record is returned with its
supply. Where it is not in the index it is the caller's own. -/
def connectBlock (P : Params) (env : Env) (block : CBlock) (pindex : CBlockIndex) (fJustCheck : Bool) :
    NodeM CBlockIndex := do
  let s ← get
  let acc ← lift (connectChecks P env s pindex fJustCheck block)
  let pindex := withSupply s pindex acc
  if fJustCheck then
    modify fun s => { s with
      mapBlockIndex := s.mapBlockIndex.setSupply pindex.phashBlock pindex.nMint pindex.nMoneySupply
      txdb := s.txdb.writeBlockIndex P (CDiskBlockIndex.ofIndex pindex) }
    pure pindex
  else
    modify fun s => { s with
      mapBlockIndex := s.mapBlockIndex.setSupply pindex.phashBlock pindex.nMint pindex.nMoneySupply
      txdb := (s.txdb.writeBlockIndex P (CDiskBlockIndex.ofIndex pindex)).updateAll acc.mapQueuedChanges }
    writeHashNext P pindex pindex.phashBlock
    forM block.vtx fun tx => syncWithWallets P env tx (some block) true true
    pure pindex

/-- `DisconnectBlock(txdb, pindex)`. -/
def disconnectBlock (P : Params) (env : Env) (block : CBlock) (pindex : CBlockIndex) : NodeM Unit := do
  forM block.vtx.reverse (CTransaction.disconnectInputs P)
  writeHashNext P pindex 0
  forM block.vtx fun tx => syncWithWallets P env tx (some block) false false

end CBlock

end Pinkcoin
