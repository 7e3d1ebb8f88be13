/-
The state of a node and what it meets from outside during a call: the
clock, and which reads, writes and commits succeed. A function of the node
changes the state and ends with a value or a refusal; the state stays as it
was when it stopped.
-/
import Mathlib.Tactic.Simps.Basic
import Pinkcoin.Lib.StateError
import Pinkcoin.TxDB
import Pinkcoin.Disk
import Pinkcoin.BlockTree
import Pinkcoin.MemPool
import Pinkcoin.Wallet

namespace Pinkcoin

/-- The globals of the node. -/
structure Node where
  disk : BlockFiles
  txdb : CTxDB
  mapBlockIndex : BlockTree
  pindexGenesisBlock : Option Uint256
  pindexBest : Option Uint256
  hashBestChain : Uint256
  nBestHeight : Int
  nBestChainTrust : Uint256
  nBaseStakeTrust : CBigNum
  nBaseStakeTrustHeight : Nat
  setStakeSeen : List (COutPoint × Nat)
  mempool : CTxMemPool
  wallets : List CWallet
  hashSyncCheckpoint : Uint256
  hashPendingCheckpoint : Uint256
  hashInvalidCheckpoint : Uint256

/-- What happens around a call: `GetAdjustedTime`, which positions of the
block files can be read, which batches leveldb commits, whether there is
disk space and the append succeeds, whether wallet records can be written,
and whether the rate limiter lets a free transaction pass. -/
structure Env where
  adjustedTime : Int
  blockReadable : Nat → Nat → Bool
  txReadable : CDiskTxPos → Bool
  commitOk : WriteBatch → Bool
  diskSpace : Bool
  appendOk : Bool
  walletWritten : Bool
  freeTxAllowed : Bool

/-- A node that has loaded nothing yet. -/
def Node.empty (wallets : List CWallet) : Node where
  disk := BlockFiles.empty
  txdb := ⟨∅, none⟩
  mapBlockIndex := BlockTree.empty
  pindexGenesisBlock := none
  pindexBest := none
  hashBestChain := 0
  nBestHeight := -1
  nBestChainTrust := 0
  nBaseStakeTrust := 0
  nBaseStakeTrustHeight := 0
  setStakeSeen := []
  mempool := CTxMemPool.empty
  wallets := wallets
  hashSyncCheckpoint := 0
  hashPendingCheckpoint := 0
  hashInvalidCheckpoint := 0

/-- A function of the node. -/
abbrev NodeM := EStateM Reject Node

namespace Node

variable (s : Node)

@[simps] def withTxdb (txdb : CTxDB) : Node := { s with txdb := txdb }

/-- The record `pindexBest` points to. -/
def best : Option CBlockIndex := s.pindexBest.bind s.mapBlockIndex.find

/-- `pindex->IsInMainChain()`. -/
def isInMainChain (pindex : Uint256) : Prop :=
  ((s.mapBlockIndex.find pindex).bind CBlockIndex.pnext).isSome ∨ s.pindexBest = some pindex

instance (pindex : Uint256) : Decidable (s.isInMainChain pindex) := inferInstanceAs (Decidable (_ ∨ _))

/-- `TxnCommit`: the batch is applied, or lost when leveldb fails. -/
def commit (env : Env) : Bool × Node :=
  if env.commitOk s.txdb.ops then (true, s.withTxdb s.txdb.commit)
  else (false, s.withTxdb s.txdb.txnAbort)

variable {s}

@[simp] theorem withTxdb_self : s.withTxdb s.txdb = s := rfl
@[simp] theorem withTxdb_withTxdb (txdb txdb' : CTxDB) : (s.withTxdb txdb).withTxdb txdb' = s.withTxdb txdb' := rfl

end Node

/-! ## Steps on single parts of the node -/

def modifyTxdb (f : CTxDB → CTxDB) : NodeM Unit := modify fun s => s.withTxdb (f s.txdb)

/-- `TxnCommit`, refusing with `e` when it fails. -/
def txnCommit (env : Env) (e : Reject) : NodeM Unit := do
  let s ← get
  let (fOk, s') := s.commit env
  set s'
  StateError.rejectIf (fOk = false) e

/-- `SyncWithWallets`: tell every wallet of a transaction. -/
def syncWithWallets (P : Params) (env : Env) (tx : CTransaction) (pblock : Option CBlock) (fUpdate fConnect : Bool) :
    NodeM Unit :=
  modify fun s => { s with wallets := s.wallets.map fun w => w.sync P env.adjustedTime env.walletWritten tx pblock fUpdate fConnect }

end Pinkcoin
