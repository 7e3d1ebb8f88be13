/-
Making a block out of the memory pool (`CreateNewBlock`). What may go in is
taken off a heap, a transaction that spends others of the pool after these,
and each one is checked the way `ConnectBlock` will check it.
-/
import Pinkcoin.Lib.ReadyQueue
import Pinkcoin.Stake.StakeOut
import Pinkcoin.AcceptBlock

namespace Pinkcoin

open StateError (rejectIf)

/-- `COINBASE_FLAGS`, which nothing sets. -/
def COINBASE_FLAGS : CScript := []

/-- What `CreateNewBlock` is called with and meets: the reserved key, the sizes
as `GetArg` returns them, and the clock. Priorities and fees per kilobyte are
doubles, so what is made of them is given: which transaction is in front of the
heap, and which are below `nMinTxFee` or the priority of a free one. -/
structure MinerEnv where
  fProofOfStake : Bool
  reservedKey : Option CKeyID
  blockMaxSize : Nat
  blockPrioritySize : Nat
  blockMinSize : Nat
  rawtime : Nat
  front : Bool → CTransaction → (ready : List CTransaction) → Fin (ready.length + 1)
  lowFee : CTransaction → Bool
  lowPriority : CTransaction → Bool

namespace MinerEnv

variable (m : MinerEnv)

def nBlockMaxSize : Nat := max 1000 (min (MAX_BLOCK_SIZE - 1000) m.blockMaxSize)

def nBlockPrioritySize : Nat := min m.nBlockMaxSize m.blockPrioritySize

def nBlockMinSize : Nat := min m.nBlockMaxSize m.blockMinSize

/-- The coinbase, with what it pays; without a key there is none. -/
def txNew (env : Env) (nHeight : Nat) (nValue : Int) : Option CTransaction :=
  if m.fProofOfStake then
    -- height first in coinbase, as a block of version 2 needs it
    some ⟨1, env.adjustedTime.toNat, [⟨COutPoint.null, CScript.pushInt64 nHeight ++ COINBASE_FLAGS, UINT_MAX⟩],
      [CTxOut.empty], 0⟩
  else
    m.reservedKey.map fun id =>
      ⟨1, env.adjustedTime.toNat, [⟨COutPoint.null, [], UINT_MAX⟩], [⟨nValue, setDestination (.keyID id)⟩], 0⟩

end MinerEnv

/-! ## What has to wait -/

/-- The transactions of the pool, by what they wait for. -/
abbrev TxQueue := ReadyQueue CTransaction Uint256

section Queue

variable (env : Env) (s : Node)

/-- The transactions of the pool that may go into a block. -/
def CTransaction.isEligible (tx : CTransaction) : Prop :=
  ¬ tx.isCoinBase ∧ ¬ tx.isCoinStake ∧ tx.isFinal s.nBestHeight.toNat env.adjustedTime

instance (tx : CTransaction) : Decidable (tx.isEligible env s) := inferInstanceAs (Decidable (_ ∧ _ ∧ _))

/-- The loop over the inputs of a transaction: `setDependsOn`, the transactions
to wait for as they are not on disk, and `fMissingInputs`, for one that is not
in the pool either, where the loop ends. -/
def waitInputs : List CTxIn → Finset Uint256 → Finset Uint256 × Bool
  | [], setDependsOn => (setDependsOn, false)
  | txin :: vin, setDependsOn =>
    if (s.readPrevout env txin.prevout).isSome then waitInputs vin setDependsOn
    else if (s.mempool.lookup txin.prevout.hash).isNone then (setDependsOn, true)
    else waitInputs vin (insert txin.prevout.hash setDependsOn)

/-- A transaction of the pool comes in. One with a missing input is taken off
`vOrphan` again, but not out of `mapDependers`. -/
def queueTx (queue : TxQueue) (tx : CTransaction) : TxQueue :=
  if tx.isEligible env s then
    if (waitInputs env s tx.vin ∅).2 then queue.giveUp tx (waitInputs env s tx.vin ∅).1
    else queue.enter tx (waitInputs env s tx.vin ∅).1
  else queue

/-- `mempool.mapTx`, as a list. -/
def CTxMemPool.txs (pool : CTxMemPool) : List CTransaction := pool.mapTx.entries.map Sigma.snd

def queuePool : TxQueue := s.mempool.txs.foldl (queueTx env s) ReadyQueue.empty

end Queue

/-! ## Collecting transactions into the block -/

/-- The local variables of the loop. `vtx` is without the coinbase. -/
structure MinerState where
  queue : TxQueue
  fSortedByFee : Bool
  mapTestPool : Map Uint256 CTxIndex
  vtx : List CTransaction
  nBlockSize : Nat
  nBlockSigOps : Nat
  nFees : Int

/-- Where the transactions of the new block lie: in the memory pool. -/
def poolPos : CDiskTxPos := ⟨1, 1, 1⟩

namespace MinerState

variable (P : Params) (env : Env) (m : MinerEnv) (s : Node) (branch : List CBlockIndex) (st : MinerState)

/-- The limits a transaction is skipped for. -/
def fits (tx : CTransaction) : Prop :=
  st.nBlockSize + tx.getSerializeSize < m.nBlockMaxSize ∧
    st.nBlockSigOps + tx.getLegacySigOpCount < MAX_BLOCK_SIGOPS ∧
    ¬ (env.adjustedTime < tx.nTime ∨ m.fProofOfStake ∧ env.adjustedTime.toNat < tx.nTime) ∧
    ¬ (st.fSortedByFee ∧ m.lowFee tx ∧ m.nBlockMinSize ≤ st.nBlockSize + tx.getSerializeSize)

instance (tx : CTransaction) : Decidable (fits env m st tx) := inferInstanceAs (Decidable (_ ∧ _ ∧ _ ∧ _))

/-- Prioritize by fee once past the priority size or out of high-priority
transactions. -/
def resort (tx : CTransaction) : MinerState :=
  { st with
    fSortedByFee := st.fSortedByFee ||
      (decide (m.nBlockPrioritySize ≤ st.nBlockSize + tx.getSerializeSize) || m.lowPriority tx) }

/-- The transaction is checked against the block so far, and added. -/
def addTx (tx : CTransaction) : Except Reject MinerState := do
  match tx.fetchInputs env s st.mapTestPool false true with
  | .error _ => throw failed
  | .ok mapInputs =>
    let nTxFees := tx.getValueIn mapInputs - tx.getValueOut
    rejectIf (nTxFees < tx.getMinFee st.nBlockSize .gmfBlock 0) failed
    let nTxSigOps := tx.getLegacySigOpCount + tx.getP2SHSigOpCount mapInputs
    rejectIf (MAX_BLOCK_SIGOPS ≤ st.nBlockSigOps + nTxSigOps) failed
    match tx.connectInputs P s poolPos branch false true mapInputs st.mapTestPool with
    | .error _ => throw failed
    | .ok mapTestPool =>
      pure { st with
        mapTestPool := mapTestPool.insert (tx.getHash P) (CTxIndex.fresh poolPos tx.vout.length)
        vtx := st.vtx ++ [tx]
        nBlockSize := st.nBlockSize + tx.getSerializeSize
        nBlockSigOps := st.nBlockSigOps + nTxSigOps
        nFees := st.nFees + nTxFees }

/-- One turn of the loop. There is no result where a freed place is read. -/
def takeTx (tx : CTransaction) : Option MinerState :=
  if fits env m st tx then
    match addTx P env s branch (st.resort m tx) tx with
    | .error _ => some (st.resort m tx)
    | .ok st => (st.queue.finish (tx.getHash P)).map fun queue => { st with queue := queue }
  else some st

/-- The heap without the transaction at a place. -/
def pop (ready : List CTransaction) (i : Nat) : MinerState :=
  { st with queue := { st.queue with ready := ready.eraseIdx i } }

/-- The loop. Each transaction of the pool is in the heap once, so the pool's
size is fuel enough. -/
def collectLoop : Nat → MinerState → Option MinerState
  | 0, st => if st.queue.ready = [] then some st else none
  | fuel + 1, st =>
    match st.queue.ready with
    | [] => some st
    | tx :: ready =>
      let i := m.front st.fSortedByFee tx ready
      (takeTx P env m s branch (st.pop (tx :: ready) i) ((tx :: ready).get i)).bind (collectLoop fuel)

end MinerState

/-! ## The block -/

/-- `GetMaxTransactionTime`. -/
def CBlock.getMaxTransactionTime (block : CBlock) : Nat := (block.vtx.map CTransaction.nTime).foldl max 0

/-- `PastDrift`. -/
def pastDrift (nTime : Int) : Int := nTime - 10 * 60

section Create

variable (P : Params) (env : Env) (m : MinerEnv) (s : Node)

/-- What the loop starts with. -/
def MinerState.start : MinerState := ⟨queuePool env s, decide (m.nBlockPrioritySize ≤ 0), ∅, [], 1000, 100, 0⟩

/-- The transactions collected for a block on top of a branch. -/
def collect (branch : List CBlockIndex) : Option MinerState :=
  MinerState.collectLoop P env m s branch s.mempool.txs.length (MinerState.start env m s)

/-- The time of the header. -/
def CBlock.fillTime (branch : List CBlockIndex) (pindexPrev : CBlockIndex) (block : CBlock) : CBlock :=
  let nTime : Int := max (getMedianTimePast branch + 1) block.getMaxTransactionTime
  let nTime := max nTime (pastDrift pindexPrev.nTime)
  { block with nTime := (if m.fProofOfStake then nTime else max nTime env.adjustedTime).toNat }

/-- `CreateNewBlock`, with its fees. -/
def createNewBlock : Option (CBlock × Int) := do
  let pindexPrev ← s.best
  let branch := s.mapBlockIndex.branch pindexPrev.phashBlock
  let nHeight := pindexPrev.nHeight + 1
  let nBits ← getNextTargetRequired P s.fDisablePOW branch m.fProofOfStake m.rawtime
  let st ← collect P env m s branch
  let txNew ← m.txNew env nHeight (getProofOfWorkReward nHeight st.nFees)
  let block : CBlock := ⟨⟨CBlock.CURRENT_VERSION, pindexPrev.phashBlock, 0, 0, nBits, 0⟩, txNew :: st.vtx, []⟩
  pure (block.fillTime env m branch pindexPrev, st.nFees)

end Create

end Pinkcoin
