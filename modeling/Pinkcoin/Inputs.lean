/-
A transaction and the outputs it spends: fetching the previous transactions,
checking and marking their outputs (`ConnectInputs`), and giving them back
(`DisconnectInputs`).
-/
import Pinkcoin.CheckBlock

namespace Pinkcoin

open StateError (rejectIf onlyIf)

/-! ## Reading from the block files -/

namespace Node

variable (s : Node) (env : Env)

/-- `CTransaction::ReadFromDisk(pos)`. -/
def readTx (pos : Option CDiskTxPos) : Option CTransaction :=
  pos.bind fun p => if env.txReadable p then s.disk.tx p else none

/-- `CBlock::ReadFromDisk(nFile, nBlockPos, false)`, up to the header. -/
def readBlock (nFile nBlockPos : Nat) : Option CBlock :=
  if env.blockReadable nFile nBlockPos then s.disk.block nFile nBlockPos else none

/-- `CBlock::ReadFromDisk(pindex)`: the block with its transactions, when its
header is sound and has the hash of the index record. -/
def readIndexed (P : Params) (pindex : CBlockIndex) : Except Reject CBlock := do
  match s.readBlock env pindex.nFile pindex.nBlockPos with
  | none => throw (error "CBlock::ReadFromDisk() : OpenBlockFile failed")
  | some block =>
    onlyIf block.isProofOfWork
      ((checkProofOfWork P (block.getHash P) block.nBits).mapError fun _ =>
        error "CBlock::ReadFromDisk() : errors in block header")
    rejectIf (block.getHash P ≠ pindex.phashBlock) (error "CBlock::ReadFromDisk() : GetHash() doesn't match index")
    pure block

/-- `CTransaction::ReadFromDisk(txdb, prevout, txindexRet)`. -/
def readPrevout (prevout : COutPoint) : Option (CTransaction × CTxIndex) := do
  let txindex ← s.txdb.readTxIndex prevout.hash
  let tx ← s.readTx env txindex.pos
  if prevout.n < tx.vout.length then some (tx, txindex) else none

end Node

/-! ## Fees -/

inductive GetMinFeeMode
  | gmfBlock
  | gmfRelay
  | gmfSend
  deriving DecidableEq

namespace CTransaction

/-- `GetMinFee(nBlockSize, mode, nBytes)`. -/
def getMinFee (tx : CTransaction) (nBlockSize : Nat) (mode : GetMinFeeMode) (nBytes : Nat) : Int :=
  let nBaseFee := if mode = .gmfRelay then MIN_RELAY_TX_FEE else MIN_TX_FEE
  let nNewBlockSize := nBlockSize + nBytes
  let nMinFee : Int := (1 + (nBytes : Int) / 1000) * nBaseFee
  -- to limit dust spam, a fee is asked for any output below 0.01
  let nMinFee := if nMinFee < nBaseFee ∧ ∃ txout ∈ tx.vout, txout.nValue < CENT then nBaseFee else nMinFee
  let nFull := nBlockSize ≠ 1 ∧ MAX_BLOCK_SIZE_GEN / 2 ≤ nNewBlockSize
  if nFull ∧ MAX_BLOCK_SIZE_GEN ≤ nNewBlockSize then MAX_MONEY
  else
    let nMinFee := if nFull then nMinFee * (MAX_BLOCK_SIZE_GEN / (MAX_BLOCK_SIZE_GEN - nNewBlockSize) : Nat) else nMinFee
    if ¬ moneyRange nMinFee then MAX_MONEY else nMinFee

/-- The defaults of `GetMinFee()`. -/
def minFee (tx : CTransaction) : Int := tx.getMinFee 1 .gmfBlock 0

/-! ## Fetching the inputs -/

/-- What `FetchInputs` fails with: its `fInvalid`, and the refusal. -/
structure FetchError where
  fInvalid : Bool
  reject : Reject
  deriving DecidableEq

section Fetch

variable (env : Env) (s : Node) (mapTestPool : Map Uint256 CTxIndex) (fBlock fMiner : Bool)

/-- The previous transaction of one hash, with its index record: from the
queued changes of the block, or the database, or the memory pool. -/
def fetchPrev (hash : Uint256) : Except FetchError (CTxIndex × CTransaction) :=
  let queued := if fBlock || fMiner then mapTestPool.lookup hash else none
  match queued.or (s.txdb.readTxIndex hash) with
  | none =>
    if fBlock || fMiner then throw ⟨false, if fMiner then failed else error "FetchInputs() : prev tx index entry not found"⟩
    else
      match s.mempool.lookup hash with
      | none => throw ⟨false, error "FetchInputs() : mempool Tx prev not found"⟩
      | some txPrev => pure (⟨none, List.replicate txPrev.vout.length none⟩, txPrev)
  | some txindex =>
    if txindex.pos = some ⟨1, 1, 1⟩ then
      match s.mempool.lookup hash with
      | none => throw ⟨false, error "FetchInputs() : mempool Tx prev not found"⟩
      | some txPrev => pure (txindex, txPrev)
    else
      match s.readTx env txindex.pos with
      | none => throw ⟨false, error "FetchInputs() : ReadFromDisk prev tx failed"⟩
      | some txPrev => pure (txindex, txPrev)

/-- The first loop of `FetchInputs`: each previous transaction once. -/
def fetchLoop : List CTxIn → MapPrevTx → Except FetchError MapPrevTx
  | [], inputsRet => pure inputsRet
  | txin :: vin, inputsRet =>
    if (inputsRet.lookup txin.prevout.hash).isSome then fetchLoop vin inputsRet
    else do
      let prev ← fetchPrev env s mapTestPool fBlock fMiner txin.prevout.hash
      fetchLoop vin (inputsRet.insert txin.prevout.hash prev)

/-- The second loop of `FetchInputs`: every `prevout.n` is an output of the
previous transaction and a slot of its record. -/
def prevoutInRange (inputs : MapPrevTx) (txin : CTxIn) : Prop :=
  ∃ prev ∈ inputs.lookup txin.prevout.hash,
    txin.prevout.n < prev.2.vout.length ∧ txin.prevout.n < prev.1.vSpent.length

instance (inputs : MapPrevTx) (txin : CTxIn) : Decidable (prevoutInRange inputs txin) :=
  inferInstanceAs (Decidable (∃ prev ∈ inputs.lookup txin.prevout.hash, _ ∧ _))

/-- `FetchInputs`. -/
def fetchInputs (tx : CTransaction) : Except FetchError MapPrevTx :=
  if tx.isCoinBase then pure ∅
  else do
    let inputsRet ← fetchLoop env s mapTestPool fBlock fMiner tx.vin ∅
    rejectIf (∃ txin ∈ tx.vin, ¬ prevoutInRange inputsRet txin)
      (FetchError.mk true (DoS 100 "FetchInputs() : prevout.n out of range"))
    pure inputsRet

end Fetch

/-- `GetOutputFor`: the output an input spends. -/
def getOutputFor (inputs : MapPrevTx) (txin : CTxIn) : Option CTxOut :=
  (inputs.lookup txin.prevout.hash).bind fun prev => prev.2.vout[txin.prevout.n]?

/-- The value of the output an input spends. `FetchInputs` makes sure that
there is one; the source throws where there is none. -/
def valueFor (inputs : MapPrevTx) (txin : CTxIn) : Int := ((getOutputFor inputs txin).map CTxOut.nValue).getD 0

/-- `GetValueIn`. -/
def getValueIn (tx : CTransaction) (inputs : MapPrevTx) : Int :=
  if tx.isCoinBase then 0 else (tx.vin.map (valueFor inputs)).sum

/-- `GetP2SHSigOpCount`. -/
def getP2SHSigOpCount (tx : CTransaction) (inputs : MapPrevTx) : Nat :=
  if tx.isCoinBase then 0
  else (tx.vin.map fun txin =>
    match getOutputFor inputs txin with
    | none => 0
    | some prevout =>
      if CScript.isPayToScriptHash prevout.scriptPubKey then CScript.getSigOpCountFor prevout.scriptPubKey txin.scriptSig
      else 0).sum

/-! ## Spending the inputs -/

section Connect

variable (P : Params) (s : Node) (posThisTx : CDiskTxPos) (branch : List CBlockIndex) (fBlock fMiner : Bool)
  (tx : CTransaction)

/-- The record lies in one of the last blocks of `branch`, fewer than
`nCoinbaseMaturity` below its first. -/
def isImmature (txindex : CTxIndex) : Prop :=
  ∃ top ∈ branch.head?, ∃ pos ∈ txindex.pos,
    ∃ pindex ∈ branch.takeWhile (fun pindex => decide (top.nHeight - pindex.nHeight < P.nCoinbaseMaturity)),
      pindex.nBlockPos = pos.nBlockPos ∧ pindex.nFile = pos.nFile

instance (txindex : CTxIndex) : Decidable (isImmature P branch txindex) :=
  inferInstanceAs (Decidable (∃ top ∈ branch.head?, ∃ pos ∈ txindex.pos, ∃ pindex ∈ _, _))

/-- The first loop of `ConnectInputs`, the inexpensive checks, with the
value of the inputs so far. -/
def checkInputs (inputs : MapPrevTx) : List CTxIn → Int → Except Reject Int
  | [], nValueIn => pure nValueIn
  | txin :: vin, nValueIn => do
    match inputs.lookup txin.prevout.hash with
    | none => throw (error "assert(inputs.count(prevout.hash) > 0)")
    | some (txindex, txPrev) =>
      rejectIf (¬ prevoutInRange inputs txin) (DoS 100 "ConnectInputs() : prevout.n out of range")
      rejectIf ((txPrev.isCoinBase ∨ txPrev.isCoinStake) ∧ isImmature P branch txindex)
        (error (if txPrev.isCoinBase then "ConnectInputs() : tried to spend coinbase at depth"
          else "ConnectInputs() : tried to spend coinstake at depth"))
      rejectIf (tx.nTime < txPrev.nTime)
        (DoS 100 "ConnectInputs() : transaction timestamp earlier than input transaction")
      let nValue := valueFor inputs txin
      rejectIf (¬ moneyRange nValue ∨ ¬ moneyRange (nValueIn + nValue))
        (DoS 100 "ConnectInputs() : txin values out of range")
      checkInputs inputs vin (nValueIn + nValue)

/-- The second loop of `ConnectInputs`: each output is unspent and signed
for, and is marked as spent by this transaction. Inputs are numbered from `i`. -/
def spendInputs : List CTxIn → Nat → MapPrevTx → Map Uint256 CTxIndex → Except Reject (Map Uint256 CTxIndex)
  | [], _, _, mapTestPool => pure mapTestPool
  | txin :: vin, i, inputs, mapTestPool => do
    let hash := txin.prevout.hash
    match inputs.lookup hash with
    | none => throw (error "assert(inputs.count(prevout.hash) > 0)")
    | some (txindex, txPrev) =>
      -- no DoS on purpose: a double spend must not split the network
      rejectIf (∃ spent ∈ txindex.vSpent[txin.prevout.n]?, spent.isSome)
        (if fMiner then failed else error "ConnectInputs() : prev tx already used")
      -- signatures are not checked before the last hardened checkpoint
      rejectIf (¬ (fBlock ∧ s.nBestHeight < P.getTotalBlocksEstimate) ∧ ¬ P.verifySignature txPrev tx i)
        (DoS 100 "ConnectInputs() : VerifySignature failed")
      let txindex := { txindex with vSpent := txindex.vSpent.set txin.prevout.n (some posThisTx) }
      spendInputs vin (i + 1) (inputs.insert hash (txindex, txPrev))
        (if fBlock || fMiner then mapTestPool.insert hash txindex else mapTestPool)

/-- The value rules at the end of `ConnectInputs`; a coinstake is exempt. -/
def checkFees (nValueIn : Int) : Except Reject Unit := do
  if ¬ tx.isCoinStake then
    rejectIf (nValueIn < tx.getValueOut) (DoS 100 "ConnectInputs() : value in < value out")
    let nTxFee := nValueIn - tx.getValueOut
    rejectIf (nTxFee < 0) (DoS 100 "ConnectInputs() : nTxFee < 0")
    rejectIf (nTxFee < tx.minFee) (if fBlock then DoS 100 "ConnectInputs() : not paying required fee" else failed)
    rejectIf (¬ moneyRange nTxFee) (DoS 100 "ConnectInputs() : nFees out of range")

/-- `ConnectInputs`, with the blocks from `pindexBlock` back. -/
def connectInputs (inputs : MapPrevTx) (mapTestPool : Map Uint256 CTxIndex) : Except Reject (Map Uint256 CTxIndex) :=
  if tx.isCoinBase then pure mapTestPool
  else do
    let nValueIn ← checkInputs P branch tx inputs tx.vin 0
    let mapTestPool ← spendInputs P s posThisTx fBlock fMiner tx tx.vin 0 inputs mapTestPool
    checkFees fBlock tx nValueIn
    pure mapTestPool

end Connect

/-! ## Giving the inputs back -/

/-- One input in `DisconnectInputs`. -/
def relinquish (txin : CTxIn) : NodeM Unit := do
  let s ← get
  match s.txdb.readTxIndex txin.prevout.hash with
  | none => throw (error "DisconnectInputs() : ReadTxIndex failed")
  | some txindex =>
    rejectIf (txindex.vSpent.length ≤ txin.prevout.n) (error "DisconnectInputs() : prevout.n out of range")
    modifyTxdb fun txdb =>
      txdb.updateTxIndex txin.prevout.hash { txindex with vSpent := txindex.vSpent.set txin.prevout.n none }

/-- `DisconnectInputs`. -/
def disconnectInputs (P : Params) (tx : CTransaction) : NodeM Unit := do
  onlyIf (¬ tx.isCoinBase) (forM tx.vin relinquish)
  modifyTxdb fun txdb => txdb.eraseTxIndex P tx

end CTransaction

end Pinkcoin
