/-
The checks of a transaction and of a block that need no chain: shape, sizes,
amounts, times, duplicates, the merkle root.
-/
import Pinkcoin.Node
import Pinkcoin.Target
import Pinkcoin.Script

namespace Pinkcoin

open StateError (rejectIf onlyIf)

namespace CTransaction

/-- The loop over the outputs in `CheckTransaction`, with the total so far. -/
def checkOutputs (tx : CTransaction) : List CTxOut → Int → Except Reject Unit
  | [], _ => pure ()
  | txout :: vout, nValueOut => do
    rejectIf (txout.isEmpty ∧ ¬ tx.isCoinBase ∧ ¬ tx.isCoinStake)
      (DoS 100 "CTransaction::CheckTransaction() : txout empty for user transaction")
    rejectIf (txout.nValue < 0) (DoS 100 "CTransaction::CheckTransaction() : txout.nValue negative")
    rejectIf (MAX_MONEY < txout.nValue) (DoS 100 "CTransaction::CheckTransaction() : txout.nValue too high")
    rejectIf (¬ moneyRange (nValueOut + txout.nValue))
      (DoS 100 "CTransaction::CheckTransaction() : txout total out of range")
    checkOutputs tx vout (nValueOut + txout.nValue)

/-- `CheckTransaction`. -/
def checkTransaction (env : Env) (tx : CTransaction) : Except Reject Unit := do
  rejectIf (tx.vin = []) (DoS 10 "CTransaction::CheckTransaction() : vin empty")
  rejectIf (tx.vout = []) (DoS 10 "CTransaction::CheckTransaction() : vout empty")
  rejectIf (futureDrift env.adjustedTime < tx.nTime)
    (DoS 10 "CTransaction::CheckTransaction() : timestamp is too far into the future")
  rejectIf (MAX_BLOCK_SIZE < tx.getSerializeSize) (DoS 100 "CTransaction::CheckTransaction() : size limits failed")
  tx.checkOutputs tx.vout 0
  rejectIf (¬ (tx.vin.map CTxIn.prevout).Nodup) failed
  if tx.isCoinBase then
    rejectIf (∃ txin ∈ tx.vin.head?, txin.scriptSig.length < 2 ∨ 200 < txin.scriptSig.length)
      (DoS 100 "CTransaction::CheckTransaction() : coinbase script size is invalid")
  else
    rejectIf (∃ txin ∈ tx.vin, txin.prevout.isNull) (DoS 10 "CTransaction::CheckTransaction() : prevout is null")

def getLegacySigOpCount (tx : CTransaction) : Nat :=
  (tx.vin.map fun txin => CScript.getSigOpCount txin.scriptSig false).sum
    + (tx.vout.map fun txout => CScript.getSigOpCount txout.scriptPubKey false).sum

/-- `GetValueOut`. Its exception needs an output that `CheckTransaction` rejects. -/
def getValueOut (tx : CTransaction) : Int := (tx.vout.map CTxOut.nValue).sum

/-- `IsFinal(nBlockHeight, nBlockTime)`, both given. -/
def isFinal (tx : CTransaction) (nBlockHeight : Nat) (nBlockTime : Int) : Prop :=
  tx.nLockTime = 0 ∨
    (tx.nLockTime : Int) < (if (tx.nLockTime : Int) < LOCKTIME_THRESHOLD then (nBlockHeight : Int) else nBlockTime) ∨
    ∀ txin ∈ tx.vin, txin.isFinal

instance (tx : CTransaction) (h : Nat) (t : Int) : Decidable (tx.isFinal h t) :=
  inferInstanceAs (Decidable (_ ∨ _ ∨ _))

end CTransaction

namespace CBlock

/-- A time the block must not be past: blocks after number 315065 get less
room in the future. -/
def futureLimit (block : CBlock) : Int :=
  if 1513942698 < block.nTime then block.nTime + 9 * 60 else block.nTime

/-- The rules of a proof-of-stake block in `CheckBlock`. `CheckCoinStakeTimestamp`
asks for equal times. -/
def checkStake (P : Params) (block : CBlock) (fCheckSig : Bool) : Except Reject Unit := do
  rejectIf (¬ ∃ coinbase ∈ block.vtx.head?, coinbase.vout.length = 1 ∧ ∃ o ∈ coinbase.vout.head?, o.isEmpty)
    (DoS 100 "CheckBlock() : coinbase output not empty for proof-of-stake block")
  rejectIf (¬ ∃ tx ∈ block.vtx[1]?, tx.isCoinStake) (DoS 100 "CheckBlock() : second tx is not coinstake")
  rejectIf (∃ tx ∈ block.vtx.drop 2, tx.isCoinStake) (DoS 100 "CheckBlock() : more than one coinstake")
  rejectIf (¬ ∃ tx ∈ block.vtx[1]?, block.nTime = tx.nTime) (DoS 50 "CheckBlock() : coinstake timestamp violation")
  rejectIf (fCheckSig ∧ ¬ P.checkBlockSignature block) (DoS 100 "CheckBlock() : bad proof-of-stake block signature")

/-- One transaction in `CheckBlock`. -/
def checkBlockTx (env : Env) (block : CBlock) (tx : CTransaction) : Except Reject Unit := do
  (tx.checkTransaction env).mapError fun e => DoS e.nDoS "CheckBlock() : CheckTransaction failed"
  rejectIf (block.nTime < tx.nTime) (DoS 50 "CheckBlock() : block timestamp earlier than transaction timestamp")

/-- `CheckBlock`. -/
def checkBlock (P : Params) (env : Env) (block : CBlock) (fCheckPOW fCheckMerkleRoot fCheckSig : Bool) :
    Except Reject Unit := do
  rejectIf (block.vtx = [] ∨ MAX_BLOCK_SIZE < block.vtx.length ∨ MAX_BLOCK_SIZE < block.getSerializeSize)
    (DoS 100 "CheckBlock() : size limits failed")
  onlyIf (fCheckPOW ∧ block.isProofOfWork)
    ((checkProofOfWork P (block.getHash P) block.nBits).mapError fun _ => DoS 50 "CheckBlock() : proof of work failed")
  rejectIf (futureDrift env.adjustedTime < block.futureLimit)
    (error "CheckBlock() : block timestamp too far in the future")
  rejectIf (¬ ∃ tx ∈ block.vtx.head?, tx.isCoinBase) (DoS 100 "CheckBlock() : first tx is not coinbase")
  rejectIf (∃ tx ∈ block.vtx.tail, tx.isCoinBase) (DoS 100 "CheckBlock() : more than one coinbase")
  rejectIf ((∃ tx ∈ block.vtx.head?, futureDrift tx.nTime < block.futureLimit) ∧ ¬ P.fTestNet)
    (DoS 50 "CheckBlock() : coinbase timestamp is too early")
  onlyIf block.isProofOfStake (block.checkStake P fCheckSig)
  forM block.vtx (block.checkBlockTx env)
  rejectIf (¬ (block.vtx.map (CTransaction.getHash P)).Nodup) (DoS 100 "CheckBlock() : duplicate transaction")
  rejectIf (MAX_BLOCK_SIGOPS < (block.vtx.map CTransaction.getLegacySigOpCount).sum)
    (DoS 100 "CheckBlock() : out-of-bounds SigOpCount")
  rejectIf (fCheckMerkleRoot ∧ block.hashMerkleRoot ≠ block.buildMerkleTree P)
    (DoS 100 "CheckBlock() : hashMerkleRoot mismatch")

/-- The coinbase starts with the serialized block height. -/
def numberedAs (nHeight : Nat) (block : CBlock) : Prop :=
  ∃ coinbase ∈ block.vtx.head?, ∃ txin ∈ coinbase.vin.head?, CScript.pushInt64 nHeight <+: txin.scriptSig

instance (nHeight : Nat) (block : CBlock) : Decidable (block.numberedAs nHeight) :=
  inferInstanceAs (Decidable (∃ coinbase ∈ block.vtx.head?, ∃ txin ∈ coinbase.vin.head?, _))

/-- The shape of a block that passed `CheckBlock`. -/
structure WellFormed (P : Params) (env : Env) (fCheckSig : Bool) (block : CBlock) : Prop where
  coinbase : ∃ tx ∈ block.vtx.head?, tx.isCoinBase
  noOtherCoinbase : ∀ tx ∈ block.vtx.tail, ¬ tx.isCoinBase
  stake : block.isProofOfStake → block.checkStake P fCheckSig = .ok ()
  txs : ∀ tx ∈ block.vtx, block.checkBlockTx env tx = .ok ()
  distinct : (block.vtx.map (CTransaction.getHash P)).Nodup

theorem wellFormed_of_checkBlock {P : Params} {env : Env} {block : CBlock} {fCheckPOW fCheckMerkleRoot fCheckSig : Bool}
    (h : block.checkBlock P env fCheckPOW fCheckMerkleRoot fCheckSig = .ok ()) : WellFormed P env fCheckSig block := by
  simp only [checkBlock, StateError.except_bind_ok, StateError.except_rejectIf_ok, StateError.except_onlyIf_ok,
    StateError.except_forM_ok, not_not, exists_const] at h
  obtain ⟨-, _, -, -, hcb, hother, -, _, hstake, htxs, hnd, -⟩ := h
  exact ⟨hcb, fun tx htx hn => hother ⟨tx, htx, hn⟩, hstake, htxs, hnd⟩

end CBlock

end Pinkcoin
