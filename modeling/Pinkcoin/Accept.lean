/-
Loose transactions: `CTxMemPool::accept`.
-/
import Pinkcoin.ConnectBlock

namespace Pinkcoin

open StateError (rejectIf)

/-- Why a loose transaction is refused, and whether only for inputs that
have not been seen (`pfMissingInputs`). -/
structure AcceptError where
  fMissingInputs : Bool
  reject : Reject
  deriving DecidableEq

/-- What `accept` refuses with when nothing is said about missing inputs. -/
def AcceptError.of (e : Reject) : AcceptError := ⟨false, e⟩

/-- The checks of `CTxMemPool::accept`. -/
def acceptChecks (P : Params) (env : Env) (s : Node) (tx : CTransaction) : Except AcceptError Unit := do
  (tx.checkTransaction env).mapError fun _ => .of (error "CTxMemPool::accept() : CheckTransaction failed")
  rejectIf tx.isCoinBase (AcceptError.of (DoS 100 "CTxMemPool::accept() : coinbase as individual tx"))
  rejectIf tx.isCoinStake (AcceptError.of (DoS 100 "CTxMemPool::accept() : coinstake as individual tx"))
  rejectIf (¬ P.fTestNet ∧ ¬ P.isStandard tx) (AcceptError.of (error "CTxMemPool::accept() : nonstandard transaction type"))
  let hash := tx.getHash P
  rejectIf ((s.mempool.lookup hash).isSome) (AcceptError.of failed)
  rejectIf (s.txdb.containsTx hash) (AcceptError.of failed)
  -- a transaction is never replaced by another that spends one of its outpoints
  rejectIf (∃ txin ∈ tx.vin, (s.mempool.mapNextTx.lookup txin.prevout).isSome) (AcceptError.of failed)
  match tx.fetchInputs env s ∅ false false with
  | .error e =>
    throw (if e.fInvalid then .of (error "CTxMemPool::accept() : FetchInputs found invalid tx") else ⟨true, failed⟩)
  | .ok mapInputs =>
    rejectIf (¬ P.areInputsStandard tx mapInputs ∧ ¬ P.fTestNet)
      (AcceptError.of (error "CTxMemPool::accept() : nonstandard transaction input"))
    let nFees := tx.getValueIn mapInputs - tx.getValueOut
    rejectIf (nFees < tx.getMinFee 1000 .gmfRelay tx.getSerializeSize)
      (AcceptError.of (error "CTxMemPool::accept() : not enough fees"))
    rejectIf (nFees < MIN_RELAY_TX_FEE ∧ ¬ env.freeTxAllowed)
      (AcceptError.of (error "CTxMemPool::accept() : free transaction rejected by rate limiter"))
    match tx.connectInputs P s ⟨1, 1, 1⟩ (s.pindexBest.elim [] s.mapBlockIndex.branch) false false mapInputs ∅ with
    | .error _ => throw (.of (error "CTxMemPool::accept() : ConnectInputs failed"))
    | .ok _ => pure ()

/-- `CTxMemPool::accept`, also `AcceptToMemoryPool`. -/
def acceptToMemoryPool (P : Params) (env : Env) (tx : CTransaction) : NodeM Unit := do
  let s ← get
  match acceptChecks P env s tx with
  | .error e => throw e.reject
  | .ok _ =>
    modify fun s => { s with mempool := s.mempool.addUnchecked (tx.getHash P) tx }
    syncWithWallets P env tx none true true

end Pinkcoin
