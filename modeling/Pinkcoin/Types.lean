/-
The data of the node: transactions, blocks, the index records about them.
Hashes are natural numbers, amounts (`int64_t`) are integers, the unsigned
counters natural numbers; a wrap-around is written where the source can
reach one. A pointer to a `CBlockIndex` is the block hash it is stored
under, and a pointer that may be null is an `Option`.
-/
import Mathlib.Algebra.Order.Ring.Int
import Mathlib.Data.List.AList

namespace Pinkcoin

abbrev Uint256 := Nat

/-- The bytes of a script. -/
abbrev CScript := List UInt8

/-- `std::map`. The order of the entries is never read where it could differ
from the source's. -/
abbrev Map (K V : Type) := AList (fun _ : K => V)

/-! ## Amounts and limits -/

def COIN : Int := 100000000
def CENT : Int := 1000000
def MAX_MONEY : Int := 500000000 * COIN
def MIN_TX_FEE : Int := 10000
def MIN_RELAY_TX_FEE : Int := MIN_TX_FEE
def MAX_BLOCK_SIZE : Nat := 1000000
def MAX_BLOCK_SIZE_GEN : Nat := MAX_BLOCK_SIZE / 2
def MAX_BLOCK_SIGOPS : Nat := MAX_BLOCK_SIZE / 50
def YEARLY_BLOCKCOUNT : Nat := 423400
def nHalvingPoint : Nat := 2
def LOCKTIME_THRESHOLD : Int := 500000000

/-- `std::numeric_limits<unsigned int>::max()`, also `(unsigned int) -1`. -/
def UINT_MAX : Nat := 2 ^ 32 - 1

def moneyRange (nValue : Int) : Prop := 0 ≤ nValue ∧ nValue ≤ MAX_MONEY

instance (n : Int) : Decidable (moneyRange n) := inferInstanceAs (Decidable (_ ∧ _))

/-! ## Transactions -/

/-- Where a transaction lies on disk. `SetNull` is `none` of
`Option CDiskTxPos`, so there is one null position only. -/
structure CDiskTxPos where
  nFile : Nat
  nBlockPos : Nat
  nTxPos : Nat
  deriving DecidableEq, Repr

/-- An outpoint: a transaction hash and an index into its `vout`. -/
structure COutPoint where
  hash : Uint256
  n : Nat
  deriving DecidableEq, Repr

def COutPoint.null : COutPoint := ⟨0, UINT_MAX⟩

def COutPoint.isNull (o : COutPoint) : Prop := o = COutPoint.null

instance (o : COutPoint) : Decidable o.isNull := inferInstanceAs (Decidable (_ = _))

structure CTxIn where
  prevout : COutPoint
  scriptSig : CScript
  nSequence : Nat
  deriving DecidableEq, Repr

def CTxIn.isFinal (txin : CTxIn) : Prop := txin.nSequence = UINT_MAX

instance (i : CTxIn) : Decidable i.isFinal := inferInstanceAs (Decidable (_ = _))

structure CTxOut where
  nValue : Int
  scriptPubKey : CScript
  deriving DecidableEq, Repr

/-- `SetEmpty`. -/
def CTxOut.empty : CTxOut := ⟨0, []⟩

def CTxOut.isEmpty (o : CTxOut) : Prop := o.nValue = 0 ∧ o.scriptPubKey = []

instance (o : CTxOut) : Decidable o.isEmpty := inferInstanceAs (Decidable (_ ∧ _))

structure CTransaction where
  nVersion : Int
  nTime : Nat
  vin : List CTxIn
  vout : List CTxOut
  nLockTime : Nat
  deriving DecidableEq, Repr

namespace CTransaction

variable (tx : CTransaction)

def isCoinBase : Prop :=
  tx.vin.length = 1 ∧ (∃ txin ∈ tx.vin.head?, txin.prevout.isNull) ∧ 1 ≤ tx.vout.length

/-- The coinstake transaction is marked with the first output empty. -/
def isCoinStake : Prop :=
  (∃ txin ∈ tx.vin.head?, ¬ txin.prevout.isNull) ∧ 2 ≤ tx.vout.length ∧ ∃ o ∈ tx.vout.head?, o.isEmpty

instance : Decidable tx.isCoinBase := inferInstanceAs (Decidable (_ ∧ _ ∧ _))
instance : Decidable tx.isCoinStake := inferInstanceAs (Decidable (_ ∧ _ ∧ _))

/-- The outpoints the transaction spends: a coinbase has none to fetch. -/
def prevouts : List COutPoint :=
  if tx.isCoinBase then [] else tx.vin.map CTxIn.prevout

end CTransaction

/-- The record of a transaction in the index: where it lies, and for each
output the position of the transaction that spent it (`none` while unspent). -/
structure CTxIndex where
  pos : Option CDiskTxPos
  vSpent : List (Option CDiskTxPos)
  deriving DecidableEq, Repr

/-- `CTxIndex(posIn, nOutputs)`. -/
def CTxIndex.fresh (posIn : CDiskTxPos) (nOutputs : Nat) : CTxIndex :=
  ⟨some posIn, List.replicate nOutputs none⟩

/-- The previous transactions of a transaction, with their index records. -/
abbrev MapPrevTx := Map Uint256 (CTxIndex × CTransaction)

/-! ## Blocks -/

/-- The part of a block its hash is computed from. -/
structure CBlockHeader where
  nVersion : Int
  hashPrevBlock : Uint256
  hashMerkleRoot : Uint256
  nTime : Nat
  nBits : Nat
  nNonce : Nat
  deriving DecidableEq, Repr

structure CBlock extends CBlockHeader where
  vtx : List CTransaction
  vchBlockSig : List UInt8
  deriving DecidableEq, Repr

namespace CBlock

variable (block : CBlock)

/-- A proof-of-stake block has a coinstake as its second transaction. -/
def isProofOfStake : Prop := ∃ tx ∈ block.vtx[1]?, tx.isCoinStake

def isProofOfWork : Prop := ¬ block.isProofOfStake

instance : Decidable block.isProofOfStake := inferInstanceAs (Decidable (∃ tx ∈ block.vtx[1]?, tx.isCoinStake))
instance : Decidable block.isProofOfWork := inferInstanceAs (Decidable (¬ _))

end CBlock

/-- The in-memory record of a block. `pprev` and `pnext` are the hashes of
the records they point to, `nFlags` is one field for each bit. -/
structure CBlockIndex where
  phashBlock : Uint256
  pprev : Option Uint256
  pnext : Option Uint256
  nFile : Nat
  nBlockPos : Nat
  nChainTrust : Uint256
  nHeight : Nat
  nMint : Int
  nMoneySupply : Int
  fProofOfStake : Bool
  fStakeEntropy : Bool
  fStakeModifier : Bool
  nStakeModifier : Nat
  prevoutStake : COutPoint
  nStakeTime : Nat
  hashProof : Uint256
  nVersion : Int
  hashMerkleRoot : Uint256
  nTime : Nat
  nBits : Nat
  nNonce : Nat
  deriving DecidableEq, Repr

/-- What the database keeps of a `CBlockIndex`: the pointers as hashes (0
for null), and no chain trust. -/
structure CDiskBlockIndex where
  hashPrev : Uint256
  hashNext : Uint256
  nFile : Nat
  nBlockPos : Nat
  nHeight : Nat
  nMint : Int
  nMoneySupply : Int
  fProofOfStake : Bool
  fStakeEntropy : Bool
  fStakeModifier : Bool
  nStakeModifier : Nat
  prevoutStake : COutPoint
  nStakeTime : Nat
  hashProof : Uint256
  nVersion : Int
  hashMerkleRoot : Uint256
  nTime : Nat
  nBits : Nat
  nNonce : Nat
  deriving DecidableEq, Repr

namespace CDiskBlockIndex

/-- The header whose hash the record is stored under. -/
def header (d : CDiskBlockIndex) : CBlockHeader :=
  ⟨d.nVersion, d.hashPrev, d.hashMerkleRoot, d.nTime, d.nBits, d.nNonce⟩

/-- `CDiskBlockIndex(pindex)`. A proof-of-work record is written without its
stake fields. -/
def ofIndex (pindex : CBlockIndex) : CDiskBlockIndex where
  hashPrev := pindex.pprev.getD 0
  hashNext := pindex.pnext.getD 0
  nFile := pindex.nFile
  nBlockPos := pindex.nBlockPos
  nHeight := pindex.nHeight
  nMint := pindex.nMint
  nMoneySupply := pindex.nMoneySupply
  fProofOfStake := pindex.fProofOfStake
  fStakeEntropy := pindex.fStakeEntropy
  fStakeModifier := pindex.fStakeModifier
  nStakeModifier := pindex.nStakeModifier
  prevoutStake := if pindex.fProofOfStake then pindex.prevoutStake else COutPoint.null
  nStakeTime := if pindex.fProofOfStake then pindex.nStakeTime else 0
  hashProof := pindex.hashProof
  nVersion := pindex.nVersion
  hashMerkleRoot := pindex.hashMerkleRoot
  nTime := pindex.nTime
  nBits := pindex.nBits
  nNonce := pindex.nNonce

end CDiskBlockIndex

/-! ## Refusals -/

/-- Why a function of the node returned false: the misbehaviour score it
adds (`DoS(n, …)`, 0 for a plain `error(…)`) and the text it logs, without
the values printed into it. -/
structure Reject where
  nDoS : Nat
  text : String
  deriving DecidableEq, Repr

/-- `return error(text)`. -/
def error (text : String) : Reject := ⟨0, text⟩

/-- `return DoS(n, error(text))`. -/
def DoS (n : Nat) (text : String) : Reject := ⟨n, text⟩

/-- `return false` with nothing logged. -/
def failed : Reject := ⟨0, ""⟩

end Pinkcoin
