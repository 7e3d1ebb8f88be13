/-
The proof-of-stake kernel: the stake modifier that a chain generates every
few minutes, the modifier a coin hashes with, and the hash a coinstake has
to meet.
-/
import Mathlib.Data.List.Sort
import Pinkcoin.ConnectBlock

namespace Pinkcoin

open StateError (rejectIf)

/-! ## The modifier of the next block -/

def MODIFIER_INTERVAL_RATIO : Nat := 5

/-- `GetStakeModifierSelectionIntervalSection`, in seconds. -/
def getStakeModifierSelectionIntervalSection (nSection : Nat) : Nat :=
  nModifierInterval * 63 / (63 + (63 - nSection) * ( MODIFIER_INTERVAL_RATIO - 1))

/-- `GetStakeModifierSelectionInterval`, in seconds. -/
def getStakeModifierSelectionInterval : Nat :=
  ((List.range 64).map getStakeModifierSelectionIntervalSection).sum

/-- `GetLastStakeModifier`: the modifier generated last, and when. -/
def getLastStakeModifier (branch : List CBlockIndex) : Except Reject (Nat × Nat) :=
  match branch with
  | [] => throw (error "GetLastStakeModifier: null pindex")
  | _ =>
    match skipBack (fun b => !b.fStakeModifier) branch with
    | [] => throw (error "GetLastStakeModifier: null pindex")
    | pindex :: _ =>
      if pindex.fStakeModifier then pure (pindex.nStakeModifier, pindex.nTime)
      else throw (error "GetLastStakeModifier: no generation at genesis block")

/-- The hash by which a candidate is selected. A proof-of-stake block is
always favoured over a proof-of-work block. -/
def hashSelection (P : Params) (nStakeModifierPrev : Nat) (pindex : CBlockIndex) : Uint256 :=
  let hash := P.hashBytes (CScript.leBytes 32 pindex.hashProof ++ CScript.leBytes 8 nStakeModifierPrev)
  if pindex.fProofOfStake then hash / 2 ^ 32 else hash

/-- `SelectBlockFromCandidates`, with the best candidate so far and its hash.
The candidates are sorted by time; one past `nSelectionIntervalStop` ends the
loop once a block is selected. -/
def selectBlockFromCandidates (P : Params) (nSelectionIntervalStop : Int) (nStakeModifierPrev : Nat)
    (mapSelectedBlocks : List Uint256) : List CBlockIndex → Option (CBlockIndex × Uint256) → Option CBlockIndex
  | [], best => best.map Prod.fst
  | pindex :: rest, best =>
    if best.isSome ∧ nSelectionIntervalStop < pindex.nTime then best.map Prod.fst
    else if pindex.phashBlock ∈ mapSelectedBlocks then
      selectBlockFromCandidates P nSelectionIntervalStop nStakeModifierPrev mapSelectedBlocks rest best
    else
      let hash := hashSelection P nStakeModifierPrev pindex
      let best := match best with
        | none => some (pindex, hash)
        | some (b, hashBest) => if hash < hashBest then some (pindex, hash) else some (b, hashBest)
      selectBlockFromCandidates P nSelectionIntervalStop nStakeModifierPrev mapSelectedBlocks rest best

/-- The rounds of `ComputeNextStakeModifier`, from `nRound` on: each takes
one block, and its entropy bit into the new modifier. -/
def selectRounds (P : Params) (nStakeModifierPrev : Nat) (vSortedByTimestamp : List CBlockIndex) :
    Nat → Nat → Int → List Uint256 → Nat → Except Reject Nat
  | 0, _, _, _, nStakeModifierNew => pure nStakeModifierNew
  | rounds + 1, nRound, nSelectionIntervalStop, mapSelectedBlocks, nStakeModifierNew =>
    let nSelectionIntervalStop := nSelectionIntervalStop + getStakeModifierSelectionIntervalSection nRound
    match selectBlockFromCandidates P nSelectionIntervalStop nStakeModifierPrev mapSelectedBlocks
        vSortedByTimestamp none with
    | none => throw (error "ComputeNextStakeModifier: unable to select block")
    | some pindex =>
      selectRounds P nStakeModifierPrev vSortedByTimestamp rounds (nRound + 1) nSelectionIntervalStop
        (pindex.phashBlock :: mapSelectedBlocks)
        (nStakeModifierNew ||| ((if pindex.fStakeEntropy then 1 else 0) <<< nRound))

/-- Earlier blocks first, blocks of one time by hash. -/
def byTimestamp (a b : CBlockIndex) : Prop := a.nTime < b.nTime ∨ (a.nTime = b.nTime ∧ a.phashBlock ≤ b.phashBlock)

instance (a b : CBlockIndex) : Decidable (byTimestamp a b) := inferInstanceAs (Decidable (_ ∨ _))

/-- `ComputeNextStakeModifier`, from the branch of `pindexPrev`: the modifier
of the next block, and whether it is generated anew. -/
def computeNextStakeModifier (P : Params) (branch : List CBlockIndex) : Except Reject (Nat × Bool) :=
  match branch with
  | [] => pure (0, true) -- the genesis block's modifier is 0
  | pindexPrev :: _ =>
    match getLastStakeModifier branch with
    | .error _ => throw (error "ComputeNextStakeModifier: unable to get last modifier")
    | .ok (nStakeModifier, nModifierTime) =>
      if pindexPrev.nTime / nModifierInterval ≤ nModifierTime / nModifierInterval then pure (nStakeModifier, false)
      else do
        let nSelectionIntervalStart : Int :=
          (pindexPrev.nTime / nModifierInterval) * nModifierInterval - getStakeModifierSelectionInterval
        let candidates := branch.takeWhile fun b => decide (nSelectionIntervalStart ≤ b.nTime)
        let vSortedByTimestamp := candidates.insertionSort byTimestamp
        let nStakeModifierNew ← selectRounds P nStakeModifier vSortedByTimestamp
          (min 64 vSortedByTimestamp.length) 0 nSelectionIntervalStart [] 0
        pure (nStakeModifierNew, true)

/-! ## The modifier of a kernel -/

/-- The loop of `GetKernelStakeModifier`: forward along `pnext` from `pindex`
until a modifier was generated a selection interval after the coin's block.
The last one passed was generated at `nStakeModifierTime`. -/
def kernelLoop (t : BlockTree) (nTimeUntil : Nat) : Nat → CBlockIndex → Nat → Option Nat
  | 0, _, _ => none
  | fuel + 1, pindex, nStakeModifierTime =>
    if nTimeUntil ≤ nStakeModifierTime then some pindex.nStakeModifier
    else
      match pindex.pnext.bind t.find with
      | none => none
      | some next => kernelLoop t nTimeUntil fuel next (if next.fStakeModifier then next.nTime else nStakeModifierTime)

/-- `GetKernelStakeModifier`. The walk visits a block at most once. -/
def getKernelStakeModifier (t : BlockTree) (hashBlockFrom : Uint256) : Except Reject Nat :=
  match t.find hashBlockFrom with
  | none => throw (error "GetKernelStakeModifier() : block not indexed")
  | some pindexFrom =>
    match kernelLoop t (pindexFrom.nTime + getStakeModifierSelectionInterval) (t.index.keys.length + 1) pindexFrom
        pindexFrom.nTime with
    | none => throw (error "GetKernelStakeModifier() : reached best block")
    | some nStakeModifier => pure nStakeModifier

/-! ## The kernel hash -/

/-- `GetWeight`. -/
def getWeight (nIntervalBeginning nIntervalEnd : Int) (fFlashStake : Bool) : Int :=
  min (nIntervalEnd - nIntervalBeginning - nStakeMinAge) (if fFlashStake then nFlashStakeMaxAge else nStakeMaxAge)

/-- When FlashPOS 2.0 began. -/
def btFlash2 (P : Params) : Nat := if P.fTestNet then 1534208400 else 1538265600

/-- The least coins to stake with in the flash hours. -/
def minFlash2 : Int := 100000

/-- What a coinstake proves. -/
structure StakeProof where
  hashProofOfStake : Uint256
  targetProofOfStake : Uint256
  deriving DecidableEq, Repr

/-- The weight of a coin in coin-days: whole coins by the time they lay. -/
def coinDayWeight (nValueIn : Int) (nTimePrev nTimeTx : Nat) (fFlashStake : Bool) : Int :=
  (nValueIn.tdiv COIN * getWeight nTimePrev nTimeTx fFlashStake).tdiv (24 * 60 * 60)

/-- The bytes the kernel hash is taken of. -/
def kernelBytes (nStakeModifier nTimeBlockFrom nTxPrevOffset nTimePrev n nTimeTx : Nat) : List UInt8 :=
  CScript.leBytes 8 nStakeModifier ++ CScript.leBytes 4 nTimeBlockFrom ++ CScript.leBytes 4 nTxPrevOffset
    ++ CScript.leBytes 4 nTimePrev ++ CScript.leBytes 4 n ++ CScript.leBytes 4 nTimeTx

/-- `CheckStakeKernelHash`. `fDisablePOW` is `pindexBest->nTime > nTimeV231`. -/
def checkStakeKernelHash (P : Params) (t : BlockTree) (fDisablePOW : Bool) (nBits : Nat) (blockFrom : CBlock)
    (nTxPrevOffset : Nat) (txPrev : CTransaction) (prevout : COutPoint) (nTimeTx : Nat) : Except Reject StakeProof := do
  rejectIf (nTimeTx < txPrev.nTime) (error "CheckStakeKernelHash() : nTime violation")
  rejectIf (nTimeTx < (blockFrom.nTime + nStakeMinAge) % 2 ^ 32) (error "CheckStakeKernelHash() : min age violation")
  let nValueIn := ((txPrev.vout[prevout.n]?).map CTxOut.nValue).getD 0
  let fFlashStake := isFlashStake nTimeTx
  rejectIf (fFlashStake ∧ btFlash2 P < nTimeTx ∧ nValueIn.tdiv COIN < minFlash2) failed
  let bnTarget := coinDayWeight nValueIn txPrev.nTime nTimeTx (fFlashStake && fDisablePOW) * CBigNum.setCompact nBits
  let nStakeModifier ← getKernelStakeModifier t (blockFrom.getHash P)
  let hashProofOfStake :=
    P.hashBytes (kernelBytes nStakeModifier blockFrom.nTime nTxPrevOffset txPrev.nTime prevout.n nTimeTx)
  rejectIf (bnTarget < hashProofOfStake) failed
  pure ⟨hashProofOfStake, CBigNum.getuint256 bnTarget⟩

/-- `CheckProofOfStake`. -/
def checkProofOfStake (P : Params) (env : Env) (s : Node) (tx : CTransaction) (nBits : Nat) : Except Reject StakeProof := do
  rejectIf (¬ tx.isCoinStake) (error "CheckProofOfStake() : called on non-coinstake")
  match tx.vin.head? with
  | none => throw (error "CheckProofOfStake() : called on non-coinstake")
  | some txin =>
    match s.readPrevout env txin.prevout with
    | none => throw (DoS 1 "CheckProofOfStake() : INFO: read txPrev failed")
    | some (txPrev, txindex) =>
      rejectIf (¬ P.verifySignature txPrev tx 0) (DoS 100 "CheckProofOfStake() : VerifySignature failed on coinstake")
      match txindex.pos with
      | none => throw failed
      | some pos =>
        match s.readBlock env pos.nFile pos.nBlockPos with
        | none => throw failed
        | some block =>
          match checkStakeKernelHash P s.mapBlockIndex s.fDisablePOW nBits block (pos.nTxPos - pos.nBlockPos) txPrev
              txin.prevout tx.nTime with
          | .error _ => throw (DoS 1 "CheckProofOfStake() : INFO: check kernel failed on coinstake")
          | .ok proof => pure proof

end Pinkcoin
