/-
Taking a block in: its record in the block index (`AddToBlockIndex`), the
checks that depend on the blocks before it (`AcceptBlock`), and the genesis
block a new node starts with (`LoadBlockIndex`).
-/
import Pinkcoin.Kernel
import Pinkcoin.Trust
import Pinkcoin.Checkpoints

namespace Pinkcoin

open StateError (rejectIf lift attempt withError)

/-! ## The record of a block -/

/-- `CBlockIndex(nFile, nBlockPos, block)`. -/
def CBlockIndex.ofBlock (nFile nBlockPos : Nat) (block : CBlock) : CBlockIndex where
  phashBlock := 0
  pprev := none
  pnext := none
  nFile := nFile
  nBlockPos := nBlockPos
  nChainTrust := 0
  nHeight := 0
  nMint := 0
  nMoneySupply := 0
  fProofOfStake := decide block.isProofOfStake
  fStakeEntropy := false
  fStakeModifier := false
  nStakeModifier := 0
  prevoutStake :=
    if block.isProofOfStake then
      ((block.vtx[1]?.bind fun tx => tx.vin.head?).map CTxIn.prevout).getD COutPoint.null
    else COutPoint.null
  nStakeTime := if block.isProofOfStake then ((block.vtx[1]?).map CTransaction.nTime).getD 0 else 0
  hashProof := 0
  nVersion := block.nVersion
  hashMerkleRoot := block.hashMerkleRoot
  nTime := block.nTime
  nBits := block.nBits
  nNonce := block.nNonce

/-- The stake trust the node keeps between blocks. -/
def Node.stakeTrust (s : Node) : StakeTrust := ⟨s.nBaseStakeTrust, s.nBaseStakeTrustHeight⟩

namespace CBlock

/-- The record of a new block with its place in the tree and its chain
trust, and the stake trust that is kept. A step through a null pointer gives
`none`. -/
def trustedIndex (P : Params) (s : Node) (nFile nBlockPos : Nat) (block : CBlock) : Option (CBlockIndex × StakeTrust) := do
  let pindexNew := s.mapBlockIndex.link (block.getHash P) block.hashPrevBlock (CBlockIndex.ofBlock nFile nBlockPos block)
  let base := pindexNew.pprev.elim [] s.mapBlockIndex.branch
  let (nBlockTrust, kept) ←
    getBlockTrust (s.pindexBest.elim [] s.mapBlockIndex.branch) base s.stakeTrust pindexNew true
  some ({ pindexNew with nChainTrust := addTrust ((base.head?.map CBlockIndex.nChainTrust).getD 0) nBlockTrust }, kept)

/-- `AddToBlockIndex`, as far as the record and its database entry. -/
def insertBlockIndex (P : Params) (env : Env) (nFile nBlockPos : Nat) (hashProof : Uint256) (block : CBlock) :
    NodeM Unit := do
  let s ← get
  let hash := block.getHash P
  rejectIf (s.mapBlockIndex.Has hash) (error "AddToBlockIndex() : already exists")
  match block.trustedIndex P s nFile nBlockPos with
  | none => throw nullPointer
  | some (pindexNew, kept) =>
    modify fun s => { s with
      nBaseStakeTrust := kept.nBaseStakeTrust, nBaseStakeTrustHeight := kept.nBaseStakeTrustHeight }
    let (nStakeModifier, fGeneratedStakeModifier) ←
      withError (error "AddToBlockIndex() : ComputeNextStakeModifier() failed")
        (lift (computeNextStakeModifier P (pindexNew.pprev.elim [] s.mapBlockIndex.branch)))
    let pindexNew := { pindexNew with
      fStakeEntropy := block.getStakeEntropyBit P
      hashProof := hashProof
      nStakeModifier := nStakeModifier
      fStakeModifier := fGeneratedStakeModifier }
    modify fun s => { s with
      mapBlockIndex := s.mapBlockIndex.add hash block.hashPrevBlock pindexNew
      setStakeSeen :=
        if pindexNew.fProofOfStake then (pindexNew.prevoutStake, pindexNew.nStakeTime) :: s.setStakeSeen
        else s.setStakeSeen
      txdb := s.txdb.txnBegin.writeBlockIndex P (CDiskBlockIndex.ofIndex pindexNew) }
    txnCommit env failed

/-- `AddToBlockIndex`: a block with more trust than the best chain becomes
the best block. -/
def addToBlockIndex (P : Params) (env : Env) (nFile nBlockPos : Nat) (hashProof : Uint256) (block : CBlock) :
    NodeM Unit := do
  block.insertBlockIndex P env nFile nBlockPos hashProof
  let pindexNew ← deref (block.getHash P)
  let s ← get
  if s.nBestChainTrust < pindexNew.nChainTrust then setBestChain P env block (block.getHash P)

end CBlock

/-! ## AcceptBlock -/

/-- `GetMedianTimePast` of the first record of a branch. -/
def getMedianTimePast (branch : List CBlockIndex) : Nat :=
  let pmedian := ((branch.take 11).map CBlockIndex.nTime).insertionSort (· ≤ ·)
  pmedian[pmedian.length / 2]?.getD 0

/-- `CBlock::CURRENT_VERSION`. -/
def CBlock.CURRENT_VERSION : Int := 1

namespace CBlock

/-- The proof hash of a block: of a proof-of-stake block what its coinstake
proves, else the block's own hash. -/
def proofHash (P : Params) (env : Env) (s : Node) (block : CBlock) : Except Reject Uint256 :=
  if block.isProofOfStake then
    match block.vtx[1]? with
    | none => throw failed
    | some tx =>
      match checkProofOfStake P env s tx block.nBits with
      | .error _ => throw failed -- expected during the initial download
      | .ok proof => pure proof.hashProofOfStake
  else pure (block.getHash P)

/-- What `AcceptBlock` refuses a block for, and else the proof hash of the
block. -/
def acceptBlockChecks (P : Params) (env : Env) (s : Node) (block : CBlock) : Except Reject Uint256 := do
  rejectIf (¬ P.fTestNet ∧ ((CURRENT_VERSION < block.nVersion ∧ block.nTime < 1538265600) ∨
      CURRENT_VERSION + 1 < block.nVersion))
    (DoS 100 "AcceptBlock() : reject unknown block version")
  let hash := block.getHash P
  rejectIf (s.mapBlockIndex.Has hash) (error "AcceptBlock() : block already in mapBlockIndex")
  match s.mapBlockIndex.find block.hashPrevBlock with
  | none => throw (DoS 10 "AcceptBlock() : prev block not found")
  | some pindexPrev =>
    let branch := s.mapBlockIndex.branch block.hashPrevBlock
    let nHeight := pindexPrev.nHeight + 1
    rejectIf (getNextTargetRequired P s.fDisablePOW branch (decide block.isProofOfStake) block.nTime ≠ some block.nBits)
      (DoS 100 (if block.isProofOfWork then "AcceptBlock() : incorrect proof-of-work"
        else "AcceptBlock() : incorrect proof-of-stake"))
    rejectIf (block.nTime ≤ getMedianTimePast branch ∨ futureDrift block.nTime < pindexPrev.nTime)
      (error "AcceptBlock() : block's timestamp is too early")
    rejectIf (∃ tx ∈ block.vtx, ¬ tx.isFinal nHeight block.nTime)
      (DoS 10 "AcceptBlock() : contains a non-final transaction")
    rejectIf (¬ P.checkHardened nHeight hash) (DoS 100 "AcceptBlock() : rejected by hardened checkpoint lock-in")
    let hashProof ← block.proofHash P env s
    rejectIf (P.checkpointsMode = .STRICT ∧ ¬ checkSync P s hash branch)
      (error "AcceptBlock() : rejected by synchronized checkpoint")
    rejectIf (¬ block.numberedAs nHeight) (DoS 100 "AcceptBlock() : block height mismatch in coinbase")
    rejectIf (env.diskSpace = false) (error "AcceptBlock() : out of disk space")
    rejectIf (env.appendOk = false) (error "AcceptBlock() : WriteToDisk failed")
    pure hashProof

/-- `WriteToDisk`: the position the block is appended at. -/
def writeToDisk (block : CBlock) : NodeM (Nat × Nat) := do
  let s ← get
  set { s with disk := s.disk.append block }
  pure (s.disk.nextFile, s.disk.nextPos)

/-- `AcceptBlock`. -/
def acceptBlock (P : Params) (env : Env) (block : CBlock) : NodeM Unit := do
  let s ← get
  let hashProof ← lift (block.acceptBlockChecks P env s)
  let (nFile, nBlockPos) ← block.writeToDisk
  withError (error "AcceptBlock() : AddToBlockIndex failed") (block.addToBlockIndex P env nFile nBlockPos hashProof)
  let _ ← attempt (acceptPendingSyncCheckpoint P env)
  pure ()

end CBlock

/-! ## The genesis block -/

/-- The bytes of an ASCII text. -/
def asciiBytes (text : String) : List UInt8 := text.toList.map fun c => UInt8.ofNat c.toNat

def pszTimestamp : String :=
  "A black hole is a stable energy construct that occupies greater than three dimensions of physical space."

def genesisTx : CTransaction where
  nVersion := 1
  nTime := 1486329989
  vin := [⟨COutPoint.null, CScript.pushInt64 0 ++ CScript.push [42] ++ CScript.push (asciiBytes pszTimestamp), UINT_MAX⟩]
  vout := [CTxOut.empty]
  nLockTime := 0

def genesisMerkleRoot : Uint256 := 0x96f872319c330aadbdc18543e27a305c6ab046801cfc81e20a004f3b26fad891

/-- The genesis block of the network. Its merkle root is asserted, so it is
written as a constant. -/
def genesisBlock (P : Params) : CBlock where
  nVersion := 1
  hashPrevBlock := 0
  hashMerkleRoot := genesisMerkleRoot
  nTime := 1486329989
  nBits := CBigNum.getCompact P.bnProofOfWorkLimit
  nNonce := if P.fTestNet then 23112 else 6777712
  vtx := [genesisTx]
  vchBlockSig := []

/-- The assertions about the genesis block: its merkle root, its hash, and
that it passes `CheckBlock`. -/
def checkGenesis (P : Params) (env : Env) : Except Reject Unit := do
  let block := genesisBlock P
  rejectIf (block.buildMerkleTree P ≠ genesisMerkleRoot) (error "assert(block.hashMerkleRoot == uint256(...))")
  rejectIf (block.getHash P ≠ P.hashGenesisBlock) (error "assert(block.GetHash(true) == hashGenesisBlock)")
  block.checkBlock P env true true true

/-- The part of `LoadBlockIndex` for a node with no blocks. -/
def loadGenesis (P : Params) (env : Env) : NodeM Unit := do
  let block := genesisBlock P
  lift (checkGenesis P env)
  rejectIf (env.appendOk = false) (error "LoadBlockIndex() : writing genesis block to disk failed")
  let (nFile, nBlockPos) ← block.writeToDisk
  withError (error "LoadBlockIndex() : genesis block not accepted")
    (block.addToBlockIndex P env nFile nBlockPos hashGenesisBlockMain)
  withError (error "LoadBlockIndex() : failed to init sync checkpoint") (writeSyncCheckpoint env P.hashGenesisBlock)

def strMasterPubKey : String :=
  "04b2d59b9385358bd66177316c2f1d4f9a13bff388fbae842203d21686a80f67eb82ade5a439f40d6184bff0a91873ef6191fa5c11892dc49cc5da63264f96691c"

/-- `LoadBlockIndex` of a new node: the genesis block, and the master key of
the checkpoints, with which the sync-checkpoint is reset. -/
def loadBlockIndex (P : Params) (env : Env) : NodeM Unit := do
  loadGenesis P env
  modifyTxdb fun txdb => txdb.txnBegin.writeCheckpointPubKey strMasterPubKey
  txnCommit env (error "LoadBlockIndex() : failed to commit new checkpoint master key to db")
  if ¬ P.fTestNet then
    withError (error "LoadBlockIndex() : failed to reset sync-checkpoint") (resetSyncCheckpoint P env)

/-! ## A network to compute on

The hash of a block is its nonce and the hash of a transaction its time, so
that a block's content can be chosen after its hash. -/

namespace Sample

def params (fTestNet : Bool) : Params where
  fTestNet := fTestNet
  checkpointsMode := .STRICT
  scryptBlockHash header :=
    if header.nNonce = 6777712 then hashGenesisBlockMain
    else if header.nNonce = 23112 then hashGenesisBlockTestNet else header.nNonce
  serializeHash tx := if tx.nTime = 1486329989 then genesisMerkleRoot else tx.nTime
  hashPair a b := a + b
  hashBytes _ := 0
  verifySignature _ _ _ := true
  checkBlockSignature _ := true
  isStandard _ := true
  areInputsStandard _ _ := true
  configCheckpoints := []
  isMineScript keystore script := keystore.contains script
  findStealthTransactions keystore _ := (keystore, [])
  nMinimumInputValue := 0

/-- Nothing fails. -/
def env : Env := ⟨1500000000, fun _ _ => true, fun _ => true, fun _ => true, true, true, true, true⟩

/-- The time of the first blocks after the genesis block. -/
def start : Nat := 1486330000

def coinbase (nHeight nTime : Nat) (nValue : Int) (scriptPubKey : CScript) : CTransaction :=
  ⟨1, nTime, [⟨COutPoint.null, CScript.pushInt64 nHeight ++ [0, 0], UINT_MAX⟩], [⟨nValue, scriptPubKey⟩], 0⟩

/-- A proof-of-work block at the easiest target. -/
def mine (fTestNet : Bool) (nNonce hashPrevBlock nTime : Nat) (vtx : List CTransaction) : CBlock :=
  let block : CBlock := ⟨⟨1, hashPrevBlock, 0, nTime, CBigNum.getCompact (params fTestNet).bnProofOfWorkLimit, nNonce⟩, vtx, []⟩
  { block with hashMerkleRoot := block.buildMerkleTree (params fTestNet) }

/-- The state after a call, however it ended. -/
def after (s : Node) (call : NodeM Unit) : Node := StateError.endState (call s)

/-- A new node. -/
def fresh (fTestNet : Bool) : Node := after (Node.empty []) (loadBlockIndex (params fTestNet) env)

/-- Block `n` of a chain of blocks two minutes apart. The first pays a coin
to the script `[1]`. -/
def chainBlock (n : Nat) : CBlock :=
  mine true (100 + n) (if n = 1 then hashGenesisBlockTestNet else 99 + n) (start + 120 * n)
    [coinbase n (start + 120 * n) (if n = 1 then COIN else 0) [1]]

/-- The node after eleven blocks, when the first block's coin can be spent. -/
def matured : Node :=
  (List.range 11).foldl (fun s n => after s ((chainBlock (n + 1)).acceptBlock (params true) env)) (fresh true)

/-- An ordinary spend of the first block's coin. -/
def spend : CTransaction := ⟨1, start + 1400, [⟨⟨start + 120, 0⟩, [], UINT_MAX⟩], [⟨COIN - CENT, [1]⟩], 0⟩

/-- A transaction of the shape of a coinstake that spends the output of
`spend` and pays out a thousand times as much. -/
def mintingStake : CTransaction :=
  ⟨1, start + 1401, [⟨⟨start + 1400, 0⟩, [], UINT_MAX⟩], [CTxOut.empty, ⟨1000 * COIN, [1]⟩], 0⟩

/-- A proof-of-work block with both. -/
def mintingBlock : CBlock :=
  mine true 112 111 (start + 1440) [coinbase 12 (start + 1440) 0 [1], spend, mintingStake]

end Sample

end Pinkcoin
