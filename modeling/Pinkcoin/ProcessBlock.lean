/-
Taking blocks as they come (`ProcessBlock`): a block whose predecessor is not
known is kept, and when the predecessor comes, the blocks that wait for it,
for these, and so on, are accepted.
-/
import Mathlib.Data.Finset.Insert
import Mathlib.Data.Finset.Erase
import Pinkcoin.AcceptBlock
import Pinkcoin.Retarget.Flood

namespace Pinkcoin

open StateError (rejectIf lift attempt withError onlyIf)

/-- `GetProofOfStake`. -/
def CBlock.getProofOfStake (block : CBlock) : COutPoint × Nat :=
  if block.isProofOfStake then
    (((block.vtx[1]?.bind fun tx => tx.vin.head?).map CTxIn.prevout).getD COutPoint.null,
      ((block.vtx[1]?).map CTransaction.nTime).getD 0)
  else (COutPoint.null, 0)

/-! ## The blocks that are kept -/

/-- The blocks kept until their predecessors come, by their hashes and by those
of their predecessors (a multimap, in its order), and their proofs of stake. -/
structure OrphanBlocks where
  mapOrphanBlocks : Map Uint256 CBlock
  mapOrphanBlocksByPrev : List (Uint256 × CBlock)
  setStakeSeenOrphan : Finset (COutPoint × Nat)

namespace OrphanBlocks

def empty : OrphanBlocks := ⟨∅, [], ∅⟩

variable (P : Params) (o : OrphanBlocks)

/-- `mapOrphanBlocksByPrev.count(hash)`. -/
def Waited (hash : Uint256) : Prop := ∃ entry ∈ o.mapOrphanBlocksByPrev, entry.1 = hash

instance (hash : Uint256) : Decidable (o.Waited hash) :=
  inferInstanceAs (Decidable (∃ entry ∈ o.mapOrphanBlocksByPrev, entry.1 = hash))

/-- The blocks from `lower_bound(hashPrev)` to `upper_bound(hashPrev)`. -/
def waiting (hashPrev : Uint256) : List CBlock :=
  (o.mapOrphanBlocksByPrev.filter fun entry => entry.1 = hashPrev).map Prod.snd

/-- A block is kept. -/
def add (block : CBlock) : OrphanBlocks where
  mapOrphanBlocks := o.mapOrphanBlocks.insert (block.getHash P) block
  mapOrphanBlocksByPrev := o.mapOrphanBlocksByPrev ++ [(block.hashPrevBlock, block)]
  setStakeSeenOrphan :=
    if block.isProofOfStake then insert block.getProofOfStake o.setStakeSeenOrphan else o.setStakeSeenOrphan

/-- `mapOrphanBlocks.erase(…)` and `setStakeSeenOrphan.erase(…)` of a block. -/
def drop (block : CBlock) : OrphanBlocks :=
  { o with
    mapOrphanBlocks := o.mapOrphanBlocks.erase (block.getHash P)
    setStakeSeenOrphan := o.setStakeSeenOrphan.erase block.getProofOfStake }

/-- `mapOrphanBlocksByPrev.erase(hashPrev)`. -/
def forget (hashPrev : Uint256) : OrphanBlocks :=
  { o with mapOrphanBlocksByPrev := o.mapOrphanBlocksByPrev.filter fun entry => entry.1 ≠ hashPrev }

/-- `WantedByOrphan`: back to the first block of the kept ones. Hashes that go
round in a circle would keep it going. -/
def wantedByOrphan : Nat → CBlock → Option Uint256
  | 0, _ => none
  | fuel + 1, pblockOrphan =>
    match o.mapOrphanBlocks.lookup pblockOrphan.hashPrevBlock with
    | none => some pblockOrphan.hashPrevBlock
    | some block => wantedByOrphan fuel block

end OrphanBlocks

/-- A node with the blocks it keeps. -/
structure Receiver where
  node : Node
  orphans : OrphanBlocks

/-- A function of the node and what it keeps. -/
abbrev ReceiverM := EStateM Reject Receiver

/-- A function of the node alone. -/
def onNode {α : Type} (x : NodeM α) : ReceiverM α := fun r =>
  match x r.node with
  | .ok a s => .ok a { r with node := s }
  | .error e s => .error e { r with node := s }

/-- `WantedByPendingSyncCheckpoint`. -/
def Receiver.wantedByPendingSyncCheckpoint (r : Receiver) (hashBlock : Uint256) : Except Reject Bool :=
  if r.node.hashPendingCheckpoint = 0 then pure false
  else if hashBlock = r.node.hashPendingCheckpoint then pure true
  else
    match r.orphans.mapOrphanBlocks.lookup r.node.hashPendingCheckpoint with
    | none => pure false
    | some block =>
      match r.orphans.wantedByOrphan (r.orphans.mapOrphanBlocks.entries.length + 1) block with
      | none => throw (error "WantedByOrphan() : a circle of hashes")
      | some hash => pure (decide (hashBlock = hash))

/-! ## The checks -/

namespace CBlock

variable (P : Params) (env : Env) (r : Receiver) (block : CBlock)

/-- "Extra checks to prevent fill up memory by spamming with bogus blocks". -/
def floodChecks : Except Reject Unit :=
  match r.node.mapBlockIndex.find r.node.hashSyncCheckpoint with
  | none => pure ()
  | some _ =>
    onlyIf (block.hashPrevBlock ≠ r.node.hashBestChain) do
      let wanted ← r.wantedByPendingSyncCheckpoint (block.getHash P)
      onlyIf (wanted = false)
        (match floodBound P (r.node.mapBlockIndex.branch r.node.hashSyncCheckpoint) (decide block.isProofOfStake) block.nTime with
        | none => throw nullPointer
        | some bnRequired =>
          rejectIf (CBigNum.setCompact bnRequired < CBigNum.setCompact block.nBits)
            (error (if block.isProofOfStake then "ProcessBlock() : block with too little proof-of-stake"
              else "ProcessBlock() : block with too little proof-of-work")))

/-- What `ProcessBlock` refuses any block for. -/
def processChecks : Except Reject Unit := do
  let hash := block.getHash P
  rejectIf (r.node.mapBlockIndex.Has hash) (error "ProcessBlock() : already have block")
  rejectIf (r.orphans.mapOrphanBlocks.lookup hash ≠ none) (error "ProcessBlock() : already have block (orphan)")
  rejectIf (r.node.fDisablePOW ∧ block.isProofOfWork)
    (error "ProcessBlock() : Received POW Block. Proof-of-work was disabled on Friday August 9, 2019 12:00:00 AM UTC. \n")
  onlyIf (block.isProofOfStake ∧ block.getProofOfStake ∈ r.node.setStakeSeen ∧ ¬ r.orphans.Waited hash) do
    let wanted ← r.wantedByPendingSyncCheckpoint hash
    rejectIf (wanted = false) (error "ProcessBlock() : duplicate proof-of-stake")
  (block.checkBlock P env true true true).mapError fun _ => error "ProcessBlock() : CheckBlock FAILED"
  block.floodChecks P r

/-- What it refuses to keep a block for. A proof of stake may be there twice
only when a kept block waits for this one. -/
def orphanChecks : Except Reject Unit :=
  onlyIf (block.isProofOfStake ∧ block.getProofOfStake ∈ r.orphans.setStakeSeenOrphan ∧
      ¬ r.orphans.Waited (block.getHash P)) do
    let wanted ← r.wantedByPendingSyncCheckpoint (block.getHash P)
    rejectIf (wanted = false) (error "ProcessBlock() : duplicate proof-of-stake for orphan block")

/-- The loop over the blocks the new one would replace, from the best one down.
The result is the record it stops at. -/
def lateLoop (nHeight : Nat) (nNow : Int) : List CBlockIndex → Except Reject CBlockIndex
  | [] => throw nullPointer
  | pindexBestCheck :: rest =>
    if nHeight < pindexBestCheck.nHeight + 1 then
      match rest with
      | pindexCPrev :: pindexCPrevPrev :: _ =>
        if (pindexBestCheck.nTime : Int) < nNow - 120 ∧
            ((pindexCPrev.nTime + 30) % 2 ^ 32 < pindexBestCheck.nTime ∨
              (pindexCPrevPrev.nTime + 60) % 2 ^ 32 < pindexBestCheck.nTime) then
          throw (DoS 100
            "AcceptBlock() : Too Late to commit block. We already have acceptable blocks for this height. (bestcheck) \n")
        else lateLoop nHeight nNow rest
      | _ => throw nullPointer -- `pprev->pprev->nTime` of a block next to the first one
    else pure pindexBestCheck

/-- The best block is past the time that `nSpacing` for each block since
`pindexBestCheck` gives it. -/
def Spaced (pindexBest pindexBestCheck : CBlockIndex) (nSpacing : Nat) : Prop :=
  (pindexBestCheck.nTime : Int) <
    (pindexBest.nTime - (pindexBest.nHeight - pindexBestCheck.nHeight) * nSpacing : Int) % 2 ^ 32

instance (pindexBest pindexBestCheck : CBlockIndex) (nSpacing : Nat) : Decidable (Spaced pindexBest pindexBestCheck nSpacing) :=
  inferInstanceAs (Decidable (_ < _))

/-- What it refuses a block for that would replace blocks of the best chain. -/
def lateChecks : Except Reject Unit :=
  match r.node.best, r.node.mapBlockIndex.find block.hashPrevBlock with
  | none, _ => throw nullPointer
  | _, none => throw (DoS 10 "ProcessBlock() : prev block not found")
  | some pindexBest, some pindexPrev =>
    let nHeight := pindexPrev.nHeight + 1
    onlyIf (pindexBest.nTime < nTimeV221 ∧ nHeight ≤ pindexBest.nHeight) do
      let wanted ← r.wantedByPendingSyncCheckpoint (block.getHash P)
      onlyIf (wanted = false) do
        let pindexBestCheck ←
          lateLoop nHeight env.adjustedTime (r.node.pindexBest.elim [] r.node.mapBlockIndex.branch)
        rejectIf ((pindexBest.nTime : Int) < env.adjustedTime - 120 ∧
            ((isFlashStake pindexBest.nTime ∧ Spaced pindexBest pindexBestCheck 30) ∨ Spaced pindexBest pindexBestCheck 60))
          (DoS 100
            "AcceptBlock() : Too Late to commit block. We already have acceptable blocks for this height. (overall)\n")

end CBlock

/-! ## The work queue -/

section

variable (P : Params) (env : Uint256 → Env)

/-- `AcceptBlock` of a kept block, which is kept no longer. -/
def takeOrphan (orphan : CBlock) (r : Receiver) : Receiver × Bool :=
  match orphan.acceptBlock P (env (orphan.getHash P)) r.node with
  | .ok _ s => (⟨s, r.orphans.drop P orphan⟩, true)
  | .error _ s => (⟨s, r.orphans.drop P orphan⟩, false)

/-- The loop over the blocks that wait for one block. The result are the hashes
that are pushed to `vWorkQueue`. -/
def takeOrphans : List CBlock → Receiver → Receiver × List Uint256
  | [], r => (r, [])
  | orphan :: rest, r =>
    let taken := takeOrphan P env orphan r
    let later := takeOrphans rest taken.1
    (later.1, if taken.2 then orphan.getHash P :: later.2 else later.2)

/-- The loop over `vWorkQueue`. -/
def workLoop : Nat → List Uint256 → Receiver → Receiver
  | 0, _, r => r
  | _, [], r => r
  | fuel + 1, hashPrev :: vWorkQueue, r =>
    let taken := takeOrphans P env (r.orphans.waiting hashPrev) r
    workLoop fuel (vWorkQueue ++ taken.2) { taken.1 with orphans := taken.1.orphans.forget hashPrev }

/-- The blocks that depend on an accepted one. Every hash of the queue but the
first is of a block that was kept, so the loop ends within this many turns. -/
def acceptWaiting (hash : Uint256) (r : Receiver) : Receiver :=
  workLoop P env (r.orphans.mapOrphanBlocksByPrev.length + 1) [hash] r

/-! ## ProcessBlock -/

def nCheckpointSpan : Nat := 10

/-- The loop of `AutoSelectSyncCheckpoint`, down from the best block. -/
def selectCheckpoint (pindexBest : CBlockIndex) : List CBlockIndex → Option CBlockIndex
  | [] => none
  | [pindex] => some pindex
  | pindex :: rest =>
    if pindexBest.nTime < pindex.nTime + nCheckpointSpan * nTargetSpacing ∨
        pindexBest.nHeight < pindex.nHeight + nCheckpointSpan then selectCheckpoint pindexBest rest
    else some pindex

/-- `SendSyncCheckpoint(AutoSelectSyncCheckpoint())`, as far as the node itself
goes. -/
def sendSyncCheckpoint (env : Env) (fSigned : Bool) : NodeM Unit := do
  let s ← get
  match s.best.bind fun best => selectCheckpoint best (s.pindexBest.elim [] s.mapBlockIndex.branch) with
  | none => throw nullPointer
  | some pindex => processSyncCheckpoint P env fSigned pindex.phashBlock

/-- `ProcessBlock`. `env` is what each `AcceptBlock` meets, by the hash of the
block; `send` is there where the node has the master key of the checkpoints. -/
def CBlock.processBlock (send : Option (Env × Bool)) (block : CBlock) : ReceiverM Unit := do
  let hash := block.getHash P
  let r ← get
  lift (block.processChecks P (env hash) r)
  if ¬ r.node.mapBlockIndex.Has block.hashPrevBlock then
    lift (block.orphanChecks P r)
    modify fun r => { r with orphans := r.orphans.add P block }
  else
    lift (block.lateChecks P (env hash) r)
    withError (error "ProcessBlock() : AcceptBlock FAILED") (onNode (block.acceptBlock P (env hash)))
    modify (acceptWaiting P env hash)
    match send with
    | none => pure ()
    | some (envSend, fSigned) =>
      let _ ← attempt (onNode (sendSyncCheckpoint P envSend fSigned))
      pure ()

end

end Pinkcoin
