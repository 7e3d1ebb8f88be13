/-
The trust of a block and of a chain. From version 2.2.1.0 on the trust of a
block depends on more than the block: on whether the node takes it to be
late, and on a base stake trust that the node keeps from one block to the
next. A list of records stands for a pointer and what it reaches along
`pprev`; a step through a null pointer gives `none`.
-/
import Pinkcoin.Node

namespace Pinkcoin

/-- The base stake trust the node keeps, and the height it was taken at. -/
structure StakeTrust where
  nBaseStakeTrust : CBigNum
  nBaseStakeTrustHeight : Nat
  deriving DecidableEq, Repr

/-- The test of `GetModTrust` for a late block: more than ten minutes older
than the best block (in unsigned arithmetic), and built on a block lower
than the best block's predecessor. `best` is the branch of `pindexBest`,
`base` that of the block's predecessor. -/
def isLateBlock (best base : List CBlockIndex) (nBlockTime : Nat) (isNew : Bool) : Option Bool :=
  if isNew then
    match best with
    | [] => some false
    | pindexBest :: bestPrev => do
      let pindexBase ← base.head?
      let pindexBestPrev ← bestPrev.head?
      some (decide (pindexBase.nHeight < pindexBestPrev.nHeight ∧
        nBlockTime < (pindexBest.nTime + 2 ^ 32 - 600) % 2 ^ 32))
  else some false

/-- The smallest `nBits` of a window, 0 for none. -/
def bestBits (window : List CBlockIndex) : Nat :=
  window.foldl (fun nBestBits b => if b.nBits < nBestBits ∨ nBestBits = 0 then b.nBits else nBestBits) 0

/-- A new base stake trust: from `base` back to a height that is a multiple
of 1024, then another 1024 blocks back, and the most difficult block of the
1024 from there. -/
def newStakeTrust (base : List CBlockIndex) : Option StakeTrust :=
  match base.dropWhile (fun b => decide (b.nHeight % 1024 ≠ 0)) with
  | [] => none
  | pindexBase :: rest =>
    if (pindexBase :: rest).length < 2048 then none
    else some ⟨CBigNum.setCompact (bestBits (((pindexBase :: rest).drop 1024).take 1024)), pindexBase.nHeight⟩

/-- The stake trust `GetModTrust` uses and leaves for the next block. -/
def nextStakeTrust (kept : StakeTrust) (base : List CBlockIndex) : Option StakeTrust := do
  if kept.nBaseStakeTrust = 0 then newStakeTrust base
  else
    let pindexBase ← base.head?
    if kept.nBaseStakeTrustHeight + 1024 < pindexBase.nHeight then newStakeTrust base else some kept

/-- `uint256` addition. -/
def addTrust (a b : Uint256) : Uint256 := (a + b) % 2 ^ 256

/-- The trust of a block by its own data, and by what `GetModTrust` adds:
whether it is late, and the stake trust (0 for proof-of-work). -/
def trustOf (nTime nBits : Nat) (fLate : Bool) (bnStakeTrust : CBigNum) : Uint256 :=
  let bnTarget := CBigNum.setCompact nBits
  if bnTarget ≤ 0 then 0
  else if nTimeV221 < nTime then
    let bnTargetTest := if fLate then bnTarget * 10 else bnTarget
    let nTrustRet := CBigNum.getuint256 (((2 : Int) ^ 256).tdiv (bnTargetTest + 1))
    if bnStakeTrust ≠ 0 then addTrust nTrustRet (CBigNum.getuint256 (((2 : Int) ^ 256).tdiv bnStakeTrust)) else nTrustRet
  else CBigNum.getuint256 (((2 : Int) ^ 256).tdiv (bnTarget + 1))

/-- `GetBlockTrust(isNew)` with the part of `GetModTrust`: the trust, and the
stake trust that is kept. -/
def getBlockTrust (best base : List CBlockIndex) (kept : StakeTrust) (pindex : CBlockIndex) (isNew : Bool) :
    Option (Uint256 × StakeTrust) :=
  if CBigNum.setCompact pindex.nBits ≤ 0 ∨ ¬ nTimeV221 < pindex.nTime then
    some (trustOf pindex.nTime pindex.nBits false 0, kept)
  else do
    let fLate ← isLateBlock best base pindex.nTime isNew
    if pindex.fProofOfStake then
      let kept ← nextStakeTrust kept base
      some (trustOf pindex.nTime pindex.nBits fLate kept.nBaseStakeTrust, kept)
    else some (trustOf pindex.nTime pindex.nBits fLate 0, kept)

end Pinkcoin
