/-
Block rewards and the difficulty of the next block. The target functions
walk back along `pprev`; they are given the branch of the block they start
from, so that "the pointer is null" is "the list is empty". A walk that the
source would take through a null pointer gives `none`.
-/
import Pinkcoin.Params
import Pinkcoin.Lib.StateError

namespace Pinkcoin

open StateError (rejectIf)

/-! ## Rewards -/

/-- Miner's coin base reward. -/
def getProofOfWorkReward (nHeight : Nat) (nFees : Int) : Int :=
  let nSubsidy : Int := if nHeight = 1 then 364800000 * COIN else 0
  let nSubsidy :=
    if 17000 ≤ nHeight then 50 * COIN / 2 ^ (nHeight / nHalvingPoint / YEARLY_BLOCKCOUNT) else nSubsidy
  nSubsidy + nFees

/-- Miner's coin stake reward. `fDisablePOW` is `pindexBest->nTime > nTimeV231`;
the coin age is not used. -/
def getProofOfStakeReward (fDisablePOW : Bool) (_nCoinAge : Nat) (nFees : Int) (nHeight nTime : Nat) : Int :=
  let nHalving := nHeight / nHalvingPoint / YEARLY_BLOCKCOUNT
  let nSubsidy : Int :=
    if 16240 ≤ nHeight then
      let nSubsidy :=
        if isFlashStake nTime then 150 * COIN / 2 ^ nHalving
        else
          let nSubsidy := 100 * COIN / 2 ^ nHalving
          if fDisablePOW then nSubsidy / 3 else nSubsidy
      if fDisablePOW then nSubsidy * (16 / 10) else nSubsidy
    else 0
  nSubsidy + nFees

/-! ## Walking back to blocks of one kind -/

/-- `while (pindex && pindex->pprev && skip(pindex)) pindex = pindex->pprev;` -/
def skipBack (skip : CBlockIndex → Bool) : List CBlockIndex → List CBlockIndex
  | b :: prev :: rest => if skip b then skipBack skip (prev :: rest) else b :: prev :: rest
  | branch => branch

def getLastBlockIndex (fProofOfStake : Bool) (branch : List CBlockIndex) : List CBlockIndex :=
  skipBack (fun b => b.fProofOfStake != fProofOfStake) branch

def CBlockIndex.isFPOS (b : CBlockIndex) (nFlash : Bool) : Bool :=
  if b.fProofOfStake then nFlash == isFlashStake b.nTime else false

def getLastBlockIndex2 (fFlashStake : Bool) (branch : List CBlockIndex) : Option (List CBlockIndex) :=
  match branch with
  | [] => none
  | pindex :: _ =>
    if 771000 ≤ pindex.nHeight then some (skipBack (fun b => !b.isFPOS fFlashStake) branch)
    else
      some (skipBack (fun b => !b.fProofOfStake) (skipBack (fun b => isFlashStake b.nTime != fFlashStake) branch))

/-! ## The target of the next block -/

/-- The last part of both target functions: one step of the exponential
moving average, from the target `nBits` of the block before. -/
def retarget (bnTargetLimit : CBigNum) (nBits : Nat) (nTimespan nTS nActualSpacing : Int) : Nat :=
  let nInterval := nTimespan / nTS
  let bnNew : CBigNum := CBigNum.setCompact nBits
  let bnNew := bnNew * ((nInterval - 1) * nTS + nActualSpacing + nActualSpacing)
  let bnNew := bnNew.tdiv ((nInterval + 1) * nTS)
  CBigNum.getCompact (if bnNew ≤ 0 ∨ bnTargetLimit < bnNew then bnTargetLimit else bnNew)

section Target

variable (P : Params) (fDisablePOW : Bool)

/-- The spacing of proof-of-stake blocks outside the flash hours. -/
def stakeSpacing : Int := if fDisablePOW then nTargetSpacing else nTargetSpacing_Staking

def getNextTargetRequiredV1 (branch : List CBlockIndex) (fProofOfStake : Bool) (nBlockTime : Nat) : Option Nat :=
  let bnStakeTarget := if isFlashStake nBlockTime then bnProofOfFlashStakeLimit else bnProofOfStakeLimit
  let bnTargetLimit := if fProofOfStake then bnStakeTarget else P.bnProofOfWorkLimit
  match getLastBlockIndex fProofOfStake branch with
  | [] => some bnTargetLimit.getCompact
  | [_] => some bnTargetLimit.getCompact
  | pindexPrev :: prev :: rest =>
    match getLastBlockIndex fProofOfStake (prev :: rest) with
    | [] => none
    | [_] => some bnTargetLimit.getCompact
    | pindexPrevPrev :: _ =>
      let fFlashStake := fProofOfStake && isFlashStake nBlockTime
      let fFlashFlip := fProofOfStake && (isFlashStake nBlockTime != isFlashStake pindexPrev.nTime)
      let nTS : Int :=
        if fProofOfStake then
          if isFlashStake nBlockTime then nTargetSpacing_FlashStaking else stakeSpacing fDisablePOW
        else nTargetSpacing
      let flip := if fFlashFlip then getLastBlockIndex2 fFlashStake (pindexPrev :: prev :: rest) else some []
      match flip with
      | none => none
      | some flipBranch =>
        -- a block that switches between flash and ordinary staking takes no spacing into account
        let nBits := match flipBranch with
          | [] => pindexPrev.nBits
          | pPrev :: _ => pPrev.nBits
        let nActualSpacing : Int := if fFlashFlip then 0 else pindexPrev.nTime - pindexPrevPrev.nTime
        let nActualSpacing := if pindexPrev.nHeight < 315065 ∧ nActualSpacing < 0 then nTS else nActualSpacing
        let nTimespan :=
          if fFlashStake then nFlashStakeTargetTimespan
          else if fProofOfStake then nStakeTargetTimespan else nTargetTimespan
        some (retarget bnTargetLimit nBits nTimespan nTS nActualSpacing)

def getNextTargetRequiredV2 (branch : List CBlockIndex) (fProofOfStake : Bool) (nBlockTime : Nat) : Option Nat := do
  let prevBranch := getLastBlockIndex fProofOfStake branch
  if fProofOfStake then
    let fFlashStake := isFlashStake nBlockTime
    let sameAlgo ← getLastBlockIndex2 fFlashStake prevBranch
    let pPrevSameAlgo ← sameAlgo.head?
    let prevSameAlgo ← getLastBlockIndex2 fFlashStake sameAlgo.tail
    let pPrevPrevSameAlgo ← prevSameAlgo.head?
    let nActualSpacing : Int := (pPrevSameAlgo.nTime - pPrevPrevSameAlgo.nTime : Int).tmod 3600
    if fFlashStake then
      some (retarget bnProofOfFlashStakeLimit pPrevSameAlgo.nBits nFlashStakeTargetTimespan
        nTargetSpacing_FlashStaking nActualSpacing)
    else
      some (retarget bnProofOfStakeLimit pPrevSameAlgo.nBits nStakeTargetTimespan (stakeSpacing fDisablePOW)
        nActualSpacing)
  else
    let pindexPrev ← prevBranch.head?
    let pindexPrevPrev ← (getLastBlockIndex false prevBranch.tail).head?
    some (retarget P.bnProofOfWorkLimit pindexPrev.nBits nTargetTimespan nTargetSpacing
      (pindexPrev.nTime - pindexPrevPrev.nTime))

def getNextTargetRequired (branch : List CBlockIndex) (fProofOfStake : Bool) (nBlockTime : Nat) : Option Nat :=
  match branch with
  | [] => none
  | pindexLast :: _ =>
    if pindexLast.nHeight < 817990 then getNextTargetRequiredV1 P fDisablePOW branch fProofOfStake nBlockTime
    else getNextTargetRequiredV2 P fDisablePOW branch fProofOfStake nBlockTime

end Target

/-- `CheckProofOfWork`. -/
def checkProofOfWork (P : Params) (hash : Uint256) (nBits : Nat) : Except Reject Unit := do
  let bnTarget := CBigNum.setCompact nBits
  rejectIf (bnTarget ≤ 0 ∨ P.bnProofOfWorkLimit < bnTarget) (error "CheckProofOfWork() : nBits below minimum work")
  rejectIf (bnTarget.getuint256 < hash) (error "CheckProofOfWork() : hash doesn't match nBits")

end Pinkcoin
