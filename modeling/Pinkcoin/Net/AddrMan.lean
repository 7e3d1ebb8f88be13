/-
`CAddrMan`: the tables of known addresses, and the calls that change them.
An id lies in the "new" buckets, `nRefCount` of them, or in one "tried"
bucket; `mapAddr` finds it by address and `vRandom` by a random position. A
call runs in `AddrManM`, which also hands out the random numbers and the
times the call reads, and stops at an assertion that fails. `mapInfo[n]` of
an unknown `n` would add an entry; the model stops there, as it does at an
index out of range.
-/
import Std.Data.TreeMap.Lemmas
import Std.Data.TreeSet.Lemmas
import Pinkcoin.Net.Address
import Pinkcoin.Types

namespace Pinkcoin

open CScript (leBytes)
open Std (TreeMap TreeSet)
open StateError

def ADDRMAN_TRIED_BUCKET_COUNT : Nat := 64
def ADDRMAN_TRIED_BUCKET_SIZE : Nat := 64
def ADDRMAN_NEW_BUCKET_COUNT : Nat := 256
def ADDRMAN_NEW_BUCKET_SIZE : Nat := 64
def ADDRMAN_TRIED_BUCKETS_PER_GROUP : Nat := 4
def ADDRMAN_NEW_BUCKETS_PER_SOURCE_GROUP : Nat := 32
def ADDRMAN_NEW_BUCKETS_PER_ADDRESS : Int := 4
def ADDRMAN_TRIED_ENTRIES_INSPECT_ON_EVICT : Nat := 4
def ADDRMAN_HORIZON_DAYS : Int := 30
def ADDRMAN_RETRIES : Int := 3
def ADDRMAN_MAX_FAILURES : Int := 10
def ADDRMAN_MIN_FAIL_DAYS : Int := 7
def ADDRMAN_GETADDR_MAX_PCT : Nat := 23
def ADDRMAN_GETADDR_MAX : Nat := 2500

/-! ## Entries -/

/-- `CAddrInfo`. -/
structure CAddrInfo extends CAddress where
  source : CNetAddr
  nLastTry : Int
  nLastSuccess : Int
  nAttempts : Int
  nRefCount : Int
  fInTried : Bool
  nRandomPos : Int
  deriving DecidableEq

namespace CAddrInfo

/-- `CAddrInfo(addrIn, addrSource)`. -/
def new (addrIn : CAddress) (addrSource : CNetAddr) : CAddrInfo where
  toCAddress := addrIn
  source := addrSource
  nLastTry := 0
  nLastSuccess := 0
  nAttempts := 0
  nRefCount := 0
  fInTried := false
  nRandomPos := -1

/-- The address `mapAddr` files an entry under. -/
def netAddr (info : CAddrInfo) : CNetAddr := info.service.addr

variable (hash : List UInt8 → Uint256)

/-- `Hash(…).Get64()`. -/
def hash64 (bytes : List UInt8) : Nat := hash bytes % 2 ^ 64

/-- `GetTriedBucket`. -/
def getTriedBucket (nKey : List UInt8) (info : CAddrInfo) : Nat :=
  let hash1 := hash64 hash (serializeBytes nKey ++ serializeBytes info.service.getKey)
  let hash2 := hash64 hash (serializeBytes nKey ++ serializeBytes info.netAddr.getGroup ++
    leBytes 8 (hash1 % ADDRMAN_TRIED_BUCKETS_PER_GROUP))
  hash2 % ADDRMAN_TRIED_BUCKET_COUNT

/-- `GetNewBucket`. -/
def getNewBucket (nKey : List UInt8) (info : CAddrInfo) (src : CNetAddr) : Nat :=
  let hash1 := hash64 hash (serializeBytes nKey ++ serializeBytes info.netAddr.getGroup ++ serializeBytes src.getGroup)
  let hash2 := hash64 hash (serializeBytes nKey ++ serializeBytes src.getGroup ++
    leBytes 8 (hash1 % ADDRMAN_NEW_BUCKETS_PER_SOURCE_GROUP))
  hash2 % ADDRMAN_NEW_BUCKET_COUNT

theorem getTriedBucket_lt (nKey : List UInt8) (info : CAddrInfo) :
    getTriedBucket hash nKey info < ADDRMAN_TRIED_BUCKET_COUNT := Nat.mod_lt _ (by decide)

theorem getNewBucket_lt (nKey : List UInt8) (info : CAddrInfo) (src : CNetAddr) :
    getNewBucket hash nKey info src < ADDRMAN_NEW_BUCKET_COUNT := Nat.mod_lt _ (by decide)

/-- `IsTerrible`. -/
def isTerrible (info : CAddrInfo) (nNow : Int) : Bool :=
  let nTime : Int := info.nTime.toNat
  if info.nLastTry ≠ 0 ∧ nNow - 60 ≤ info.nLastTry then false
  else if nNow + 10 * 60 < nTime then true
  else if nTime = 0 ∨ ADDRMAN_HORIZON_DAYS * 24 * 60 * 60 < nNow - nTime then true
  else if info.nLastSuccess = 0 ∧ ADDRMAN_RETRIES ≤ info.nAttempts then true
  else decide (ADDRMAN_MIN_FAIL_DAYS * 24 * 60 * 60 < nNow - info.nLastSuccess ∧ ADDRMAN_MAX_FAILURES ≤ info.nAttempts)

end CAddrInfo

/-! ## The tables -/

structure CAddrMan where
  nKey : List UInt8
  nIdCount : Int
  mapInfo : TreeMap Int CAddrInfo
  mapAddr : Map CNetAddr Int
  vRandom : List Int
  nTried : Int
  vvTried : List (List Int)
  nNew : Int
  vvNew : List (TreeSet Int)

namespace CAddrMan

/-- `CAddrMan()`. -/
def init (nKey : List UInt8) : CAddrMan where
  nKey
  nIdCount := 0
  mapInfo := ∅
  mapAddr := ∅
  vRandom := []
  nTried := 0
  vvTried := List.replicate ADDRMAN_TRIED_BUCKET_COUNT []
  nNew := 0
  vvNew := List.replicate ADDRMAN_NEW_BUCKET_COUNT ∅

/-- Change the fields of an entry through a reference. -/
def updateInfo (m : CAddrMan) (nId : Int) (f : CAddrInfo → CAddrInfo) : CAddrMan :=
  { m with mapInfo := m.mapInfo.modify nId f }

/-- Change a "new" bucket. -/
def updateNew (m : CAddrMan) (nUBucket : Nat) (f : TreeSet Int → TreeSet Int) : CAddrMan :=
  { m with vvNew := m.vvNew.modify nUBucket f }

/-- Change a "tried" bucket. -/
def updateTried (m : CAddrMan) (nKBucket : Nat) (f : List Int → List Int) : CAddrMan :=
  { m with vvTried := m.vvTried.modify nKBucket f }

/-- `Find`: the id and the entry. -/
def find (m : CAddrMan) (addr : CNetAddr) : Option (Int × CAddrInfo) := do
  let nId ← m.mapAddr.lookup addr
  let info ← m.mapInfo[nId]?
  pure (nId, info)

end CAddrMan

/-! ## Calls -/

inductive AddrManError
  | assertion
  /-- `mapInfo[n]` of an unknown `n`. -/
  | unknown
  | outOfRange
  deriving DecidableEq

/-- The tables, and what the next calls of `GetRandInt` and of
`GetAdjustedTime` return. -/
structure AddrManState where
  man : CAddrMan
  rand : Nat → Nat
  time : Nat → Int

abbrev AddrManM := EStateM AddrManError AddrManState

namespace AddrManM

/-- `GetRandInt`. -/
def getRandInt (nMax : Nat) : AddrManM Nat := fun s =>
  .ok (if nMax = 0 then 0 else s.rand 0 % nMax) { s with rand := fun i => s.rand (i + 1) }

def getAdjustedTime : AddrManM Int := fun s => .ok (s.time 0) { s with time := fun i => s.time (i + 1) }

def man : AddrManM CAddrMan := fun s => .ok s.man s

def change (f : CAddrMan → CAddrMan) : AddrManM Unit := fun s => .ok () { s with man := f s.man }

/-- `assert(c)`. -/
def assertThat (c : Prop) [Decidable c] : AddrManM Unit := rejectIf (¬ c) AddrManError.assertion

/-- A value that has to be there. -/
def orStop {α : Type} (e : AddrManError) : Option α → AddrManM α
  | some a => pure a
  | none => throw e

/-- `mapInfo[nId]`. -/
def infoAt (nId : Int) : AddrManM CAddrInfo := do
  let m ← man
  orStop .unknown m.mapInfo[nId]?

/-- `vvNew[nUBucket]`. -/
def newAt (nUBucket : Nat) : AddrManM (TreeSet Int) := do
  let m ← man
  orStop .outOfRange m.vvNew[nUBucket]?

/-- `vvTried[nKBucket]`. -/
def triedAt (nKBucket : Nat) : AddrManM (List Int) := do
  let m ← man
  orStop .outOfRange m.vvTried[nKBucket]?

end AddrManM

open AddrManM

namespace CAddrMan

/-- `Create`. Returns the id. -/
def create (addr : CAddress) (addrSource : CNetAddr) : AddrManM Int := do
  let m ← man
  let nId := m.nIdCount
  let info := { CAddrInfo.new addr addrSource with nRandomPos := m.vRandom.length }
  change fun m =>
    { m with nIdCount := nId + 1, mapInfo := m.mapInfo.insert nId info, mapAddr := m.mapAddr.insert addr.service.addr nId,
             vRandom := m.vRandom ++ [nId] }
  pure nId

/-- `SwapRandom`. -/
def swapRandom (nRndPos1 nRndPos2 : Nat) : AddrManM Unit :=
  onlyIf (nRndPos1 ≠ nRndPos2) do
    let m ← man
    assertThat (nRndPos1 < m.vRandom.length ∧ nRndPos2 < m.vRandom.length)
    let nId1 ← orStop .outOfRange m.vRandom[nRndPos1]?
    let nId2 ← orStop .outOfRange m.vRandom[nRndPos2]?
    assertThat (nId1 ∈ m.mapInfo)
    assertThat (nId2 ∈ m.mapInfo)
    change (·.updateInfo nId1 fun info => { info with nRandomPos := nRndPos2 })
    change (·.updateInfo nId2 fun info => { info with nRandomPos := nRndPos1 })
    change fun m => { m with vRandom := (m.vRandom.set nRndPos1 nId2).set nRndPos2 nId1 }

/-- One round of the loop of `SelectTried`, on the bucket, the oldest entry
seen and its position. -/
def selectTriedStep (i : Nat) : List Int × Int × Int → AddrManM (List Int × Int × Int)
  | (vTried, nOldest, nOldestPos) => do
    let m ← man
    let r ← getRandInt (vTried.length - i)
    let nPos := r + i
    let nTemp ← orStop .outOfRange vTried[nPos]?
    let nAtI ← orStop .outOfRange vTried[i]?
    let vTried := (vTried.set nPos nAtI).set i nTemp
    assertThat (nOldest = -1 ∨ nTemp ∈ m.mapInfo)
    if nOldest = -1 then pure (vTried, nTemp, nPos)
    else do
      let info ← infoAt nTemp
      let oldest ← infoAt nOldest
      if info.nLastSuccess < oldest.nLastSuccess then pure (vTried, nTemp, nPos)
      else pure (vTried, nOldest, nOldestPos)

/-- `SelectTried`. -/
def selectTried (nKBucket : Nat) : AddrManM Int := do
  let vTried ← triedAt nKBucket
  let rounds := List.range (min ADDRMAN_TRIED_ENTRIES_INSPECT_ON_EVICT vTried.length)
  let (vTried, _, nOldestPos) ← rounds.foldlM (fun acc i => selectTriedStep i acc) (vTried, -1, -1)
  change (·.updateTried nKBucket fun _ => vTried)
  pure nOldestPos

/-- An `int` passed as `unsigned int`. -/
def unsigned (n : Int) : Nat := if 0 ≤ n then n.toNat else (n + 2 ^ 32).toNat

/-- `if (--info.nRefCount == 0) { … nNew--; }`, the deletion of an entry. -/
def dropRef (nId : Int) : AddrManM Unit := do
  change (·.updateInfo nId fun info => { info with nRefCount := info.nRefCount - 1 })
  let info ← infoAt nId
  onlyIf (info.nRefCount = 0) do
    let m ← man
    swapRandom (unsigned info.nRandomPos) (m.vRandom.length - 1)
    change fun m =>
      { m with vRandom := m.vRandom.dropLast, mapAddr := m.mapAddr.erase info.netAddr, mapInfo := m.mapInfo.erase nId,
               nNew := m.nNew - 1 }

/-- The first loop of `ShrinkNew`: the first entry that is terrible. -/
def findTerrible : List Int → AddrManM (Option Int)
  | [] => pure none
  | nId :: rest => do
    let m ← man
    assertThat (nId ∈ m.mapInfo)
    let info ← infoAt nId
    let nNow ← getAdjustedTime
    if info.isTerrible nNow then pure (some nId) else findTerrible rest

/-- One round of the second loop of `ShrinkNew`, at entry `nI`. -/
def shrinkNewStep (n : List Nat) (nOldest : Int) : Int × Nat → AddrManM Int
  | (nId, nI) =>
    if nI ∈ n then do
      let m ← man
      assertThat (nOldest = -1 ∨ nId ∈ m.mapInfo)
      if nOldest = -1 then pure nId
      else do
        let info ← infoAt nId
        let oldest ← infoAt nOldest
        if info.nTime < oldest.nTime then pure nId else pure nOldest
    else pure nOldest

/-- `ShrinkNew`. -/
def shrinkNew (nUBucket : Nat) : AddrManM Int := do
  let m ← man
  assertThat (nUBucket < m.vvNew.length)
  let vNew ← newAt nUBucket
  let terrible ← findTerrible vNew.toList
  match terrible with
  | some nId => do
    dropRef nId
    change (·.updateNew nUBucket (·.erase nId))
    pure 0
  | none => do
    let n₀ ← getRandInt vNew.size
    let n₁ ← getRandInt vNew.size
    let n₂ ← getRandInt vNew.size
    let n₃ ← getRandInt vNew.size
    let nOldest ← vNew.toList.zipIdx.foldlM (shrinkNewStep [n₀, n₁, n₂, n₃]) (-1)
    let m ← man
    assertThat (nOldest ∈ m.mapInfo)
    dropRef nOldest
    change (·.updateNew nUBucket (·.erase nOldest))
    pure 1

/-- The loop of `MakeTried`: an entry leaves all its "new" buckets. -/
def detach (m : CAddrMan) (nId : Int) : CAddrMan :=
  { m.updateInfo nId fun info => { info with nRefCount := info.nRefCount - m.vvNew.countP (nId ∈ ·) } with
    vvNew := m.vvNew.map (·.erase nId)
    nNew := m.nNew - 1 }

variable (hash : List UInt8 → Uint256)

/-- `MakeTried`. -/
def makeTried (nId : Int) (nOrigin : Nat) : AddrManM Unit := do
  let origin ← newAt nOrigin
  assertThat (nId ∈ origin)
  change (·.detach nId)
  let info ← infoAt nId
  assertThat (info.nRefCount = 0)
  let m ← man
  let nKBucket := info.getTriedBucket hash m.nKey
  let vTried ← triedAt nKBucket
  if vTried.length < ADDRMAN_TRIED_BUCKET_SIZE then
    change fun m =>
      { (m.updateTried nKBucket (· ++ [nId])).updateInfo nId fun info => { info with fInTried := true } with
        nTried := m.nTried + 1 }
  else do
    let nPos ← selectTried nKBucket
    let vTried ← triedAt nKBucket
    let nOld ← orStop .outOfRange (if 0 ≤ nPos then vTried[nPos.toNat]? else none)
    let m ← man
    assertThat (nOld ∈ m.mapInfo)
    let infoOld ← infoAt nOld
    let nUBucket := infoOld.getNewBucket hash m.nKey infoOld.source
    let vNew ← newAt nUBucket
    change (·.updateInfo nOld fun info => { info with fInTried := false, nRefCount := 1 })
    -- back to its own bucket, or to the place `nId` has left
    if vNew.size < ADDRMAN_NEW_BUCKET_SIZE then change (·.updateNew nUBucket (·.insert nOld))
    else change (·.updateNew nOrigin (·.insert nOld))
    change fun m =>
      { (m.updateTried nKBucket (·.set nPos.toNat nId)).updateInfo nId fun info => { info with fInTried := true } with
        nNew := m.nNew + 1 }

/-- An `int64_t` stored in the `unsigned int` `nTime`. -/
def toTime (n : Int) : UInt32 := UInt32.ofNat (n % (2 ^ 32 : Nat)).toNat

/-- The loop of `Good_` that looks for a bucket with the entry. -/
def originOf (m : CAddrMan) (nId : Int) (nRnd : Nat) : Option Nat :=
  ((List.range m.vvNew.length).map fun n => (n + nRnd) % m.vvNew.length).find? fun nB => (m.vvNew[nB]?).any (nId ∈ ·)

/-- `Good_`. -/
def good (addr : CService) (nTime : Int) : AddrManM Unit := do
  let m ← man
  match m.find addr.addr with
  | none => pure ()
  | some (nId, info) =>
    onlyIf (info.service = addr) do
      change (·.updateInfo nId fun info =>
        { info with nLastSuccess := nTime, nLastTry := nTime, nTime := toTime nTime, nAttempts := 0 })
      onlyIf (info.fInTried = false) do
        let nRnd ← getRandInt m.vvNew.length
        match m.originOf nId nRnd with
        | none => pure ()
        | some nUBucket => makeTried hash nId nUBucket

/-- The end of `Add_`: the entry joins the bucket its source gives. -/
def addToNew (nId : Int) (source : CNetAddr) : AddrManM Unit := do
  let m ← man
  let info ← infoAt nId
  let nUBucket := info.getNewBucket hash m.nKey source
  let vNew ← newAt nUBucket
  onlyIf (nId ∉ vNew) do
    change (·.updateInfo nId fun info => { info with nRefCount := info.nRefCount + 1 })
    onlyIf (vNew.size = ADDRMAN_NEW_BUCKET_SIZE) do
      let _ ← shrinkNew nUBucket
    change (·.updateNew nUBucket (·.insert nId))

/-- What `Add_` does to the time of an entry it knows. -/
def refreshTime (addr : CAddress) (nTimePenalty nNow : Int) (info : CAddrInfo) : CAddrInfo :=
  let addrTime : Int := addr.nTime.toNat
  let nUpdateInterval : Int := if nNow - addrTime < 24 * 60 * 60 then 60 * 60 else 24 * 60 * 60
  if addr.nTime ≠ 0 ∧ (info.nTime = 0 ∨ info.nTime.toNat < addrTime - nUpdateInterval - nTimePenalty) then
    { info with nTime := toTime (max 0 (addrTime - nTimePenalty)) }
  else info

/-- `Add_`. -/
def add (addr : CAddress) (source : CNetAddr) (nTimePenalty : Int) : AddrManM Bool := do
  if !addr.service.addr.isRoutable then pure false
  else do
    let m ← man
    match m.find addr.service.addr with
    | some (nId, _) => do
      let nNow ← getAdjustedTime
      change (·.updateInfo nId (refreshTime addr nTimePenalty nNow))
      change (·.updateInfo nId fun info => { info with nServices := info.nServices ||| addr.nServices })
      let info ← infoAt nId
      if addr.nTime = 0 ∨ (info.nTime ≠ 0 ∧ addr.nTime ≤ info.nTime) then pure false
      else if info.fInTried then pure false
      else if info.nRefCount = ADDRMAN_NEW_BUCKETS_PER_ADDRESS then pure false
      else do
        -- a random number below 2^0 is 0 without a draw
        let r ← if info.nRefCount.toNat = 0 then pure 0 else getRandInt (2 ^ info.nRefCount.toNat)
        if r ≠ 0 then pure false
        else do
          addToNew hash nId source
          pure false
    | none => do
      let nId ← create addr source
      change (·.updateInfo nId fun info => { info with nTime := toTime (max 0 (info.nTime.toNat - nTimePenalty)) })
      change fun m => { m with nNew := m.nNew + 1 }
      addToNew hash nId source
      pure true

/-- `Attempt_`. -/
def attempt (addr : CService) (nTime : Int) : AddrManM Unit := do
  let m ← man
  match m.find addr.addr with
  | none => pure ()
  | some (nId, info) =>
    onlyIf (info.service = addr) do
      change (·.updateInfo nId fun info => { info with nLastTry := nTime, nAttempts := info.nAttempts + 1 })

/-- `Connected_`. -/
def connected (addr : CService) (nTime : Int) : AddrManM Unit := do
  let m ← man
  match m.find addr.addr with
  | none => pure ()
  | some (nId, info) =>
    onlyIf (info.service = addr ∧ 20 * 60 < nTime - info.nTime.toNat) do
      change (·.updateInfo nId fun info => { info with nTime := toTime nTime })

/-- A loop of `Select_` on one kind of bucket. Whether an entry drawn after
`nTries` others is taken, `GetRandInt(1<<30) < fChanceFactor * …`, is floating
point arithmetic, for which `accepts` stands. -/
def selectLoop (accepts : Nat → CAddrInfo → Int → Nat → Bool) (nBuckets : Nat) (bucketAt : Nat → AddrManM (List Int)) :
    Nat → Nat → AddrManM (Option CAddress)
  | 0, _ => pure none
  | fuel + 1, nTries => do
    let nBucket ← getRandInt nBuckets
    let bucket ← bucketAt nBucket
    if bucket.length = 0 then selectLoop accepts nBuckets bucketAt fuel nTries
    else do
      let nPos ← getRandInt bucket.length
      let nId ← orStop .outOfRange bucket[nPos]?
      let m ← man
      assertThat (nId ∈ m.mapInfo)
      let info ← infoAt nId
      let r ← getRandInt (2 ^ 30)
      let nNow ← getAdjustedTime
      if accepts nTries info nNow r then pure (some info.toCAddress)
      else selectLoop accepts nBuckets bucketAt fuel (nTries + 1)

/-- `Select_`, for as many rounds of its loop as there is fuel. -/
def select (accepts : Nat → CAddrInfo → Int → Nat → Bool) (fuel : Nat) : AddrManM (Option CAddress) := do
  let m ← man
  if m.vRandom.length = 0 then pure (some .init)
  else do
    let coin ← if 0 < m.nTried ∧ m.nNew ≠ 0 then getRandInt 2 else pure 0
    if 0 < m.nTried ∧ (m.nNew = 0 ∨ coin = 0) then selectLoop accepts m.vvTried.length triedAt fuel 0
    else selectLoop accepts m.vvNew.length (fun b => do let vNew ← newAt b; pure vNew.toList) fuel 0

/-- The loop of `GetAddr_`, `left` rounds before its end. -/
def getAddrLoop (nNodes : Nat) : Nat → List CAddress → AddrManM (List CAddress)
  | 0, vAddr => pure vAddr
  | left + 1, vAddr => do
    if nNodes ≤ vAddr.length then pure vAddr
    else do
      let m ← man
      let n := m.vRandom.length - (left + 1)
      let r ← getRandInt (left + 1)
      swapRandom n (r + n)
      let m ← man
      let nId ← orStop .outOfRange m.vRandom[n]?
      assertThat (nId ∈ m.mapInfo)
      let ai ← infoAt nId
      let nNow ← getAdjustedTime
      getAddrLoop nNodes left (if ai.isTerrible nNow then vAddr else vAddr ++ [ai.toCAddress])

/-- `GetAddr_`, into an empty vector. -/
def getAddr : AddrManM (List CAddress) := do
  let m ← man
  let nNodes := min (ADDRMAN_GETADDR_MAX_PCT * m.vRandom.length / 100) ADDRMAN_GETADDR_MAX
  getAddrLoop nNodes m.vRandom.length []

/-! ## The consistency check -/

/-- What `Check_` asks of an entry of its kind. -/
def checkKind (info : CAddrInfo) : Except Int Unit :=
  if info.fInTried then do
    rejectIf (info.nLastSuccess = 0) (-1)
    rejectIf (info.nRefCount ≠ 0) (-2)
  else do
    rejectIf (info.nRefCount < 0 ∨ ADDRMAN_NEW_BUCKETS_PER_ADDRESS < info.nRefCount) (-3)
    rejectIf (info.nRefCount = 0) (-4)

/-- What `Check_` asks of one entry. `mapAddr[info]` of an unknown address is
0. -/
def checkInfo (m : CAddrMan) : Int × CAddrInfo → Except Int Unit
  | (n, info) => do
    checkKind info
    rejectIf ((m.mapAddr.lookup info.netAddr).getD 0 ≠ n) (-5)
    rejectIf (info.nRandomPos < 0 ∨ m.vRandom[info.nRandomPos.toNat]? ≠ some n) (-14)
    rejectIf (info.nLastTry < 0) (-6)
    rejectIf (info.nLastSuccess < 0) (-8)

/-- `setTried`. -/
def triedIds (m : CAddrMan) : List Int := (m.mapInfo.toList.filter fun e => e.2.fInTried).map Prod.fst

/-- `mapNew`. -/
def newRefs (m : CAddrMan) : List (Int × Int) :=
  (m.mapInfo.toList.filter fun e => !e.2.fInTried).map fun e => (e.1, e.2.nRefCount)

/-- `setTried.erase(n)`, of a member. -/
def crossOff (n : Int) (setTried : List Int) : Option (List Int) := if n ∈ setTried then some (setTried.erase n) else none

/-- `if (--mapNew[n] == 0) mapNew.erase(n)`, of a member. -/
def countDown (n : Int) : List (Int × Int) → Option (List (Int × Int))
  | [] => none
  | (k, c) :: rest =>
    if k = n then some (if c - 1 = 0 then rest else (k, c - 1) :: rest)
    else (countDown n rest).map ((k, c) :: ·)

/-- The ids in the "new" buckets, one bucket after the other. -/
def newSlots (m : CAddrMan) : List Int := (m.vvNew.map (·.toList)).flatten

/-- A loop of `Check_` over the ids in buckets, each of which has to be there
to be removed. -/
def strike {α : Type} (code : Int) (remove : Int → α → Option α) (slots : List Int) (left : α) : Except Int α :=
  slots.foldlM (fun left n => match remove n left with
    | some rest => pure rest
    | none => throw code) left

/-- `Check_`. -/
def check (m : CAddrMan) : Except Int Unit := do
  rejectIf ((m.vRandom.length : Int) ≠ m.nTried + m.nNew) (-7)
  forM m.mapInfo.toList m.checkInfo
  rejectIf ((m.triedIds.length : Int) ≠ m.nTried) (-9)
  rejectIf ((m.newRefs.length : Int) ≠ m.nNew) (-10)
  let setTried ← strike (-11) crossOff m.vvTried.flatten m.triedIds
  let mapNew ← strike (-12) countDown m.newSlots m.newRefs
  rejectIf (setTried ≠ []) (-13)
  rejectIf (mapNew ≠ []) (-15)

end CAddrMan

end Pinkcoin
