/-
The key pool of the wallet: keys that were made in advance, each under an
index, and the reservations that take them out. `setKeyPool` holds the indexes
that can be taken, the keys are "pool" records of the wallet file. The file
does what it is told.
-/
import Std.Data.TreeSet.Lemmas
import Pinkcoin.Lib.StateError
import Pinkcoin.Smsg.Address

namespace Pinkcoin

open Std (TreeSet)
open StateError

/-- `CPubKey`. -/
structure CPubKey where
  vchPubKey : List UInt8
  deriving DecidableEq

namespace CPubKey

/-- `CPubKey()`. -/
def init : CPubKey := ⟨[]⟩

def isValid (k : CPubKey) : Bool := k.vchPubKey.length = 33 || k.vchPubKey.length = 65

/-- `GetID`, for a `Hash160`. -/
def getID (hash160 : List UInt8 → CKeyID) (k : CPubKey) : CKeyID := hash160 k.vchPubKey

end CPubKey

structure CKeyPool where
  nTime : Int
  vchPubKey : CPubKey
  deriving DecidableEq

/-- `CReserveKey`: an index, -1 for none, and its key. -/
structure CReserveKey where
  nIndex : Int
  vchPubKey : CPubKey
  deriving DecidableEq

def CReserveKey.init : CReserveKey := ⟨-1, .init⟩

/-- The wallet as far as the key pool goes, the objects that hold
reservations, and what the next calls of `MakeNewKey` and `GetAdjustedTime`
give. -/
structure KeyPool where
  setKeyPool : TreeSet Int
  pool : Map Int CKeyPool
  /-- The ids in `mapKeys`. -/
  mapKeys : List CKeyID
  vchDefaultKey : CPubKey
  fLocked : Bool
  fFileBacked : Bool
  reserveKeys : Nat → CReserveKey
  newKeys : Nat → CPubKey
  times : Nat → Int

abbrev KeyPoolM := EStateM String KeyPool

namespace KeyPool

-- `arg` is `GetArg("-keypool", 100)`
variable (hash160 : List UInt8 → CKeyID) (arg : Int)

def haveKey (s : KeyPool) (k : CPubKey) : Bool := k.getID hash160 ∈ s.mapKeys

/-! ## Making keys -/

/-- `GenerateNewKey`. -/
def generateNewKey : KeyPoolM CPubKey := fun s =>
  .ok (s.newKeys 0) { s with newKeys := fun i => s.newKeys (i + 1), mapKeys := (s.newKeys 0).getID hash160 :: s.mapKeys }

def getAdjustedTime : KeyPoolM Int := fun s => .ok (s.times 0) { s with times := fun i => s.times (i + 1) }

/-- `WritePool(nIndex, CKeyPool(GenerateNewKey()))` and the index in the set. -/
def writeNewKey (nIndex : Int) : KeyPoolM Unit := do
  let key ← generateNewKey hash160
  let nTime ← getAdjustedTime
  modify fun s => { s with pool := s.pool.insert nIndex ⟨nTime, key⟩, setKeyPool := s.setKeyPool.insert nIndex }

/-- The loop over the number of keys, from `i` on. -/
def writeNewKeys : Nat → Nat → KeyPoolM Unit
  | 0, _ => pure ()
  | left + 1, i => do
    writeNewKey hash160 (i + 1)
    writeNewKeys left (i + 1)

def nKeys : Nat := (max arg 0).toNat

/-- `NewKeyPool`. -/
def newKeyPool : KeyPoolM Bool := do
  modify fun s => { s with pool := s.setKeyPool.toList.foldl (fun pool nIndex => pool.erase nIndex) s.pool, setKeyPool := ∅ }
  let s ← get
  if s.fLocked then pure false
  else do
    writeNewKeys hash160 (nKeys arg) 0
    pure true

/-- The index after the last one of the set. -/
def nEnd (s : KeyPool) : Int := match s.setKeyPool.toList.getLast? with
  | some n => n + 1
  | none => 1

/-- `nTargetSize + 1`, an `unsigned int`. -/
def target (nSize : UInt32) : Nat := ((if 0 < nSize then nSize.toNat else (max arg 0).toNat % 2 ^ 32) + 1) % 2 ^ 32

/-- The loop of `TopUpKeyPool`: each round adds an index, so that the rounds
missing at the start are enough. -/
def topUpLoop (nTarget : Nat) : Nat → KeyPoolM Unit
  | 0 => pure ()
  | fuel + 1 => do
    let s ← get
    if s.setKeyPool.size < nTarget then do
      writeNewKey hash160 s.nEnd
      topUpLoop nTarget fuel
    else pure ()

/-- `TopUpKeyPool`. -/
def topUpKeyPool (nSize : UInt32) : KeyPoolM Bool := do
  let s ← get
  if s.fLocked then pure false
  else do
    topUpLoop hash160 (target arg nSize) (target arg nSize - s.setKeyPool.size)
    pure true

/-! ## Taking keys -/

/-- The `nIndex` that a call is given: one of a reservation, or a local one. -/
def setIndex (nIndex : Int) : Option Nat → KeyPoolM Unit
  | some a => modify fun s => { s with reserveKeys := Function.update s.reserveKeys a { s.reserveKeys a with nIndex } }
  | none => pure ()

/-- `ReserveKeyFromKeyPool`. Nothing is returned for an index of -1. -/
def reserveKeyFromKeyPool (a : Option Nat) : KeyPoolM (Option (Int × CKeyPool)) := do
  setIndex (-1) a
  let s ← get
  onlyIf (s.fLocked = false) do
    let _ ← topUpKeyPool hash160 arg 0
  let s ← get
  match s.setKeyPool.toList.head? with
  | none => pure none
  | some nIndex => do
    setIndex nIndex a
    modify fun s => { s with setKeyPool := s.setKeyPool.erase nIndex }
    match s.pool.lookup nIndex with
    | none => throw "ReserveKeyFromKeyPool() : read failed"
    | some keypool => do
      rejectIf (s.haveKey hash160 keypool.vchPubKey = false) "ReserveKeyFromKeyPool() : unknown key in key pool"
      rejectIf (keypool.vchPubKey.isValid = false) "assert(keypool.vchPubKey.IsValid())"
      pure (some (nIndex, keypool))

/-- `CWallet::KeepKey`. -/
def keepIndex (nIndex : Int) : KeyPoolM Unit :=
  modify fun s => if s.fFileBacked then { s with pool := s.pool.erase nIndex } else s

/-- `CWallet::ReturnKey`. -/
def returnIndex (nIndex : Int) : KeyPoolM Unit := modify fun s => { s with setKeyPool := s.setKeyPool.insert nIndex }

/-- `GetKeyFromPool`. Beside the key, the index that was kept. -/
def getKeyFromPool (fAllowReuse : Bool) : KeyPoolM (Option (CPubKey × Option Int)) := do
  let reserved ← reserveKeyFromKeyPool hash160 arg none
  match reserved with
  | none => do
    let s ← get
    if fAllowReuse && s.vchDefaultKey.isValid then pure (some (s.vchDefaultKey, none))
    else if s.fLocked then pure none
    else do
      let key ← generateNewKey hash160
      pure (some (key, none))
  | some (nIndex, keypool) => do
    keepIndex nIndex
    pure (some (keypool.vchPubKey, some nIndex))

/-- `GetOldestKeyPoolTime`. -/
def getOldestKeyPoolTime : KeyPoolM Int := do
  let reserved ← reserveKeyFromKeyPool hash160 arg none
  match reserved with
  | none => getAdjustedTime
  | some (nIndex, keypool) => do
    returnIndex nIndex
    pure keypool.nTime

/-! ## Reservations -/

/-- `CReserveKey::GetReservedKey`. -/
def getReservedKey (a : Nat) : KeyPoolM (Option CPubKey) := do
  let s ← get
  if (s.reserveKeys a).nIndex = -1 then do
    let reserved ← reserveKeyFromKeyPool hash160 arg (some a)
    let s ← get
    match reserved with
    | some (_, keypool) => give keypool.vchPubKey
    | none => if s.vchDefaultKey.isValid then give s.vchDefaultKey else pure none
  else give (s.reserveKeys a).vchPubKey
where
  /-- The key of the reservation, which is also returned. -/
  give (key : CPubKey) : KeyPoolM (Option CPubKey) := do
    modify fun s => { s with reserveKeys := Function.update s.reserveKeys a { s.reserveKeys a with vchPubKey := key } }
    rejectIf (key.isValid = false) "assert(vchPubKey.IsValid())"
    pure (some key)

/-- `CReserveKey::KeepKey`. -/
def keepKey (a : Nat) : KeyPoolM Unit := do
  let s ← get
  onlyIf ((s.reserveKeys a).nIndex ≠ -1) (keepIndex (s.reserveKeys a).nIndex)
  modify fun s => { s with reserveKeys := Function.update s.reserveKeys a .init }

/-- `CReserveKey::ReturnKey`, also the destructor's. -/
def returnKey (a : Nat) : KeyPoolM Unit := do
  let s ← get
  onlyIf ((s.reserveKeys a).nIndex ≠ -1) (returnIndex (s.reserveKeys a).nIndex)
  modify fun s => { s with reserveKeys := Function.update s.reserveKeys a .init }

end KeyPool

end Pinkcoin
