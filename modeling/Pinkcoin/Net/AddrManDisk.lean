/-
The file format of the address manager: `Serialize` and `Unserialize`. Ids are
numbered again, the "tried" buckets, `mapAddr` and `vRandom` are rebuilt, and
so are the "new" buckets when their number is another one.
-/
import Pinkcoin.Net.AddrManCheck

namespace Pinkcoin

open Std (TreeMap TreeSet)
open CScript (leBytes)
open Codec StateError
open CDataStream (read stream)

/-! ## Entries -/

namespace CAddrInfo

/-- The fields that are written. The others are as `Init` sets them. -/
def saved (info : CAddrInfo) : CAddrInfo :=
  { info with nLastTry := 0, nRefCount := 0, fInTried := false, nRandomPos := -1 }

/-- `CAddrInfo()`. -/
def init : CAddrInfo := new .init ⟨Vector.replicate 16 0⟩

/-- The numbers are in the ranges of their types. -/
structure InRange (info : CAddrInfo) : Prop where
  nLastSuccess : IntRange 8 info.nLastSuccess
  nAttempts : IntRange 4 info.nAttempts

end CAddrInfo

/-- A port in network order. -/
def writePort (port : UInt16) : List UInt8 := [UInt8.ofNat (port.toNat / 256), UInt8.ofNat (port.toNat % 256)]

def readPort : StreamM UInt16 := do
  let b ← read 2
  pure (UInt16.ofNat ((b.getD 0 0).toNat * 256 + (b.getD 1 0).toNat))

def readNetAddr : StreamM CNetAddr := do
  let b ← read 16
  pure ⟨Vector.ofFn fun i => b.getD i 0⟩

def CLIENT_VERSION : Int := 2040000

/-- `Serialize`, to disk. -/
def CAddrInfo.serialize (info : CAddrInfo) : List UInt8 :=
  writeInt 4 CLIENT_VERSION ++ (leBytes 4 info.nTime.toNat ++ (leBytes 8 info.nServices.toNat ++
    (info.service.addr.ip.toList ++ (writePort info.service.port ++
      (info.source.ip.toList ++ (writeInt 8 info.nLastSuccess ++ writeInt 4 info.nAttempts))))))

/-- `Unserialize`, from disk. The version is not looked at. -/
def CAddrInfo.unserialize : StreamM CAddrInfo := do
  let _nVersion ← readInt 4
  let nTime ← readUInt 4
  let nServices ← readUInt 8
  let addr ← readNetAddr
  let port ← readPort
  let source ← readNetAddr
  let nLastSuccess ← readInt 8
  let nAttempts ← readInt 4
  pure { CAddrInfo.init with service := ⟨addr, port⟩, nServices := UInt64.ofNat nServices, nTime := UInt32.ofNat nTime,
                             source, nLastSuccess, nAttempts }

namespace CAddrMan

/-! ## Writing -/

/-- The first loop of `Serialize`: `mapUnkIds` and the entries written. -/
def writeNew (nNew : Int) : List (Int × CAddrInfo) → Int → List (Int × Int) × List CAddrInfo
  | [], _ => ([], [])
  | (n, info) :: rest, nIds =>
    if nIds = nNew then ([], [])
    else if info.nRefCount ≠ 0 then
      let (mapUnkIds, written) := writeNew nNew rest (nIds + 1)
      ((n, nIds) :: mapUnkIds, info :: written)
    else
      let (mapUnkIds, written) := writeNew nNew rest nIds
      ((n, nIds) :: mapUnkIds, written)

/-- The second loop: the entries written. -/
def writeTried (nTried : Int) : List (Int × CAddrInfo) → Int → List CAddrInfo
  | [], _ => []
  | (_, info) :: rest, nIds =>
    if nIds = nTried then []
    else if info.fInTried then info :: writeTried nTried rest (nIds + 1)
    else writeTried nTried rest nIds

/-- `mapUnkIds[n]`, 0 where there is none. -/
def unkId (mapUnkIds : List (Int × Int)) (n : Int) : Int := (mapUnkIds.lookup n).getD 0

def serializeBucket (indexes : List Int) : List UInt8 := writeInt 4 indexes.length ++ writeAll (writeInt 4) indexes

/-- `Serialize`, of a program whose `ADDRMAN_NEW_BUCKET_COUNT` is `nUBuckets`. -/
def serialize (nUBuckets : Nat) (m : CAddrMan) : List UInt8 :=
  let (mapUnkIds, new) := writeNew m.nNew m.mapInfo.toList 0
  let tried := writeTried m.nTried m.mapInfo.toList 0
  leBytes 1 0 ++ (serializeBytes m.nKey ++ (writeInt 4 m.nNew ++ (writeInt 4 m.nTried ++ (writeInt 4 nUBuckets ++
    (writeAll CAddrInfo.serialize new ++ (writeAll CAddrInfo.serialize tried ++
      writeAll serializeBucket (m.vvNew.map fun vNew => vNew.toList.map (unkId mapUnkIds))))))))

/-! ## Reading -/

variable (hash : List UInt8 → Uint256)

/-- The body of the first loop of `Unserialize`. -/
def loadNew (nUBuckets n : Int) (info : CAddrInfo) (m : CAddrMan) : CAddrMan :=
  let m := { m with mapInfo := m.mapInfo.insert n { info with nRandomPos := m.vRandom.length }
                    mapAddr := m.mapAddr.insert info.netAddr n, vRandom := m.vRandom ++ [n] }
  if nUBuckets ≠ ADDRMAN_NEW_BUCKET_COUNT then
    (m.updateNew (info.getNewBucket hash m.nKey info.source) (·.insert n)).updateInfo n
      fun info => { info with nRefCount := info.nRefCount + 1 }
  else m

/-- The first loop, from `n` on. -/
def loadNews (nUBuckets : Int) : Nat → Int → CAddrMan → StreamM CAddrMan
  | 0, _, m => pure m
  | left + 1, n, m => do
    let info ← CAddrInfo.unserialize
    loadNews nUBuckets left (n + 1) (m.loadNew hash nUBuckets n info)

/-- The body of the second loop, on the tables and `nLost`. -/
def loadTried (info : CAddrInfo) : CAddrMan × Int → CAddrMan × Int
  | (m, nLost) =>
    let nKBucket := info.getTriedBucket hash m.nKey
    if (m.vvTried.getD nKBucket []).length < ADDRMAN_TRIED_BUCKET_SIZE then
      let m := { m with mapInfo := m.mapInfo.insert m.nIdCount { info with nRandomPos := m.vRandom.length, fInTried := true }
                        mapAddr := m.mapAddr.insert info.netAddr m.nIdCount, vRandom := m.vRandom ++ [m.nIdCount] }
      ({ m.updateTried nKBucket (· ++ [m.nIdCount]) with nIdCount := m.nIdCount + 1 }, nLost)
    else (m, nLost + 1)

/-- The second loop. -/
def loadTrieds : Nat → CAddrMan × Int → StreamM (CAddrMan × Int)
  | 0, acc => pure acc
  | left + 1, acc => do
    let info ← CAddrInfo.unserialize
    loadTrieds left (loadTried hash info acc)

/-- The body of the innermost loop. `mapInfo[nIndex]` adds an entry where
there is none. -/
def loadIndex (nUBuckets : Int) (b : Nat) (nIndex : Int) (m : CAddrMan) : CAddrMan :=
  let m := { m with mapInfo := m.mapInfo.insertIfNew nIndex .init }
  if nUBuckets = ADDRMAN_NEW_BUCKET_COUNT ∧
      ((m.mapInfo[nIndex]?).any fun info => info.nRefCount < ADDRMAN_NEW_BUCKETS_PER_ADDRESS) then
    (m.updateInfo nIndex fun info => { info with nRefCount := info.nRefCount + 1 }).updateNew b (·.insert nIndex)
  else m

def loadIndexes (nUBuckets : Int) (b : Nat) : Nat → CAddrMan → StreamM CAddrMan
  | 0, m => pure m
  | left + 1, m => do
    let nIndex ← readInt 4
    loadIndexes nUBuckets b left (m.loadIndex nUBuckets b nIndex)

/-- `vvNew[b]` past the last bucket. -/
def outOfRange : String := "vvNew[b]: out of range"

/-- The third loop, from bucket `b` on. -/
def loadBuckets (nUBuckets : Int) : Nat → Nat → CAddrMan → StreamM CAddrMan
  | 0, _, m => pure m
  | left + 1, b, m => do
    rejectIf (m.vvNew.length ≤ b) outOfRange
    let nSize ← readInt 4
    let m ← loadIndexes nUBuckets b nSize.toNat m
    loadBuckets nUBuckets left (b + 1) m

/-- `Unserialize`. -/
def unserialize : StreamM CAddrMan := do
  let _nVersion ← readUInt 1
  let nKey ← unserializeBytes
  let nNew ← readInt 4
  let nTried ← readInt 4
  let nUBuckets ← readInt 4
  let m ← loadNews hash nUBuckets nNew.toNat 0 { CAddrMan.init nKey with nNew, nTried }
  let (m, nLost) ← loadTrieds hash nTried.toNat ({ m with nIdCount := nNew }, 0)
  loadBuckets nUBuckets nUBuckets.toNat 0 { m with nTried := m.nTried - nLost }

end CAddrMan

/-! ## Entries read back -/

theorem recovers_readNetAddr (a : CNetAddr) : Recovers stream a.ip.toList readNetAddr a := by
  have hback : (⟨Vector.ofFn fun i => a.ip.toList.getD i 0⟩ : CNetAddr) = a := by
    obtain ⟨ip⟩ := a
    refine congrArg CNetAddr.mk (Vector.ext fun i hi => ?_)
    rw [Vector.getElem_ofFn, List.getD_eq_getElem?_getD, Vector.getElem?_toList, Vector.getElem?_eq_getElem hi, Option.getD_some]
  have hread : Recovers stream a.ip.toList (read 16) a.ip.toList :=
    (CDataStream.reads_read (n := 16) (by decide)).recovers (a := a.ip.toList) Vector.length_toList
  have hmap := hread.map (g := fun b => (⟨Vector.ofFn fun i => b.getD i 0⟩ : CNetAddr))
  rwa [hback] at hmap

theorem recovers_readPort (port : UInt16) : Recovers stream (writePort port) readPort port := by
  have hlt : port.toNat < 65536 := port.toNat_lt
  have hback : UInt16.ofNat (((writePort port).getD 0 0).toNat * 256 + ((writePort port).getD 1 0).toNat) = port := by
    have hhigh : (UInt8.ofNat (port.toNat / 256)).toNat = port.toNat / 256 := Nat.mod_eq_of_lt (by omega)
    have hlow : (UInt8.ofNat (port.toNat % 256)).toNat = port.toNat % 256 := Nat.mod_eq_of_lt (by omega)
    simp only [writePort, List.getD_cons_zero, List.getD_cons_succ, hhigh, hlow]
    rw [Nat.div_add_mod']
    exact UInt16.ofNat_toNat
  have hread : Recovers stream (writePort port) (read 2) (writePort port) :=
    (CDataStream.reads_read (n := 2) (by decide)).recovers (a := writePort port) rfl
  have hmap := hread.map (g := fun b => UInt16.ofNat ((b.getD 0 0).toNat * 256 + (b.getD 1 0).toNat))
  rwa [hback] at hmap

theorem CAddrInfo.recovers {info : CAddrInfo} (h : info.InRange) :
    Recovers stream info.serialize CAddrInfo.unserialize info.saved := by
  have hversion : Recovers stream (writeInt 4 CLIENT_VERSION) (readInt 4) CLIENT_VERSION :=
    (reads_readInt (by decide) (by decide)).recovers (by decide)
  have htime : Recovers stream (leBytes 4 info.nTime.toNat) (readUInt 4) info.nTime.toNat :=
    (reads_readUInt (by decide)).recovers info.nTime.toNat_lt
  have hservices : Recovers stream (leBytes 8 info.nServices.toNat) (readUInt 8) info.nServices.toNat :=
    (reads_readUInt (by decide)).recovers info.nServices.toNat_lt
  have hsuccess : Recovers stream (writeInt 8 info.nLastSuccess) (readInt 8) info.nLastSuccess :=
    (reads_readInt (by decide) (by decide)).recovers h.nLastSuccess
  have hattempts : Recovers stream (writeInt 4 info.nAttempts) (readInt 4) info.nAttempts :=
    (reads_readInt (by decide) (by decide)).recovers h.nAttempts
  have hsaved : info.saved = { CAddrInfo.init with
      service := ⟨info.service.addr, info.service.port⟩, nServices := UInt64.ofNat info.nServices.toNat
      nTime := UInt32.ofNat info.nTime.toNat, source := info.source, nLastSuccess := info.nLastSuccess
      nAttempts := info.nAttempts } := by
    rw [UInt64.ofNat_toNat, UInt32.ofNat_toNat]
    rfl
  rw [hsaved]
  refine hversion.bind (htime.bind (hservices.bind ((recovers_readNetAddr _).bind ((recovers_readPort _).bind ?_))))
  exact (recovers_readNetAddr _).bind (hsuccess.bind hattempts.map)

end Pinkcoin
