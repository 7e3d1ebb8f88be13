/-
What the wallet file keeps of a transaction and of an internal transfer.
Some fields are written as entries of the string map, or behind a NUL in the
comment, and are taken out of the object again.
-/
import Pinkcoin.Lib.Decimal
import Pinkcoin.Lib.OrderedSet
import Pinkcoin.Text.Base64
import Pinkcoin.WireBack

namespace Pinkcoin.Record

open CScript (leBytes leNat length_leBytes)
open Codec Decimal WireBack

/-! ## Strings and maps -/

/-- `Unserialize` of a string. -/
def unserializeString : StreamM (List UInt8) := do
  let nSize ← readCompactSize
  if nSize ≠ 0 then CDataStream.read nSize else pure []

def readChar : StreamM UInt8 := do
  let b ← CDataStream.read 1
  pure (b.headD 0)

abbrev StringPair := List UInt8 × List UInt8

namespace StringPair

def serialize (item : StringPair) : List UInt8 := serializeBytes item.1 ++ serializeBytes item.2

def unserialize : StreamM StringPair := do
  let first ← unserializeString
  let second ← unserializeString
  pure (first, second)

def size (item : StringPair) : Nat := bytesSize item.1.length + bytesSize item.2.length

structure InRange (max : Nat) (item : StringPair) : Prop where
  first : item.1.length ≤ max
  second : item.2.length ≤ max

end StringPair

/-- Strings are ordered by their bytes. -/
def toKey (s : List UInt8) : List Nat := s.map UInt8.toNat

/-- `mapValue_t`. -/
abbrev MapValue := OrderedSet fun item : StringPair => toKey item.1

namespace MapValue

def count (m : MapValue) (k : List UInt8) : Bool := (m.find (toKey k)).isSome

/-- `operator[]`; an entry that is not there is made, with an empty string. -/
def get (m : MapValue) (k : List UInt8) : List UInt8 := (m.find (toKey k)).elim [] Prod.snd

def set (m : MapValue) (k v : List UInt8) : MapValue := m.put (k, v)

def serialize (m : MapValue) : List UInt8 := serializeVector StringPair.serialize m.toList

/-- The items are inserted; of two with one key the first stays. -/
def unserialize : StreamM MapValue := do
  let items ← unserializeVector StringPair.unserialize
  pure (items.foldl OrderedSet.insert OrderedSet.empty)

def size (m : MapValue) : Nat := getSizeOfCompactSize m.toList.length + (m.toList.map StringPair.size).sum

structure InRange (max : Nat) (m : MapValue) : Prop where
  count : m.toList.length ≤ max
  items : ∀ item ∈ m.toList, StringPair.InRange max item

end MapValue

def readOrderPos (mapValue : MapValue) : Int :=
  if mapValue.count (chars "n") then (strtoll (mapValue.get (chars "n"))).1 else -1

def writeOrderPos (nOrderPos : Int) (mapValue : MapValue) : MapValue :=
  if nOrderPos = -1 then mapValue else mapValue.set (chars "n") (printInt nOrderPos)

/-! ## Transactions of the wallet -/

structure CMerkleTx extends CTransaction where
  hashBlock : Nat
  vMerkleBranch : List Nat
  nIndex : Int

namespace CMerkleTx

def serialize (tx : CMerkleTx) : List UInt8 :=
  tx.toCTransaction.serialize ++ (leBytes 32 tx.hashBlock ++ (serializeVector (leBytes 32) tx.vMerkleBranch ++
    writeInt 4 tx.nIndex))

def unserialize : StreamM CMerkleTx := do
  let tx ← CTransaction.unserialize
  let hashBlock ← readUInt 32
  let vMerkleBranch ← unserializeVector (readUInt 32)
  let nIndex ← readInt 4
  pure ⟨tx, hashBlock, vMerkleBranch, nIndex⟩

def size (tx : CMerkleTx) : Nat :=
  tx.getSerializeSize + 32 + (getSizeOfCompactSize tx.vMerkleBranch.length + (tx.vMerkleBranch.map fun _ => 32).sum) + 4

structure InRange (max : Nat) (tx : CMerkleTx) : Prop where
  base : tx.toCTransaction.InRange max
  hashBlock : tx.hashBlock < 256 ^ 32
  vMerkleBranch : tx.vMerkleBranch.length ≤ max ∧ ∀ hash ∈ tx.vMerkleBranch, hash < 256 ^ 32
  nIndex : IntRange 4 tx.nIndex

end CMerkleTx

structure CWalletTx extends CMerkleTx where
  vtxPrev : List CMerkleTx
  mapValue : MapValue
  vOrderForm : List StringPair
  fTimeReceivedIsTxTime : Nat
  nTimeReceived : Nat
  nTimeSmart : Nat
  fFromMe : UInt8
  strFromAccount : List UInt8
  vfSpent : List UInt8
  nOrderPos : Int

namespace CWalletTx

/-- The keys that are taken out of the map. -/
def reserved : List (List UInt8) :=
  [chars "fromaccount", chars "version", chars "spent", chars "n", chars "timesmart"]

/-- The spent flags as characters. -/
def spentText (vfSpent : List UInt8) : List UInt8 := vfSpent.map fun f => if f ≠ 0 then 49 else 48

/-- The entries that are added for writing and for counting. -/
def prepare (wtx : CWalletTx) : CWalletTx :=
  let mapValue := wtx.mapValue.set (chars "fromaccount") wtx.strFromAccount
  let mapValue := mapValue.set (chars "spent") (spentText wtx.vfSpent)
  let mapValue := writeOrderPos wtx.nOrderPos mapValue
  let mapValue :=
    if wtx.nTimeSmart ≠ 0 then mapValue.set (chars "timesmart") (print wtx.nTimeSmart) else mapValue
  { wtx with mapValue := mapValue }

def fSpent (wtx : CWalletTx) : UInt8 := if wtx.vfSpent.any (· ≠ 0) then 1 else 0

/-- The end of all three actions. -/
def cleanUp (wtx : CWalletTx) : CWalletTx := { wtx with mapValue := wtx.mapValue.eraseAll (reserved.map toKey) }

def write (wtx : CWalletTx) : List UInt8 :=
  wtx.toCMerkleTx.serialize ++ (serializeVector CMerkleTx.serialize wtx.vtxPrev ++ (wtx.mapValue.serialize ++
    (serializeVector StringPair.serialize wtx.vOrderForm ++ (leBytes 4 wtx.fTimeReceivedIsTxTime ++
      (leBytes 4 wtx.nTimeReceived ++ ([wtx.fFromMe] ++ [wtx.fSpent]))))))

def size (wtx : CWalletTx) : Nat :=
  wtx.toCMerkleTx.size + (getSizeOfCompactSize wtx.vtxPrev.length + (wtx.vtxPrev.map CMerkleTx.size).sum) +
    wtx.mapValue.size + (getSizeOfCompactSize wtx.vOrderForm.length + (wtx.vOrderForm.map StringPair.size).sum) +
    4 + 4 + 1 + 1

/-- `Serialize`, and the object after it. -/
def serialize (wtx : CWalletTx) : List UInt8 × CWalletTx := (wtx.prepare.write, wtx.prepare.cleanUp)

/-- `GetSerializeSize`, an `unsigned int`, and the object after it. -/
def getSerializeSize (wtx : CWalletTx) : Nat × CWalletTx := (wtx.prepare.size % 2 ^ 32, wtx.prepare.cleanUp)

/-- `Unserialize`. All the fields are set, those that `Init` clears too. -/
def unserialize : StreamM CWalletTx := do
  let tx ← CMerkleTx.unserialize
  let vtxPrev ← unserializeVector CMerkleTx.unserialize
  let mapValue ← MapValue.unserialize
  let vOrderForm ← unserializeVector StringPair.unserialize
  let fTimeReceivedIsTxTime ← readUInt 4
  let nTimeReceived ← readUInt 4
  let fFromMe ← readChar
  let fSpent ← readChar
  pure (cleanUp {
    toCMerkleTx := tx, vtxPrev, mapValue, vOrderForm, fTimeReceivedIsTxTime, nTimeReceived, fFromMe
    strFromAccount := mapValue.get (chars "fromaccount")
    vfSpent :=
      if mapValue.count (chars "spent") then (mapValue.get (chars "spent")).map fun c => if c ≠ 48 then 1 else 0
      else List.replicate tx.vout.length fSpent
    nOrderPos := readOrderPos mapValue
    nTimeSmart :=
      if mapValue.count (chars "timesmart") then ((strtoll (mapValue.get (chars "timesmart"))).1 % 2 ^ 32).toNat
      else 0 })

end CWalletTx

/-! ## Internal transfers -/

structure CAccountingentry where
  strAccount : List UInt8
  nCreditDebit : Int
  nTime : Int
  strOtherAccount : List UInt8
  strComment : List UInt8
  mapValue : MapValue
  nOrderPos : Int
  nEntryNo : Nat
  _ssExtra : List UInt8

namespace CAccountingentry

/-- `CAccountingentry()`. `nEntryNo` has no value yet. -/
def init (nEntryNo : Nat) : CAccountingentry := ⟨[], 0, 0, [], [], OrderedSet.empty, -1, nEntryNo, []⟩

/-- The position goes to the map, and the map and what else there is behind a
NUL to the comment. -/
def prepare (me : CAccountingentry) : CAccountingentry :=
  let mapValue := writeOrderPos me.nOrderPos me.mapValue
  let ss := if mapValue.toList = [] ∧ me._ssExtra = [] then [] else 0 :: (mapValue.serialize ++ me._ssExtra)
  { me with mapValue := mapValue, strComment := me.strComment ++ ss }

/-- The end of all three actions: the comment up to its first NUL, the map
without the position. -/
def cleanUp (me : CAccountingentry) : CAccountingentry :=
  { me with
    strComment := me.strComment.takeWhile (· ≠ 0)
    mapValue := me.mapValue.erase (toKey (chars "n")) }

variable (fGetHash : Bool) (nVersion : Int)

def write (me : CAccountingentry) : List UInt8 :=
  (if fGetHash then [] else writeInt 4 nVersion) ++ (writeInt 8 me.nCreditDebit ++ (writeInt 8 me.nTime ++
    (serializeBytes me.strOtherAccount ++ serializeBytes me.strComment)))

def size (me : CAccountingentry) : Nat :=
  (if fGetHash then 0 else 4) + 8 + 8 + bytesSize me.strOtherAccount.length + bytesSize me.strComment.length

/-- `Serialize`, and the object after it; `fGetHash` is the flag in `nType`. -/
def serialize (me : CAccountingentry) : List UInt8 × CAccountingentry :=
  (me.prepare.write fGetHash nVersion, me.prepare.cleanUp)

/-- `GetSerializeSize`, an `unsigned int`, and the object after it. -/
def getSerializeSize (me : CAccountingentry) : Nat × CAccountingentry :=
  (me.prepare.size fGetHash % 2 ^ 32, me.prepare.cleanUp)

/-- What lies behind the NUL of a comment: the map, and what is left. -/
def unserializeBehind (strComment _ssExtra : List UInt8) : StreamM (MapValue × List UInt8) := fun s =>
  if 0 ∈ strComment then
    match MapValue.unserialize ⟨(strComment.dropWhile (· ≠ 0)).drop 1, 0⟩ with
    | .ok mapValue ss => .ok (mapValue, ss.vch.drop ss.nReadPos) s
    | .error e _ => .error e s
  else .ok (OrderedSet.empty, _ssExtra) s

/-- The version of the reader is replaced by the one that was written. -/
def readVersion : StreamM Int := if fGetHash then pure nVersion else readInt 4

/-- `Unserialize` into the object `me`. -/
def unserialize (me : CAccountingentry) : StreamM CAccountingentry := do
  let _ ← readVersion fGetHash nVersion
  let nCreditDebit ← readInt 8
  let nTime ← readInt 8
  let strOtherAccount ← unserializeString
  let strComment ← unserializeString
  let behind ← unserializeBehind strComment me._ssExtra
  pure (cleanUp { me with
    nCreditDebit, nTime, strOtherAccount, strComment
    mapValue := behind.1, _ssExtra := behind.2
    nOrderPos := readOrderPos behind.1 })

end CAccountingentry

/-! ## Strings and maps are read back -/

theorem recovers_unserializeString {s : List UInt8} (h : s.length ≤ MAX_SIZE) :
    Recovers wide (serializeBytes s) unserializeString s := by
  refine (recovers_readCompactSize h).bind ?_
  split
  next => exact recovers_read s
  next hzero =>
    obtain rfl : s = [] := List.length_eq_zero_iff.mp (not_not.mp hzero)
    exact recovers_pure

theorem recovers_readChar (c : UInt8) : Recovers wide [c] readChar c := (recovers_read [c]).map

theorem StringPair.recovers {item : StringPair} (h : item.InRange MAX_SIZE) :
    Recovers wide item.serialize StringPair.unserialize item :=
  (recovers_unserializeString h.first).bind (recovers_unserializeString h.second).map

theorem StringPair.length_serialize (item : StringPair) : item.serialize.length = item.size := by
  rw [serialize, List.length_append, length_serializeBytes, length_serializeBytes, size]

namespace MapValue

variable {m : MapValue} {k k' v : List UInt8}

theorem recovers (h : m.InRange MAX_SIZE) : Recovers wide m.serialize MapValue.unserialize m := by
  have hread : Recovers wide m.serialize MapValue.unserialize (m.toList.foldl OrderedSet.insert OrderedSet.empty) :=
    (recovers_unserializeVector h.count fun item hitem => StringPair.recovers (h.items item hitem)).map
  rwa [OrderedSet.foldl_insert_toList] at hread

theorem length_serialize (m : MapValue) : m.serialize.length = m.size :=
  length_serializeVector StringPair.length_serialize m.toList

@[simp] theorem find_set_self : (m.set k v).find (toKey k) = some (k, v) :=
  OrderedSet.find_put_self (s := m) (x := (k, v))

theorem find_set_of_ne (h : toKey k ≠ toKey k') : (m.set k v).find (toKey k') = m.find (toKey k') :=
  OrderedSet.find_put_of_ne h

theorem eraseAll_set {ks : List (List Nat)} (h : toKey k ∈ ks) : (m.set k v).eraseAll ks = m.eraseAll ks :=
  OrderedSet.eraseAll_put h

/-- Nothing is under the keys. -/
def Lacks (m : MapValue) (ks : List (List UInt8)) : Prop := ∀ k ∈ ks, m.count k = false

instance (m : MapValue) (ks : List (List UInt8)) : Decidable (m.Lacks ks) :=
  inferInstanceAs (Decidable (∀ k ∈ ks, m.count k = false))

theorem Lacks.find {ks : List (List UInt8)} (h : m.Lacks ks) (hk : k ∈ ks) : m.find (toKey k) = none := by
  have hcount := h k hk
  rwa [count, Option.isSome_eq_false_iff, Option.isNone_iff_eq_none] at hcount

theorem Lacks.notMem {ks : List (List UInt8)} (h : m.Lacks ks) : ∀ item ∈ m, toKey item.1 ∉ ks.map toKey := by
  intro item hitem hkey
  obtain ⟨k, hk, heq⟩ := List.mem_map.mp hkey
  exact OrderedSet.find_eq_none.mp (h.find hk) item hitem heq.symm

end MapValue

/-! ## The position in the map -/

section OrderPos

variable {m : MapValue} {k : List UInt8} {nOrderPos : Int}

theorem find_writeOrderPos_of_ne (h : toKey (chars "n") ≠ toKey k) :
    (writeOrderPos nOrderPos m).find (toKey k) = m.find (toKey k) := by
  unfold writeOrderPos
  split
  · rfl
  · exact MapValue.find_set_of_ne h

/-- The position is read back, −1 too, which is not written. -/
theorem readOrderPos_of_find {m' : MapValue} (hrange : IntRange 8 nOrderPos) (hnone : m.find (toKey (chars "n")) = none)
    (h : m'.find (toKey (chars "n")) = (writeOrderPos nOrderPos m).find (toKey (chars "n"))) :
    readOrderPos m' = nOrderPos := by
  rw [readOrderPos, MapValue.count, MapValue.get, h, writeOrderPos]
  split
  next heq =>
    rw [hnone]
    exact heq.symm
  next hne =>
    obtain ⟨hlow, hhigh⟩ := hrange
    have hread := @strtoll_printInt nOrderPos (by omega) (by omega) [] (by simp)
    rw [List.append_nil] at hread
    rw [MapValue.find_set_self]
    exact congrArg Prod.fst hread

theorem eraseAll_writeOrderPos {ks : List (List Nat)} (h : toKey (chars "n") ∈ ks) :
    (writeOrderPos nOrderPos m).eraseAll ks = m.eraseAll ks := by
  unfold writeOrderPos
  split
  · rfl
  · exact MapValue.eraseAll_set h

end OrderPos

/-! ## What is asked of a record -/

/-- The bytes are read back as `stored`, as many as were counted, and neither
writing nor counting changes the object. -/
structure Survives {α : Type} (serialize : List UInt8 × α) (getSerializeSize : Nat × α) (unserialize : StreamM α)
    (source stored : α) : Prop where
  read : ∃ s, unserialize ⟨serialize.1, 0⟩ = .ok stored s ∧ wide.rest s = []
  size : getSerializeSize.1 = serialize.1.length
  written : serialize.2 = source
  counted : getSerializeSize.2 = source

theorem survives_of_recovers {α : Type} {bytes : List UInt8} {nSize : Nat} {unserialize : StreamM α}
    {source after stored : α} (hread : Recovers wide bytes unserialize stored) (hsize : bytes.length = nSize)
    (hafter : after = source)
    (hlen : bytes.length < 2 ^ 32) : Survives (bytes, after) (nSize % 2 ^ 32, after) unserialize source stored := by
  obtain ⟨s, hrun, -, hrest⟩ := hread.back (s := ⟨bytes, 0⟩) ⟨Nat.zero_le _, hlen⟩ (List.append_nil _).symm
  exact ⟨⟨s, hrun, hrest⟩, by rw [← hsize]; exact Nat.mod_eq_of_lt hlen, hafter, hafter⟩

/-! ## Transactions of the wallet -/

theorem CMerkleTx.recovers {tx : CMerkleTx} (h : tx.InRange MAX_SIZE) :
    Recovers wide tx.serialize CMerkleTx.unserialize tx := by
  have hbranch : Recovers wide (serializeVector (leBytes 32) tx.vMerkleBranch) (unserializeVector (readUInt 32))
      tx.vMerkleBranch :=
    recovers_unserializeVector h.vMerkleBranch.1 fun hash hhash => recovers_readUInt (h.vMerkleBranch.2 hash hhash)
  exact (recovers_CTransaction h.base).bind ((recovers_readUInt h.hashBlock).bind
    (hbranch.bind (recovers_readInt (by decide) (by decide) h.nIndex).map))

theorem CMerkleTx.length_serialize (tx : CMerkleTx) : tx.serialize.length = tx.size := by
  simp only [serialize, size, List.length_append, CTransaction.length_serialize, length_leBytes, writeInt,
    @length_serializeVector Nat (leBytes 32) (fun _ => 32) fun _ => length_leBytes _ _]
  omega

namespace CWalletTx

/-- The fields are in the ranges of their types; no string, vector or map is
longer than `max`, the map with the entries that are added for writing. -/
structure InRange (max : Nat) (wtx : CWalletTx) : Prop where
  base : wtx.toCMerkleTx.InRange max
  vtxPrev : wtx.vtxPrev.length ≤ max ∧ ∀ tx ∈ wtx.vtxPrev, tx.InRange max
  mapValue : wtx.prepare.mapValue.InRange max
  vOrderForm : wtx.vOrderForm.length ≤ max ∧ ∀ item ∈ wtx.vOrderForm, StringPair.InRange max item
  fTimeReceivedIsTxTime : wtx.fTimeReceivedIsTxTime < 256 ^ 4
  nTimeReceived : wtx.nTimeReceived < 256 ^ 4
  nTimeSmart : wtx.nTimeSmart < 256 ^ 4
  nOrderPos : IntRange 8 wtx.nOrderPos

/-- What is stored of a transaction: of each spent flag, whether it is set. -/
def stored (wtx : CWalletTx) : CWalletTx := { wtx with vfSpent := wtx.vfSpent.map fun f => if f ≠ 0 then 1 else 0 }

variable {wtx : CWalletTx}

/-- The keys of the entries are different strings. -/
theorem find_prepare (h : wtx.mapValue.Lacks reserved) :
    wtx.prepare.mapValue.find (toKey (chars "fromaccount")) = some (chars "fromaccount", wtx.strFromAccount) ∧
    wtx.prepare.mapValue.find (toKey (chars "spent")) = some (chars "spent", spentText wtx.vfSpent) ∧
    wtx.prepare.mapValue.find (toKey (chars "n")) =
      (writeOrderPos wtx.nOrderPos wtx.mapValue).find (toKey (chars "n")) ∧
    wtx.prepare.mapValue.find (toKey (chars "timesmart")) =
      if wtx.nTimeSmart ≠ 0 then some (chars "timesmart", print wtx.nTimeSmart) else none := by
  have htimesmart : wtx.mapValue.find (toKey (chars "timesmart")) = none := h.find (by simp [reserved])
  have hn : wtx.mapValue.find (toKey (chars "n")) = none := h.find (by simp [reserved])
  simp only [prepare]
  refine ⟨?_, ?_, ?_, ?_⟩
  · split
    · rw [MapValue.find_set_of_ne (by decide), find_writeOrderPos_of_ne (by decide),
        MapValue.find_set_of_ne (by decide), MapValue.find_set_self]
    · rw [find_writeOrderPos_of_ne (by decide), MapValue.find_set_of_ne (by decide), MapValue.find_set_self]
  · split
    · rw [MapValue.find_set_of_ne (by decide), find_writeOrderPos_of_ne (by decide), MapValue.find_set_self]
    · rw [find_writeOrderPos_of_ne (by decide), MapValue.find_set_self]
  · have hwrite : ∀ m : MapValue, m.find (toKey (chars "n")) = none →
        (writeOrderPos wtx.nOrderPos m).find (toKey (chars "n")) =
          (writeOrderPos wtx.nOrderPos wtx.mapValue).find (toKey (chars "n")) := by
      intro m hm
      unfold writeOrderPos
      split
      · rw [hm, hn]
      · rw [MapValue.find_set_self, MapValue.find_set_self]
    have hadded : ((wtx.mapValue.set (chars "fromaccount") wtx.strFromAccount).set (chars "spent")
        (spentText wtx.vfSpent)).find (toKey (chars "n")) = none := by
      rw [MapValue.find_set_of_ne (by decide), MapValue.find_set_of_ne (by decide), hn]
    split
    · rw [MapValue.find_set_of_ne (by decide)]
      exact hwrite _ hadded
    · exact hwrite _ hadded
  · split
    · rw [MapValue.find_set_self]
    · rw [find_writeOrderPos_of_ne (by decide), MapValue.find_set_of_ne (by decide),
        MapValue.find_set_of_ne (by decide), htimesmart]

/-- **The object is as it was**: what was added is taken out again. -/
theorem cleanUp_prepare (h : wtx.mapValue.Lacks reserved) : wtx.prepare.cleanUp = wtx := by
  have hmap : wtx.prepare.mapValue.eraseAll (reserved.map toKey) = wtx.mapValue := by
    have hbase : (writeOrderPos wtx.nOrderPos ((wtx.mapValue.set (chars "fromaccount") wtx.strFromAccount).set
        (chars "spent") (spentText wtx.vfSpent))).eraseAll (reserved.map toKey) = wtx.mapValue := by
      rw [eraseAll_writeOrderPos (by decide), MapValue.eraseAll_set (by decide), MapValue.eraseAll_set (by decide)]
      exact OrderedSet.eraseAll_of_notMem h.notMem
    simp only [prepare]
    split
    · rw [MapValue.eraseAll_set (by decide)]
      exact hbase
    · exact hbase
  rw [cleanUp, hmap]
  rfl

/-- What is computed of the map that was read are the fields that were put there. -/
theorem fields_eq (h : wtx.InRange MAX_SIZE) (hlacks : wtx.mapValue.Lacks reserved) (fSpent : UInt8) :
    cleanUp { wtx with
      mapValue := wtx.prepare.mapValue
      strFromAccount := wtx.prepare.mapValue.get (chars "fromaccount")
      vfSpent :=
        if wtx.prepare.mapValue.count (chars "spent") then
          (wtx.prepare.mapValue.get (chars "spent")).map fun c => if c ≠ 48 then 1 else 0
        else List.replicate wtx.vout.length fSpent
      nOrderPos := readOrderPos wtx.prepare.mapValue
      nTimeSmart :=
        if wtx.prepare.mapValue.count (chars "timesmart") then
          ((strtoll (wtx.prepare.mapValue.get (chars "timesmart"))).1 % 2 ^ 32).toNat
        else 0 } = wtx.stored := by
  obtain ⟨hfrom, hspent, hn, hsmart⟩ := find_prepare hlacks
  have hfromaccount : wtx.prepare.mapValue.get (chars "fromaccount") = wtx.strFromAccount := by
    rw [MapValue.get, hfrom]
    rfl
  have hflags : ((spentText wtx.vfSpent).map fun c => if c ≠ 48 then (1 : UInt8) else 0) =
      wtx.vfSpent.map fun f => if f ≠ 0 then 1 else 0 := by
    rw [spentText, List.map_map]
    refine List.map_congr_left fun f _ => ?_
    by_cases hf : f ≠ 0
    · simp [hf]
    · simp [hf]
  have hpos : readOrderPos wtx.prepare.mapValue = wtx.nOrderPos :=
    readOrderPos_of_find h.nOrderPos (hlacks.find (by simp [reserved])) hn
  have htime : (if wtx.prepare.mapValue.count (chars "timesmart") then
      ((strtoll (wtx.prepare.mapValue.get (chars "timesmart"))).1 % 2 ^ 32).toNat else 0) = wtx.nTimeSmart := by
    have hlt := h.nTimeSmart
    rw [MapValue.count, MapValue.get, hsmart]
    by_cases hzero : wtx.nTimeSmart ≠ 0
    · have hread := @strtoll_print wtx.nTimeSmart (by omega) [] (by simp)
      rw [List.append_nil] at hread
      rw [if_pos hzero]
      show ((strtoll (print wtx.nTimeSmart)).1 % 2 ^ 32).toNat = wtx.nTimeSmart
      rw [hread]
      show ((wtx.nTimeSmart : Int) % 2 ^ 32).toNat = wtx.nTimeSmart
      omega
    · rw [if_neg hzero]
      exact (not_not.mp hzero).symm
  have hcount : wtx.prepare.mapValue.count (chars "spent") = true := by rw [MapValue.count, hspent]; rfl
  have hget : wtx.prepare.mapValue.get (chars "spent") = spentText wtx.vfSpent := by
    rw [MapValue.get, hspent]
    rfl
  have hmap := congrArg CWalletTx.mapValue (cleanUp_prepare hlacks)
  rw [hfromaccount, hpos, htime, hcount, hget, if_pos rfl, hflags]
  simp only [cleanUp, stored] at hmap ⊢
  rw [hmap]

theorem recovers (h : wtx.InRange MAX_SIZE) (hlacks : wtx.mapValue.Lacks reserved) :
    Recovers wide wtx.serialize.1 unserialize wtx.stored := by
  have hprev : Recovers wide (serializeVector CMerkleTx.serialize wtx.vtxPrev) (unserializeVector CMerkleTx.unserialize)
      wtx.vtxPrev :=
    recovers_unserializeVector h.vtxPrev.1 fun tx htx => CMerkleTx.recovers (h.vtxPrev.2 tx htx)
  have hform : Recovers wide (serializeVector StringPair.serialize wtx.vOrderForm)
      (unserializeVector StringPair.unserialize) wtx.vOrderForm :=
    recovers_unserializeVector h.vOrderForm.1 fun item hitem => StringPair.recovers (h.vOrderForm.2 item hitem)
  rw [← fields_eq h hlacks wtx.prepare.fSpent]
  exact (CMerkleTx.recovers h.base).bind (hprev.bind ((MapValue.recovers h.mapValue).bind (hform.bind
    ((recovers_readUInt h.fTimeReceivedIsTxTime).bind ((recovers_readUInt h.nTimeReceived).bind
      ((recovers_readChar _).bind (recovers_readChar _).map))))))

theorem length_write (wtx : CWalletTx) : wtx.write.length = wtx.size := by
  simp only [write, size, List.length_append, CMerkleTx.length_serialize, MapValue.length_serialize,
    length_serializeVector CMerkleTx.length_serialize, length_serializeVector StringPair.length_serialize,
    length_leBytes, List.length_singleton]
  omega

end CWalletTx

/-! ## Internal transfers -/

namespace CAccountingentry

/-- The fields are in the ranges of their types; no string or map is longer
than `max`, the comment with what is put behind it. -/
structure InRange (max : Nat) (me : CAccountingentry) : Prop where
  nCreditDebit : IntRange 8 me.nCreditDebit
  nTime : IntRange 8 me.nTime
  strOtherAccount : me.strOtherAccount.length ≤ max
  strComment : me.prepare.strComment.length ≤ max
  mapValue : me.prepare.mapValue.InRange max
  nOrderPos : IntRange 8 me.nOrderPos

/-- What is written behind the comment or under a key is not there already. -/
structure Plain (me : CAccountingentry) : Prop where
  strComment : 0 ∉ me.strComment
  mapValue : me.mapValue.Lacks [chars "n"]

/-- What is stored of a transfer, read into a new object. -/
def stored (nEntryNo : Nat) (me : CAccountingentry) : CAccountingentry :=
  { me with strAccount := [], nEntryNo := nEntryNo }

variable {me : CAccountingentry} {fGetHash : Bool} {nVersion : Int}

/-- Behind the comment there is nothing, if there is nothing to put there, or
a NUL with the map and the rest. -/
theorem prepare_cases (me : CAccountingentry) :
    (me.prepare.strComment = me.strComment ∧ me.prepare.mapValue = OrderedSet.empty ∧ me._ssExtra = []) ∨
      me.prepare.strComment = me.strComment ++ 0 :: (me.prepare.mapValue.serialize ++ me._ssExtra) := by
  simp only [prepare]
  split
  next hempty =>
    refine .inl ⟨List.append_nil _, ?_, hempty.2⟩
    obtain ⟨⟨l, hl⟩, hm⟩ : ∃ m, writeOrderPos me.nOrderPos me.mapValue = m := ⟨_, rfl⟩
    rw [hm] at hempty ⊢
    obtain rfl : l = [] := hempty.1
    rfl
  next => exact .inr rfl

theorem takeWhile_prepare (h : 0 ∉ me.strComment) : me.prepare.strComment.takeWhile (· ≠ 0) = me.strComment := by
  have hall : ∀ c ∈ me.strComment, decide (c ≠ 0) = true := fun c hc => by
    simp only [ne_eq, decide_not, Bool.not_eq_eq_eq_not, Bool.not_true, decide_eq_false_iff_not]
    rintro rfl
    exact h hc
  rcases prepare_cases me with ⟨hcomment, -⟩ | hcomment
  · rw [hcomment]
    exact List.takeWhile_eq_self_iff.mpr hall
  · rw [hcomment, List.takeWhile_append_of_pos hall]
    simp

theorem erase_prepare (h : me.mapValue.Lacks [chars "n"]) :
    me.prepare.mapValue.erase (toKey (chars "n")) = me.mapValue := by
  have herase := @eraseAll_writeOrderPos me.mapValue me.nOrderPos [toKey (chars "n")] List.mem_cons_self
  exact herase.trans (OrderedSet.eraseAll_of_notMem h.notMem)

theorem cleanUp_prepare (h : me.Plain) : me.prepare.cleanUp = me := by
  rw [cleanUp, takeWhile_prepare h.strComment, erase_prepare h.mapValue]
  rfl

theorem readOrderPos_prepare (h : me.InRange MAX_SIZE) (hplain : me.Plain) :
    readOrderPos me.prepare.mapValue = me.nOrderPos :=
  readOrderPos_of_find h.nOrderPos (hplain.mapValue.find List.mem_cons_self) rfl

/-- The map and the rest are found behind the first NUL. -/
theorem recovers_unserializeBehind (h : me.InRange MAX_SIZE) (hplain : me.Plain) :
    Recovers wide [] (unserializeBehind me.prepare.strComment []) (me.prepare.mapValue, me._ssExtra) := by
  constructor
  intro s more hs hrest
  refine ⟨s, ?_, hs, hrest⟩
  rw [unserializeBehind]
  rcases prepare_cases me with ⟨hcomment, hmap, hextra⟩ | hcomment
  · rw [hcomment, if_neg hplain.strComment, hmap, hextra]
  · have hmem : (0 : UInt8) ∈ me.prepare.strComment := by simp [hcomment]
    have hbehind : (me.prepare.strComment.dropWhile (· ≠ 0)).drop 1 = me.prepare.mapValue.serialize ++ me._ssExtra := by
      have hall : ∀ c ∈ me.strComment, decide (c ≠ 0) = true := fun c hc => by
        simp only [ne_eq, decide_not, Bool.not_eq_eq_eq_not, Bool.not_true, decide_eq_false_iff_not]
        rintro rfl
        exact hplain.strComment hc
      rw [hcomment, List.dropWhile_append_of_pos hall]
      simp
    have hok : wide.Ok ⟨me.prepare.mapValue.serialize ++ me._ssExtra, 0⟩ := by
      refine ⟨Nat.zero_le _, ?_⟩
      have hlen := h.strComment
      have hmax : MAX_SIZE < 2 ^ 32 := by decide
      rw [hcomment, List.length_append, List.length_cons] at hlen
      simp only
      omega
    obtain ⟨ss, hread, -, hleft⟩ := (MapValue.recovers h.mapValue).back hok rfl
    rw [if_pos hmem, hbehind, hread]
    simp only [wide] at hleft
    simp only [hleft]

theorem recovers (h : me.InRange MAX_SIZE) (hplain : me.Plain) (hversion : IntRange 4 nVersion) (nEntryNo : Nat) :
    Recovers wide (me.serialize fGetHash nVersion).1 (unserialize fGetHash nVersion (init nEntryNo))
      (me.stored nEntryNo) := by
  have hfields : cleanUp { init nEntryNo with
      nCreditDebit := me.nCreditDebit, nTime := me.nTime, strOtherAccount := me.strOtherAccount
      strComment := me.prepare.strComment, mapValue := me.prepare.mapValue, _ssExtra := me._ssExtra
      nOrderPos := readOrderPos me.prepare.mapValue } = me.stored nEntryNo := by
    rw [readOrderPos_prepare h hplain, cleanUp]
    simp only [takeWhile_prepare hplain.strComment, erase_prepare hplain.mapValue]
    rfl
  have hhead : Recovers wide (if fGetHash then [] else writeInt 4 nVersion)
      (readVersion fGetHash nVersion) nVersion := by
    cases fGetHash with
    | false => exact recovers_readInt (by decide) (by decide) hversion
    | true => exact recovers_pure
  have hread : Recovers wide ((if fGetHash then [] else writeInt 4 nVersion) ++ (writeInt 8 me.nCreditDebit ++
      (writeInt 8 me.nTime ++ (serializeBytes me.strOtherAccount ++ (serializeBytes me.prepare.strComment ++ [])))))
      (unserialize fGetHash nVersion (init nEntryNo)) (me.stored nEntryNo) := by
    rw [← hfields]
    exact hhead.bind ((recovers_readInt (by decide) (by decide) h.nCreditDebit).bind
      ((recovers_readInt (by decide) (by decide) h.nTime).bind ((recovers_unserializeString h.strOtherAccount).bind
        ((recovers_unserializeString h.strComment).bind (recovers_unserializeBehind h hplain).map))))
  rwa [List.append_nil] at hread

theorem length_write (me : CAccountingentry) : (me.write fGetHash nVersion).length = me.size fGetHash := by
  cases fGetHash <;>
    simp only [write, size, List.length_append, writeInt, length_leBytes, length_serializeBytes, Bool.false_eq_true,
      if_false, if_true, List.length_nil] <;>
    omega

theorem length_serialize_lt (h : me.InRange MAX_SIZE) : (me.serialize fGetHash nVersion).1.length < 2 ^ 32 := by
  have hother := h.strOtherAccount
  have hcomment := h.strComment
  have hmax : MAX_SIZE = 33554432 := rfl
  have hcount : ∀ n, getSizeOfCompactSize n ≤ 9 := fun n => by
    rw [getSizeOfCompactSize]
    split_ifs <;> omega
  have hother' := hcount me.prepare.strOtherAccount.length
  have hcomment' := hcount me.prepare.strComment.length
  have hsame : me.prepare.strOtherAccount = me.strOtherAccount := rfl
  show (me.prepare.write fGetHash nVersion).length < 2 ^ 32
  rw [length_write, size, bytesSize, bytesSize, hsame]
  rw [hsame] at hother'
  split <;> omega

/-- A comment that is over `MAX_SIZE` is not read. -/
theorem refuses_long (hrange : me.InRange SIZE_MAX) (hother : me.strOtherAccount.length ≤ MAX_SIZE)
    (hlong : MAX_SIZE < me.prepare.strComment.length) (hversion : IntRange 4 nVersion) (nEntryNo : Nat) :
    Refuses wide (me.serialize false nVersion).1 (unserialize false nVersion (init nEntryNo))
      "ReadCompactSize() : size too large" :=
  (recovers_readInt (by decide) (by decide) hversion).refuses
    ((recovers_readInt (by decide) (by decide) hrange.nCreditDebit).refuses
      ((recovers_readInt (by decide) (by decide) hrange.nTime).refuses ((recovers_unserializeString hother).refuses
        (((refuses_readCompactSize hlong (lt_of_le_SIZE_MAX hrange.strComment)).append).bind.bind))))

end CAccountingentry

/-! ## Records survive storage -/

/-- **Records survive storage**, where nothing is longer than a reader takes
and an `unsigned int` can count the bytes. -/
theorem records_survive {wtx : CWalletTx} (hwtx : wtx.InRange MAX_SIZE) (hlacks : wtx.mapValue.Lacks CWalletTx.reserved)
    (hlen : wtx.serialize.1.length < 2 ^ 32) {me : CAccountingentry} (hme : me.InRange MAX_SIZE) (hplain : me.Plain)
    (fGetHash : Bool) {nVersion : Int} (hversion : IntRange 4 nVersion) (nEntryNo : Nat) :
    Survives wtx.serialize wtx.getSerializeSize CWalletTx.unserialize wtx wtx.stored ∧
      Survives (me.serialize fGetHash nVersion) (me.getSerializeSize fGetHash)
        (CAccountingentry.unserialize fGetHash nVersion (CAccountingentry.init nEntryNo)) me (me.stored nEntryNo) :=
  ⟨survives_of_recovers (CWalletTx.recovers hwtx hlacks) (CWalletTx.length_write _)
      (CWalletTx.cleanUp_prepare hlacks) hlen,
    survives_of_recovers (CAccountingentry.recovers hme hplain hversion nEntryNo) (CAccountingentry.length_write _)
      (CAccountingentry.cleanUp_prepare hplain) (CAccountingentry.length_serialize_lt hme)⟩

namespace Sample

def walletTx : CWalletTx :=
  { toCMerkleTx := ⟨⟨1, 5, [], [⟨7, [0x51]⟩, ⟨8, []⟩], 0⟩, 9, [3], -1⟩, vtxPrev := []
    mapValue := MapValue.set OrderedSet.empty (chars "to") (chars "x"), vOrderForm := [(chars "k", [])]
    fTimeReceivedIsTxTime := 0, nTimeReceived := 6, nTimeSmart := 1234, fFromMe := 1, strFromAccount := chars "a"
    vfSpent := [0, 3], nOrderPos := -5 }

def entry : CAccountingentry :=
  { CAccountingentry.init 4 with
    nCreditDebit := -10, nTime := 100, strOtherAccount := chars "b", strComment := chars "note"
    mapValue := MapValue.set OrderedSet.empty (chars "to") (chars "x"), nOrderPos := 12, _ssExtra := [0, 1] }

/-- A comment of one character more than a string may have. -/
def longEntry : CAccountingentry := { CAccountingentry.init 0 with strComment := List.replicate (MAX_SIZE + 1) 65 }

end Sample

theorem MapValue.inRange_of_items {m : MapValue} (h : m.toList.length ≤ MAX_SIZE ∧
    ∀ item ∈ m.toList, item.1.length ≤ MAX_SIZE ∧ item.2.length ≤ MAX_SIZE) : m.InRange MAX_SIZE :=
  ⟨h.1, fun item hitem => ⟨(h.2 item hitem).1, (h.2 item hitem).2⟩⟩

theorem inRange_walletTx : Sample.walletTx.InRange MAX_SIZE := by
  have hout : ∀ txout ∈ Sample.walletTx.vout, IntRange 8 txout.nValue ∧ txout.scriptPubKey.length ≤ MAX_SIZE := by
    decide +kernel
  refine ⟨⟨⟨by decide, by decide, ⟨by decide, fun txin htxin => nomatch htxin⟩, ⟨by decide, fun txout htxout => ?_⟩,
    by decide⟩, by decide, by decide, by decide⟩, ⟨by decide, fun tx htx => nomatch htx⟩,
    MapValue.inRange_of_items (by decide +kernel), ⟨by decide, fun item hitem => ?_⟩, by decide, by decide, by decide,
    by decide⟩
  · exact ⟨(hout txout htxout).1, (hout txout htxout).2⟩
  · obtain rfl := List.mem_singleton.mp hitem
    exact ⟨by decide, by decide⟩

theorem inRange_entry : Sample.entry.InRange MAX_SIZE :=
  ⟨by decide, by decide, by decide, by decide +kernel, MapValue.inRange_of_items (by decide +kernel), by decide⟩

theorem records_survive_sample :
    Survives Sample.walletTx.serialize Sample.walletTx.getSerializeSize CWalletTx.unserialize Sample.walletTx
        Sample.walletTx.stored ∧
      Survives (Sample.entry.serialize false 60000) (Sample.entry.getSerializeSize false)
        (CAccountingentry.unserialize false 60000 (CAccountingentry.init 1)) Sample.entry (Sample.entry.stored 1) :=
  records_survive inRange_walletTx (by decide +kernel) (by decide +kernel) inRange_entry
    ⟨by decide, by decide +kernel⟩ false (by decide) 1

/-- A string over `MAX_SIZE` is written and counted, but not read. -/
theorem not_records_survive : ¬ ((∀ wtx : CWalletTx, wtx.InRange SIZE_MAX → wtx.mapValue.Lacks CWalletTx.reserved →
      Survives wtx.serialize wtx.getSerializeSize CWalletTx.unserialize wtx wtx.stored) ∧
    ∀ me : CAccountingentry, me.InRange SIZE_MAX → me.Plain → ∀ (fGetHash : Bool) (nVersion : Int) (nEntryNo : Nat),
      IntRange 4 nVersion → Survives (me.serialize fGetHash nVersion) (me.getSerializeSize fGetHash)
        (CAccountingentry.unserialize fGetHash nVersion (CAccountingentry.init nEntryNo)) me (me.stored nEntryNo)) := by
  intro hall
  have hcomment : Sample.longEntry.prepare.strComment = List.replicate (MAX_SIZE + 1) 65 := List.append_nil _
  have hlength : Sample.longEntry.prepare.strComment.length = MAX_SIZE + 1 := by rw [hcomment, List.length_replicate]
  have hmap : Sample.longEntry.prepare.mapValue = OrderedSet.empty := rfl
  have hrange : Sample.longEntry.InRange SIZE_MAX := by
    refine ⟨by decide, by decide, Nat.zero_le _, ?_, ?_, by decide⟩
    · rw [hlength]
      decide
    · rw [hmap]
      exact ⟨Nat.zero_le _, fun item hitem => nomatch hitem⟩
  have hplain : Sample.longEntry.Plain := by
    refine ⟨fun hmem => ?_, by decide⟩
    have heq := List.eq_of_mem_replicate hmem
    exact absurd heq (by decide)
  obtain ⟨s, hread, -⟩ := (hall.2 _ hrange hplain false 0 0 (by decide)).read
  have hok : wide.Ok ⟨(Sample.longEntry.serialize false 0).1, 0⟩ := by
    refine ⟨Nat.zero_le _, ?_⟩
    show (Sample.longEntry.prepare.write false 0).length < 2 ^ 32
    rw [CAccountingentry.length_write, CAccountingentry.size, hlength]
    decide
  have hrefuses := @CAccountingentry.refuses_long _ 0 hrange (Nat.zero_le _) (by rw [hlength]; decide) (by decide) 0
  obtain ⟨s', herror⟩ := hrefuses.back hok (List.append_nil _).symm
  rw [hread] at herror
  exact nomatch herror

end Pinkcoin.Record
