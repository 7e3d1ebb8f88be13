/-
The transaction database: `CTxDB` over the batch store. Each kind of record
has keys and values of its own, as the source's string prefixes give them.
-/
import Pinkcoin.Params
import Pinkcoin.Lib.BatchStore

namespace Pinkcoin

/-- The keys of the database. -/
inductive DbKey
  | tx (hash : Uint256)
  | blockindex (hash : Uint256)
  | hashBestChain
  | hashSyncCheckpoint
  | strCheckpointPubKey
  deriving DecidableEq, Repr

/-- What is stored under a key. -/
abbrev DbKey.Value : DbKey → Type
  | .tx _ => CTxIndex
  | .blockindex _ => CDiskBlockIndex
  | .hashBestChain => Uint256
  | .hashSyncCheckpoint => Uint256
  | .strCheckpointPubKey => String

/-- The database and the batch the open transaction gathers. -/
abbrev CTxDB := BatchStore.Store DbKey.Value

/-- What one commit writes. -/
abbrev WriteBatch := List (BatchStore.Op DbKey.Value)

namespace CTxDB

variable (txdb : CTxDB)

def txnBegin : CTxDB := txdb.begin
def txnAbort : CTxDB := txdb.abort

def readTxIndex (hash : Uint256) : Option CTxIndex := txdb.read (.tx hash)
def updateTxIndex (hash : Uint256) (txindex : CTxIndex) : CTxDB := txdb.write (.tx hash) txindex
def eraseTxIndex (P : Params) (tx : CTransaction) : CTxDB := txdb.erase (.tx (tx.getHash P))

/-- `Exists(("tx", hash))`: a value in the open batch, or else a record in
the base, even where the batch deletes it. -/
def containsTx (hash : Uint256) : Bool :=
  match BatchStore.scan (DbKey.tx hash) txdb.ops with
  | some (some _) => true
  | _ => (txdb.base.lookup (.tx hash)).isSome

def writeBlockIndex (P : Params) (blockindex : CDiskBlockIndex) : CTxDB :=
  txdb.write (.blockindex (P.scryptBlockHash blockindex.header)) blockindex

def readHashBestChain : Option Uint256 := txdb.read .hashBestChain
def writeHashBestChain (hash : Uint256) : CTxDB := txdb.write .hashBestChain hash
def readSyncCheckpoint : Option Uint256 := txdb.read .hashSyncCheckpoint
def writeSyncCheckpoint (hash : Uint256) : CTxDB := txdb.write .hashSyncCheckpoint hash
def writeCheckpointPubKey (strPubKey : String) : CTxDB := txdb.write .strCheckpointPubKey strPubKey

/-- The queued changes of a block, written one after the other. -/
def updateAll (mapQueuedChanges : Map Uint256 CTxIndex) : CTxDB :=
  mapQueuedChanges.entries.foldl (fun db e => db.updateTxIndex e.1 e.2) txdb

end CTxDB

/-! ## What a write changes -/

namespace CTxDB

open BatchStore

variable {txdb : CTxDB} {P : Params}

@[simp] theorem readTxIndex_updateTxIndex (h k : Uint256) (e : CTxIndex) :
    (txdb.updateTxIndex h e).readTxIndex k = if k = h then some e else txdb.readTxIndex k := by
  by_cases hk : k = h
  · subst hk; simp [readTxIndex, updateTxIndex]
  · simp [readTxIndex, updateTxIndex, hk, read_write_of_ne]

@[simp] theorem readTxIndex_eraseTxIndex (tx : CTransaction) (k : Uint256) :
    (txdb.eraseTxIndex P tx).readTxIndex k = if k = tx.getHash P then none else txdb.readTxIndex k := by
  by_cases hk : k = tx.getHash P
  · subst hk; simp [readTxIndex, eraseTxIndex]
  · simp [readTxIndex, eraseTxIndex, hk, read_erase_of_ne]

@[simp] theorem readTxIndex_writeBlockIndex (d : CDiskBlockIndex) (k : Uint256) :
    (txdb.writeBlockIndex P d).readTxIndex k = txdb.readTxIndex k := read_write_of_ne (by simp)

@[simp] theorem readTxIndex_writeHashBestChain (h k : Uint256) :
    (txdb.writeHashBestChain h).readTxIndex k = txdb.readTxIndex k := read_write_of_ne (by simp)

@[simp] theorem readHashBestChain_writeHashBestChain (h : Uint256) :
    (txdb.writeHashBestChain h).readHashBestChain = some h := read_write

theorem readTxIndex_updateAll (queue : Map Uint256 CTxIndex) (k : Uint256) :
    (txdb.updateAll queue).readTxIndex k = (queue.lookup k).or (txdb.readTxIndex k) := by
  obtain ⟨entries, hnd⟩ := queue
  change (entries.foldl (fun db (e : Sigma fun _ => CTxIndex) => updateTxIndex db e.1 e.2) txdb).readTxIndex k =
    (entries.dlookup k).or _
  induction entries generalizing txdb with
  | nil => rfl
  | cons e entries ih =>
    rw [List.foldl_cons, ih (List.nodupKeys_cons.mp hnd).2, readTxIndex_updateTxIndex]
    by_cases hk : k = e.1
    · have hnone : entries.dlookup k = none := List.dlookup_eq_none.mpr (hk ▸ (List.nodupKeys_cons.mp hnd).1)
      obtain ⟨h, v⟩ := e
      subst hk
      simp [hnone, List.dlookup_cons_eq]
    · rw [if_neg hk, List.dlookup_cons_ne _ e hk]

end CTxDB

end Pinkcoin
