/-
The memory pool: the loose transactions by hash, and for each outpoint one
of them spends, which one and through which input.
-/
import Pinkcoin.Params

namespace Pinkcoin

/-- A `CInPoint` points to a transaction of `mapTx`; here it holds its hash. -/
structure CInPoint where
  ptx : Uint256
  n : Nat
  deriving DecidableEq, Repr

structure CTxMemPool where
  mapTx : Map Uint256 CTransaction
  mapNextTx : Map COutPoint CInPoint

namespace CTxMemPool

def empty : CTxMemPool := ⟨∅, ∅⟩

def lookup (pool : CTxMemPool) (hash : Uint256) : Option CTransaction := pool.mapTx.lookup hash

/-- The pool transaction `mapNextTx` points to from an outpoint. -/
def spender (pool : CTxMemPool) (o : COutPoint) : Option CTransaction :=
  (pool.mapNextTx.lookup o).bind fun inpoint => pool.lookup inpoint.ptx

def addUnchecked (pool : CTxMemPool) (hash : Uint256) (tx : CTransaction) : CTxMemPool where
  mapTx := pool.mapTx.insert hash tx
  mapNextTx := tx.vin.zipIdx.foldl (fun m (txin, i) => m.insert txin.prevout ⟨hash, i⟩) pool.mapNextTx

/-- Take one transaction out, and the outpoints it spends. -/
def erase (pool : CTxMemPool) (hash : Uint256) (tx : CTransaction) : CTxMemPool where
  mapTx := pool.mapTx.erase hash
  mapNextTx := tx.vin.foldl (fun m txin => m.erase txin.prevout) pool.mapNextTx

/-- The recursion of `remove`. It goes from a transaction to one that
spends its outputs, so the pool's size is fuel enough. -/
def removeLoop (P : Params) : Nat → CTxMemPool → CTransaction → Bool → CTxMemPool
  | 0, pool, _, _ => pool
  | fuel + 1, pool, tx, fRecursive =>
    let hash := tx.getHash P
    if (pool.lookup hash).isSome then
      let pool' :=
        if fRecursive then
          (List.range tx.vout.length).foldl (fun pool i =>
            match pool.spender ⟨hash, i⟩ with
            | some txNext => removeLoop P fuel pool txNext true
            | none => pool) pool
        else pool
      pool'.erase hash tx
    else pool

def remove (P : Params) (pool : CTxMemPool) (tx : CTransaction) (fRecursive : Bool) : CTxMemPool :=
  removeLoop P (pool.mapTx.keys.length + 1) pool tx fRecursive

/-- Remove the other transactions that spend an input of `tx`, and theirs. -/
def removeConflicts (P : Params) (pool : CTxMemPool) (tx : CTransaction) : CTxMemPool :=
  tx.vin.foldl (fun pool txin =>
    match pool.spender txin.prevout with
    | some txConflict => if txConflict ≠ tx then pool.remove P txConflict true else pool
    | none => pool) pool

end CTxMemPool

end Pinkcoin
