/-
The memory pool keeps two maps, the transactions and which of them spends an
outpoint. `Linked` says that the second is the index of the first; adding a
transaction that meets no other spender keeps it, and so does taking one
out, with its descendants or without.
-/
import Pinkcoin.MemPool

namespace Pinkcoin

namespace CTxMemPool

variable {P : Params} {pool pool' pool'' : CTxMemPool} {tx u : CTransaction} {h hash : Uint256} {o : COutPoint}

/-- The outpoint is spent by an input of the transaction. -/
def Spends (tx : CTransaction) (o : COutPoint) : Prop := ∃ txin ∈ tx.vin, txin.prevout = o

/-- `mapNextTx` is the index of `mapTx`: it leads from an outpoint to the one
transaction of the pool that spends it. -/
structure Linked (P : Params) (pool : CTxMemPool) : Prop where
  hash : ∀ {h tx}, pool.lookup h = some tx → tx.getHash P = h
  sound : ∀ {o p}, pool.mapNextTx.lookup o = some p → ∃ tx, pool.lookup p.ptx = some tx ∧ Spends tx o
  complete : ∀ {h tx o}, pool.lookup h = some tx → Spends tx o → ∃ p, pool.mapNextTx.lookup o = some p ∧ p.ptx = h

theorem linked_empty : Linked P empty := ⟨by simp [lookup, empty], by simp [empty], by simp [lookup, empty]⟩

/-- No two transactions of the pool spend the same outpoint. -/
theorem Linked.unique (hl : Linked P pool) (ht : pool.lookup h = some tx) (hu : pool.lookup hash = some u)
    (hto : Spends tx o) (huo : Spends u o) : h = hash := by
  obtain ⟨p, hp, rfl⟩ := hl.complete ht hto
  obtain ⟨q, hq, rfl⟩ := hl.complete hu huo
  rw [Option.some.inj (hp.symm.trans hq)]

theorem Linked.spender (hl : Linked P pool) : pool.spender o = some u ↔ ∃ h, pool.lookup h = some u ∧ Spends u o := by
  rw [CTxMemPool.spender, Option.bind_eq_some_iff]
  constructor
  · rintro ⟨p, hp, hu⟩
    obtain ⟨tx, htx, ho⟩ := hl.sound hp
    obtain rfl := Option.some.inj (hu.symm.trans htx)
    exact ⟨p.ptx, hu, ho⟩
  · rintro ⟨h, hu, ho⟩
    obtain ⟨p, hp, rfl⟩ := hl.complete hu ho
    exact ⟨p, hp, hu⟩

/-! ## Adding a transaction -/

theorem lookup_addNext (hash : Uint256) (vin : List CTxIn) (k : Nat) (m : Map COutPoint CInPoint) (o : COutPoint) :
    (∃ i, ((vin.zipIdx k).foldl (fun m (txin, i) => m.insert txin.prevout ⟨hash, i⟩) m).lookup o = some ⟨hash, i⟩ ∧
        ∃ txin ∈ vin, txin.prevout = o) ∨
      ((vin.zipIdx k).foldl (fun m (txin, i) => m.insert txin.prevout ⟨hash, i⟩) m).lookup o = m.lookup o ∧
        ∀ txin ∈ vin, txin.prevout ≠ o := by
  induction vin generalizing k m with
  | nil => exact .inr ⟨rfl, by simp⟩
  | cons txin vin ih =>
    rw [List.zipIdx_cons, List.foldl_cons]
    rcases ih (k + 1) (m.insert txin.prevout ⟨hash, k⟩) with ⟨i, hi, t, ht, hto⟩ | ⟨hrest, hne⟩
    · exact .inl ⟨i, hi, t, List.mem_cons_of_mem _ ht, hto⟩
    · rw [hrest]
      by_cases ho : o = txin.prevout
      · rw [ho, AList.lookup_insert]
        exact .inl ⟨k, rfl, txin, List.mem_cons_self, rfl⟩
      · rw [AList.lookup_insert_ne ho]
        exact .inr ⟨rfl, List.forall_mem_cons.mpr ⟨Ne.symm ho, hne⟩⟩

theorem lookup_addUnchecked (h : Uint256) :
    (pool.addUnchecked hash tx).lookup h = if h = hash then some tx else pool.lookup h := by
  by_cases hh : h = hash
  · rw [if_pos hh, hh]
    exact AList.lookup_insert _
  · rw [if_neg hh]
    exact AList.lookup_insert_ne hh

/-- A new transaction whose outpoints nothing in the pool spends. -/
theorem Linked.add (hl : Linked P pool) (hnew : pool.lookup (tx.getHash P) = none)
    (hfree : ∀ txin ∈ tx.vin, pool.mapNextTx.lookup txin.prevout = none) :
    Linked P (pool.addUnchecked (tx.getHash P) tx) := by
  have hnext := lookup_addNext (tx.getHash P) tx.vin 0 pool.mapNextTx
  refine ⟨fun {h u} hu => ?_, fun {o p} hp => ?_, fun {h u o} hu ho => ?_⟩
  · rw [lookup_addUnchecked] at hu
    split at hu
    next hh => rw [← Option.some.inj hu, hh]
    next => exact hl.hash hu
  · rcases hnext o with ⟨i, hi, hspends⟩ | ⟨hold, -⟩
    · obtain rfl := Option.some.inj (hi.symm.trans hp)
      exact ⟨tx, by rw [lookup_addUnchecked, if_pos rfl], hspends⟩
    · obtain ⟨u, hu, ho⟩ := hl.sound (hold.symm.trans hp)
      refine ⟨u, ?_, ho⟩
      rw [lookup_addUnchecked, if_neg, hu]
      intro he
      rw [he, hnew] at hu
      simp at hu
  · rw [lookup_addUnchecked] at hu
    rcases hnext o with ⟨i, hi, t, ht, hto⟩ | ⟨hold, hne⟩
    · refine ⟨_, hi, ?_⟩
      split at hu
      next hh => exact hh.symm
      next =>
        -- the outpoint was free
        obtain ⟨p, hp, -⟩ := hl.complete hu ho
        rw [← hto, hfree t ht] at hp
        simp at hp
    · split at hu
      next =>
        obtain rfl := Option.some.inj hu
        obtain ⟨t, ht, hto⟩ := ho
        exact absurd hto (hne t ht)
      next =>
        obtain ⟨p, hp, hptx⟩ := hl.complete hu ho
        exact ⟨p, hold.trans hp, hptx⟩

/-! ## Taking transactions out -/

/-- Everything in the first pool is in the second one. -/
structure Sub (pool' pool : CTxMemPool) : Prop where
  tx : ∀ {h tx}, pool'.lookup h = some tx → pool.lookup h = some tx
  next : ∀ {o p}, pool'.mapNextTx.lookup o = some p → pool.mapNextTx.lookup o = some p

theorem Sub.refl : Sub pool pool := ⟨fun h => h, fun h => h⟩

theorem Sub.trans (h : Sub pool'' pool') (h' : Sub pool' pool) : Sub pool'' pool :=
  ⟨fun hl => h'.tx (h.tx hl), fun hl => h'.next (h.next hl)⟩

theorem lookup_eraseNext (vin : List CTxIn) (m : Map COutPoint CInPoint) (o : COutPoint) :
    (vin.foldl (fun m txin => m.erase txin.prevout) m).lookup o =
      if ∃ txin ∈ vin, txin.prevout = o then none else m.lookup o := by
  induction vin generalizing m with
  | nil => simp
  | cons txin vin ih =>
    rw [List.foldl_cons, ih]
    by_cases ho : o = txin.prevout
    · subst ho
      simp
    · simp [AList.lookup_erase_ne ho, Ne.symm ho]

theorem lookup_erase (h : Uint256) : (pool.erase hash tx).lookup h = if h = hash then none else pool.lookup h := by
  by_cases hh : h = hash
  · rw [if_pos hh, hh]
    exact AList.lookup_erase _ _
  · rw [if_neg hh]
    exact AList.lookup_erase_ne hh

theorem next_erase (o : COutPoint) [Decidable (Spends tx o)] :
    (pool.erase hash tx).mapNextTx.lookup o = if Spends tx o then none else pool.mapNextTx.lookup o := by
  rw [erase, lookup_eraseNext]
  exact if_congr Iff.rfl rfl rfl

theorem sub_erase : Sub (pool.erase hash tx) pool := by
  classical
  refine ⟨fun {h u} hu => ?_, fun {o p} hp => ?_⟩
  · rw [lookup_erase] at hu
    split at hu
    next => simp at hu
    next => exact hu
  · rw [next_erase] at hp
    split at hp
    next => simp at hp
    next => exact hp

/-- A transaction is taken out of a part of a pool that holds it. -/
theorem Linked.erase (hl : Linked P pool') (hsub : Sub pool' pool) (hpool : Linked P pool)
    (htx : pool.lookup hash = some tx) : Linked P (pool'.erase hash tx) := by
  classical
  refine ⟨fun {h u} hu => hl.hash (sub_erase.tx hu), fun {o p} hp => ?_, fun {h u o} hu ho => ?_⟩
  · rw [next_erase] at hp
    split at hp
    next => simp at hp
    next hno =>
      obtain ⟨u, hu, ho⟩ := hl.sound hp
      refine ⟨u, ?_, ho⟩
      rw [lookup_erase, if_neg, hu]
      intro he
      rw [he] at hu
      obtain rfl := Option.some.inj (htx.symm.trans (hsub.tx hu))
      exact hno ho
  · rw [lookup_erase] at hu
    split at hu
    next => simp at hu
    next hh =>
      obtain ⟨p, hp, hptx⟩ := hl.complete hu ho
      refine ⟨p, ?_, hptx⟩
      rw [next_erase, if_neg, hp]
      -- what spends the outpoint in the part spends it in the pool
      exact fun hto => hh (hpool.unique (hsub.tx hu) htx ho hto)

/-- What a transaction's removal keeps: the pool stays linked, and nothing is
added to it. -/
structure Shrinks (P : Params) (pool pool' : CTxMemPool) : Prop where
  linked : Linked P pool → Linked P pool'
  sub : Linked P pool → Sub pool' pool

theorem Shrinks.refl : Shrinks P pool pool := ⟨fun h => h, fun _ => .refl⟩

theorem Shrinks.trans (h : Shrinks P pool pool') (h' : Shrinks P pool' pool'') : Shrinks P pool pool'' :=
  ⟨fun hl => h'.linked (h.linked hl), fun hl => (h'.sub (h.linked hl)).trans (h.sub hl)⟩

theorem shrinks_foldl {A : Type} {f : CTxMemPool → A → CTxMemPool} (hf : ∀ pool a, Shrinks P pool (f pool a)) (l : List A)
    (pool : CTxMemPool) : Shrinks P pool (l.foldl f pool) := by
  induction l generalizing pool with
  | nil => exact .refl
  | cons a l ih => exact (hf pool a).trans (ih (f pool a))

/-- The pool holds no other transaction under the hash of `tx`. -/
def Knows (P : Params) (pool : CTxMemPool) (tx : CTransaction) : Prop :=
  ∀ u, pool.lookup (tx.getHash P) = some u → u = tx

theorem Linked.knows (hl : Linked P pool) (hu : pool.lookup h = some u) : Knows P pool u := by
  intro v hv
  rw [hl.hash hu] at hv
  exact Option.some.inj (hv.symm.trans hu)

/-- A removal erases the transaction, after those that it drops before it. -/
theorem removeLoop_spec (fuel : Nat) (fRecursive : Bool) (hk : Linked P pool → Knows P pool tx) :
    Shrinks P pool (removeLoop P fuel pool tx fRecursive) := by
  induction fuel generalizing pool tx fRecursive with
  | zero => exact .refl
  | succ fuel ih =>
    rw [removeLoop]
    split
    next hsome =>
      obtain ⟨u, hu⟩ := Option.isSome_iff_exists.mp hsome
      have herase : ∀ {before : CTxMemPool}, Shrinks P pool before → Shrinks P pool (before.erase (tx.getHash P) tx) := by
        intro before hbefore
        refine ⟨fun hl => ?_, fun hl => sub_erase.trans (hbefore.sub hl)⟩
        obtain rfl := hk hl u hu
        exact (hbefore.linked hl).erase (hbefore.sub hl) hl hu
      refine herase ?_
      split
      · refine shrinks_foldl (fun pool i => ?_) _ pool
        split
        next txNext hnext =>
          refine ih true fun hl => ?_
          obtain ⟨h, hlook, -⟩ := hl.spender.mp hnext
          exact hl.knows hlook
        next => exact .refl
      · exact .refl
    next => exact .refl

/-- `remove`, of a transaction of the pool or of one that is not in it. -/
theorem shrinks_remove (fRecursive : Bool) (hk : Linked P pool → Knows P pool tx) :
    Shrinks P pool (pool.remove P tx fRecursive) := removeLoop_spec _ fRecursive hk

/-- What is removed is gone. -/
theorem remove_gone (fRecursive : Bool) :
    (pool.remove P tx fRecursive).lookup (tx.getHash P) = none ∧
      (pool.lookup (tx.getHash P) ≠ none → ∀ o, Spends tx o →
        (pool.remove P tx fRecursive).mapNextTx.lookup o = none) := by
  classical
  rw [remove, removeLoop]
  split
  next =>
    refine ⟨by rw [lookup_erase, if_pos rfl], fun _ o ho => ?_⟩
    rw [next_erase, if_pos ho]
  next hnone => exact ⟨by simpa using hnone, fun hne => absurd (by simpa using hnone) hne⟩

/-! ## Conflicts -/

/-- One turn of `removeConflicts`. -/
def removeConflict (P : Params) (tx : CTransaction) (pool : CTxMemPool) (txin : CTxIn) : CTxMemPool :=
  match pool.spender txin.prevout with
  | some txConflict => if txConflict ≠ tx then pool.remove P txConflict true else pool
  | none => pool

theorem shrinks_removeConflict (txin : CTxIn) : Shrinks P pool (removeConflict P tx pool txin) := by
  unfold removeConflict
  split
  next txConflict hspend =>
    split
    next =>
      refine shrinks_remove true fun hl => ?_
      obtain ⟨h, hlook, -⟩ := hl.spender.mp hspend
      exact hl.knows hlook
    next => exact .refl
  next => exact .refl

/-- After its turn nothing in the pool spends the outpoint. -/
theorem removeConflict_free (hl : Linked P pool) (hgone : pool.lookup (tx.getHash P) = none) (txin : CTxIn) :
    (removeConflict P tx pool txin).mapNextTx.lookup txin.prevout = none := by
  unfold removeConflict
  split
  next txConflict hspend =>
    obtain ⟨h, hlook, ho⟩ := hl.spender.mp hspend
    have hhash := hl.hash hlook
    have hne : txConflict ≠ tx := by
      rintro rfl
      rw [hhash, hlook] at hgone
      simp at hgone
    rw [if_pos hne]
    exact (remove_gone true).2 (by rw [hhash, hlook]; simp) _ ho
  next hnone =>
    cases hp : pool.mapNextTx.lookup txin.prevout with
    | none => rfl
    | some p =>
      obtain ⟨u, hu, -⟩ := hl.sound hp
      simp [spender, hp, hu] at hnone

theorem removeConflicts_spec (tx : CTransaction) (pool : CTxMemPool) :
    Shrinks P pool (pool.removeConflicts P tx) ∧ (Linked P pool → pool.lookup (tx.getHash P) = none →
      ∀ o, Spends tx o → (pool.removeConflicts P tx).mapNextTx.lookup o = none) := by
  have hfold : pool.removeConflicts P tx = tx.vin.foldl (removeConflict P tx) pool := rfl
  rw [hfold]
  refine ⟨shrinks_foldl (fun pool txin => shrinks_removeConflict txin) tx.vin pool, ?_⟩
  rintro hl hgone o ⟨txin, hmem, rfl⟩
  generalize tx.vin = vin at hmem
  induction vin generalizing pool with
  | nil => simp at hmem
  | cons t vin ih =>
    have hone : Shrinks P pool (removeConflict P tx pool t) := shrinks_removeConflict t
    have hrest : Shrinks P (removeConflict P tx pool t) (vin.foldl (removeConflict P tx) (removeConflict P tx pool t)) :=
      shrinks_foldl (fun _ txin => shrinks_removeConflict txin) vin _
    rw [List.foldl_cons]
    rcases List.mem_cons.mp hmem with rfl | hmem
    · -- once it is free it stays free
      cases hp : (vin.foldl (removeConflict P tx) (removeConflict P tx pool txin)).mapNextTx.lookup txin.prevout with
      | none => rfl
      | some p =>
        have hback := (hrest.sub (hone.linked hl)).next hp
        rw [removeConflict_free hl hgone] at hback
        simp at hback
    · refine ih (removeConflict P tx pool t) rfl (hone.linked hl) ?_ hmem
      cases hlook : (removeConflict P tx pool t).lookup (tx.getHash P) with
      | none => rfl
      | some u =>
        rw [(hone.sub hl).tx hlook] at hgone
        simp at hgone

end CTxMemPool

end Pinkcoin
