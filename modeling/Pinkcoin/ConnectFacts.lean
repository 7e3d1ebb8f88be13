/-
What connecting a block does to the transaction index, in the ledger's
terms: a transaction that `ConnectBlock` lets pass spends distinct unspent
outputs, and the queued changes over the database are the ledger with the
block's transactions connected.
-/
import Pinkcoin.Lib.Ledger
import Pinkcoin.ConnectBlock

namespace Pinkcoin

open StateError
open Ledger (slot setSlot setSlots Unspent)

/-! ## The index as a ledger -/

abbrev TxBook := Ledger.Book Uint256 (Option CDiskTxPos) CDiskTxPos
abbrev LedgerTx := Ledger.Tx Uint256 (Option CDiskTxPos) CDiskTxPos

/-- The ledger's record of a transaction in the index. -/
def CTxIndex.entry (txindex : CTxIndex) : Ledger.Entry (Option CDiskTxPos) CDiskTxPos := ⟨txindex.pos, txindex.vSpent⟩

theorem CTxIndex.entry_injective {e e' : CTxIndex} (h : e.entry = e'.entry) : e = e' := by
  cases e; cases e'; simpa [entry] using h

/-- The index in the database. -/
def CTxDB.book (txdb : CTxDB) : TxBook := fun h => (txdb.readTxIndex h).map CTxIndex.entry

/-- The index as `ConnectBlock` reads it: the queued changes over the database. -/
def CTxDB.queuedBook (txdb : CTxDB) (mapQueuedChanges : Map Uint256 CTxIndex) : TxBook :=
  fun h => ((mapQueuedChanges.lookup h).or (txdb.readTxIndex h)).map CTxIndex.entry

def COutPoint.key (o : COutPoint) : Uint256 × ℕ := (o.hash, o.n)

/-- A transaction at its position on disk, as the ledger sees it. -/
def CTransaction.ledgerTx (P : Params) (tx : CTransaction) (pos : CDiskTxPos) : LedgerTx where
  id := tx.getHash P
  inputs := tx.prevouts.map COutPoint.key
  place := some pos
  mark := pos
  outputs := tx.vout.length

/-- The transactions of a list that starts at `nTxPos`. -/
def ledgerTxs (P : Params) (nFile nBlockPos : Nat) : List CTransaction → Nat → List LedgerTx
  | [], _ => []
  | tx :: vtx, nTxPos =>
    tx.ledgerTx P ⟨nFile, nBlockPos, nTxPos⟩ :: ledgerTxs P nFile nBlockPos vtx (nTxPos + tx.getSerializeSize)

/-- The transactions of a block that lies at a position. -/
def CBlock.ledgerTxs (P : Params) (block : CBlock) (nFile nBlockPos : Nat) : List LedgerTx :=
  Pinkcoin.ledgerTxs P nFile nBlockPos block.vtx (nBlockPos + block.firstTxOffset)

theorem queuedBook_empty (txdb : CTxDB) : txdb.queuedBook ∅ = txdb.book := by
  funext h
  simp [CTxDB.queuedBook, CTxDB.book]

theorem queuedBook_insert (txdb : CTxDB) (queue : Map Uint256 CTxIndex) (h : Uint256) (e : CTxIndex) :
    txdb.queuedBook (queue.insert h e) = Function.update (txdb.queuedBook queue) h (some e.entry) := by
  funext k
  by_cases hk : k = h
  · subst hk
    simp [CTxDB.queuedBook]
  · simp [CTxDB.queuedBook, hk]

theorem book_updateAll (txdb : CTxDB) (queue : Map Uint256 CTxIndex) :
    (txdb.updateAll queue).book = txdb.queuedBook queue := by
  funext h
  simp [CTxDB.queuedBook, CTxDB.book, CTxDB.readTxIndex_updateAll]

theorem ledgerTxs_ids (P : Params) (nFile nBlockPos : Nat) (vtx : List CTransaction) (nTxPos : Nat) :
    (ledgerTxs P nFile nBlockPos vtx nTxPos).map Ledger.Tx.id = vtx.map (CTransaction.getHash P) := by
  induction vtx generalizing nTxPos with
  | nil => rfl
  | cons tx vtx ih => simp [ledgerTxs, ih, CTransaction.ledgerTx]

/-- The transaction an index record stands for: `(1,1,1)` is the memory pool. -/
def Node.txAt (s : Node) (env : Env) (hash : Uint256) (pos : Option CDiskTxPos) : Option CTransaction :=
  if pos = some ⟨1, 1, 1⟩ then s.mempool.lookup hash else s.readTx env pos

/-- A ledger transaction of a list is one of the list's, at its position. -/
theorem mem_ledgerTxs {P : Params} {nFile nBlockPos nTxPos : Nat} {vtx : List CTransaction} {t : LedgerTx}
    (h : t ∈ ledgerTxs P nFile nBlockPos vtx nTxPos) :
    ∃ pre tx post, vtx = pre ++ tx :: post ∧
      t = tx.ledgerTx P ⟨nFile, nBlockPos, nTxPos + (pre.map CTransaction.getSerializeSize).sum⟩ := by
  induction vtx generalizing nTxPos with
  | nil => simp [ledgerTxs] at h
  | cons u vtx ih =>
    rw [ledgerTxs, List.mem_cons] at h
    rcases h with rfl | h
    · exact ⟨[], u, vtx, rfl, by simp⟩
    · obtain ⟨pre, tx, post, rfl, rfl⟩ := ih h
      exact ⟨u :: pre, tx, post, rfl, by simp [Nat.add_assoc]⟩

theorem ledgerTxs_append (P : Params) (nFile nBlockPos : Nat) (vtx vtx' : List CTransaction) (nTxPos : Nat) :
    ledgerTxs P nFile nBlockPos (vtx ++ vtx') nTxPos = ledgerTxs P nFile nBlockPos vtx nTxPos ++
      ledgerTxs P nFile nBlockPos vtx' (nTxPos + (vtx.map CTransaction.getSerializeSize).sum) := by
  induction vtx generalizing nTxPos with
  | nil => simp [ledgerTxs]
  | cons tx vtx ih => simp [ledgerTxs, ih, Nat.add_assoc]

namespace CTransaction

/-! ## Fetching the inputs -/

section Fetch

variable {env : Env} {s : Node} {mapTestPool : Map Uint256 CTxIndex} {fBlock fMiner : Bool}

/-- Every previous transaction the loop returns was fetched. -/
theorem fetchLoop_ok {vin : List CTxIn} {inputs inputsRet : MapPrevTx}
    (h : fetchLoop env s mapTestPool fBlock fMiner vin inputs = .ok inputsRet)
    (hin : ∀ hash prev, inputs.lookup hash = some prev → fetchPrev env s mapTestPool fBlock fMiner hash = .ok prev) :
    ∀ hash prev, inputsRet.lookup hash = some prev → fetchPrev env s mapTestPool fBlock fMiner hash = .ok prev := by
  induction vin generalizing inputs with
  | nil =>
    simp only [fetchLoop, except_pure_ok] at h
    exact h ▸ hin
  | cons txin vin ih =>
    simp only [fetchLoop] at h
    split at h
    · exact ih h hin
    · obtain ⟨prev, hprev, h⟩ := except_bind_ok.mp h
      refine ih h fun hash p hp => ?_
      by_cases hh : hash = txin.prevout.hash
      · subst hh
        obtain rfl : prev = p := by simpa using hp
        exact hprev
      · exact hin hash p (by rwa [AList.lookup_insert_ne hh] at hp)

theorem fetchInputs_ok {tx : CTransaction} (hcb : ¬ tx.isCoinBase) {inputs : MapPrevTx}
    (h : tx.fetchInputs env s mapTestPool fBlock fMiner = .ok inputs) :
    (∀ hash prev, inputs.lookup hash = some prev → fetchPrev env s mapTestPool fBlock fMiner hash = .ok prev) ∧
      ∀ txin ∈ tx.vin, prevoutInRange inputs txin := by
  simp only [fetchInputs, if_neg hcb, except_bind_ok, except_rejectIf_ok, except_pure_ok] at h
  obtain ⟨inputsRet, hloop, -, hrange, rfl⟩ := h
  refine ⟨fetchLoop_ok hloop (by simp), fun txin ht => ?_⟩
  by_contra hn
  exact hrange ⟨txin, ht, hn⟩

/-- What is fetched for a block: the record of the queue or the database,
with the transaction that lies at its position, or in the memory pool. -/
theorem fetchPrev_ok {hash : Uint256} {prev : CTxIndex × CTransaction} :
    fetchPrev env s mapTestPool true false hash = .ok prev ↔
      (mapTestPool.lookup hash).or (s.txdb.readTxIndex hash) = some prev.1 ∧
        s.txAt env hash prev.1.pos = some prev.2 := by
  obtain ⟨txindex, txPrev⟩ := prev
  cases hidx : (mapTestPool.lookup hash).or (s.txdb.readTxIndex hash) with
  | none => simp [fetchPrev, hidx]
  | some e =>
    simp only [fetchPrev, Bool.true_or, if_true, hidx, Node.txAt]
    by_cases hpos : e.pos = some ⟨1, 1, 1⟩
    · cases hp : s.mempool.lookup hash with
      | none => simp only [hpos, if_true, except_throw_ok, Option.some.injEq, false_iff]; rintro ⟨rfl, h⟩; simp [hpos] at h
      | some t => simp only [hpos, if_true, except_pure_ok, Prod.mk.injEq, Option.some.injEq]; constructor <;> rintro ⟨rfl, h⟩ <;> simp_all
    · cases hp : s.readTx env e.pos with
      | none => simp only [hpos, if_false, except_throw_ok, Option.some.injEq, false_iff]; rintro ⟨rfl, h⟩; simp [hpos, hp] at h
      | some t => simp only [hpos, if_false, except_pure_ok, Prod.mk.injEq, Option.some.injEq]; constructor <;> rintro ⟨rfl, h⟩ <;> simp_all

end Fetch

/-! ## Spending the inputs -/

section Connect

variable {P : Params} {s : Node} {posThisTx : CDiskTxPos} {branch : List CBlockIndex} {tx : CTransaction}

/-- The marks that the second loop of `ConnectInputs` makes. The records it
works on are those of the queue over the database. -/
theorem spendInputs_ok {fBlock : Bool} {vin : List CTxIn} {i : Nat} {inputs : MapPrevTx}
    {queue queue' : Map Uint256 CTxIndex}
    (h : spendInputs P s posThisTx true fBlock tx vin i inputs queue = .ok queue')
    (hin : ∀ hash prev, inputs.lookup hash = some prev → s.txdb.queuedBook queue hash = some prev.1.entry)
    (hrange : ∀ txin ∈ vin, prevoutInRange inputs txin) :
    s.txdb.queuedBook queue' =
        setSlots (s.txdb.queuedBook queue) (vin.map fun txin => txin.prevout.key) (some posThisTx) ∧
      (∀ o ∈ vin.map fun txin => txin.prevout.key, Unspent (s.txdb.queuedBook queue) o) ∧
      (vin.map fun txin => txin.prevout.key).Nodup := by
  induction vin generalizing i inputs queue with
  | nil =>
    obtain rfl := except_pure_ok.mp h
    simp [setSlots]
  | cons txin vin ih =>
    simp only [spendInputs] at h
    split at h
    next => exact absurd h (by simp)
    next txindex txPrev hlook =>
      simp only [except_bind_ok, except_rejectIf_ok, Bool.true_or, if_true] at h
      obtain ⟨-, hspent, -, -, h⟩ := h
      obtain ⟨prev, hprev, -, hlen⟩ := hrange txin (by simp)
      obtain rfl : (txindex, txPrev) = prev := Option.some.inj (hlook.symm.trans hprev)
      have hL := hin _ _ hlook
      -- the slot is there, and empty
      have hslot : Unspent (s.txdb.queuedBook queue) txin.prevout.key := by
        have hn : txindex.vSpent[txin.prevout.n]? = some none := by
          cases hv : txindex.vSpent[txin.prevout.n]? with
          | none => exact absurd (List.getElem?_eq_none_iff.mp hv) (by simpa using hlen)
          | some m =>
            cases m with
            | none => rfl
            | some p => exact absurd ⟨some p, hv, rfl⟩ hspent
        simpa [Unspent, slot, COutPoint.key, hL, CTxIndex.entry] using hn
      have hbook : s.txdb.queuedBook (queue.insert txin.prevout.hash
            { txindex with vSpent := txindex.vSpent.set txin.prevout.n (some posThisTx) }) =
          setSlot (s.txdb.queuedBook queue) txin.prevout.key (some posThisTx) := by
        rw [queuedBook_insert]
        simp [setSlot, COutPoint.key, hL, CTxIndex.entry]
      obtain ⟨hbook', hun, hnd⟩ := ih h (fun hash prev hp => by
          by_cases hh : hash = txin.prevout.hash
          · subst hh
            rw [AList.lookup_insert, Option.some.injEq] at hp
            simp [queuedBook_insert, ← hp]
          · rw [AList.lookup_insert_ne hh] at hp
            rw [queuedBook_insert, Function.update_of_ne hh]
            exact hin _ _ hp)
        (fun t ht => by
          obtain ⟨prev, hprev, h1, h2⟩ := hrange t (by simp [ht])
          by_cases hh : t.prevout.hash = txin.prevout.hash
          · rw [hh, hlook, Option.mem_some_iff] at hprev
            exact ⟨_, by rw [hh]; exact AList.lookup_insert _, by simpa [← hprev] using h1,
              by simpa [← hprev] using h2⟩
          · exact ⟨prev, by rwa [AList.lookup_insert_ne hh], h1, h2⟩)
      rw [hbook] at hbook' hun
      have hnot : txin.prevout.key ∉ vin.map fun txin => txin.prevout.key := fun hm => by
        have := hun _ hm
        rw [Unspent, Ledger.slot_setSlot, if_pos rfl, hslot] at this
        simp at this
      refine ⟨by rw [hbook', List.map_cons, setSlots, setSlots, List.foldl_cons], ?_, ?_⟩
      · rw [List.map_cons, List.forall_mem_cons]
        refine ⟨hslot, fun o ho => ?_⟩
        have hne : o ≠ txin.prevout.key := fun he => hnot (he ▸ ho)
        simpa [Unspent, Ledger.slot_setSlot, hne] using hun o ho
      · rw [List.map_cons]
        exact List.nodup_cons.mpr ⟨hnot, hnd⟩

end Connect

end CTransaction

namespace CBlock

/-! ## One turn of the loop -/

section Turns

variable {P : Params} {env : Env} {s : Node} {pindex : CBlockIndex}

/-- What one turn of the loop in `ConnectBlock` does when it lets the
transaction pass, with the previous transactions it fetched. -/
structure Turn (P : Params) (env : Env) (s : Node) (pindex : CBlockIndex) (acc : ConnectAcc) (tx : CTransaction)
    (inputs : MapPrevTx) (acc' : ConnectAcc) : Prop where
  fetched : ∀ hash prev, inputs.lookup hash = some prev →
    CTransaction.fetchPrev env s acc.mapQueuedChanges true false hash = .ok prev
  inRange : ¬ tx.isCoinBase → ∀ txin ∈ tx.vin, CTransaction.prevoutInRange inputs txin
  book : s.txdb.queuedBook acc'.mapQueuedChanges =
    Ledger.connect (s.txdb.queuedBook acc.mapQueuedChanges) (tx.ledgerTx P ⟨pindex.nFile, pindex.nBlockPos, acc.nTxPos⟩)
  unspent : ∀ o ∈ tx.prevouts.map COutPoint.key, Unspent (s.txdb.queuedBook acc.mapQueuedChanges) o
  nodup : (tx.prevouts.map COutPoint.key).Nodup
  nTxPos : acc'.nTxPos = acc.nTxPos + tx.getSerializeSize
  nValueIn : acc'.nValueIn = acc.nValueIn + tx.getValueIn inputs
  nValueOut : acc'.nValueOut = acc.nValueOut + tx.getValueOut
  nFees : acc'.nFees =
    if tx.isCoinBase ∨ tx.isCoinStake then acc.nFees else acc.nFees + (tx.getValueIn inputs - tx.getValueOut)
  nStakeReward : acc'.nStakeReward =
    if tx.isCoinStake then tx.getValueOut - tx.getValueIn inputs else acc.nStakeReward

theorem not_coinStake_of_coinBase {tx : CTransaction} (h : tx.isCoinBase) : ¬ tx.isCoinStake := by
  rintro ⟨⟨txin, hin, hn⟩, -⟩
  obtain ⟨-, ⟨txin', hin', hn'⟩, -⟩ := h
  obtain rfl : txin = txin' := Option.some.inj (hin.symm.trans hin')
  exact hn hn'

theorem prevouts_of_coinBase {tx : CTransaction} (h : tx.isCoinBase) : tx.prevouts = [] := by
  simp [CTransaction.prevouts, h]

theorem prevouts_keys {tx : CTransaction} (h : ¬ tx.isCoinBase) :
    tx.prevouts.map COutPoint.key = tx.vin.map fun txin => txin.prevout.key := by
  simp [CTransaction.prevouts, h, Function.comp_def]

/-- A transaction with inputs: they are fetched, and each is found unspent and
marked before the transaction's own record is queued. -/
theorem connectSpends_ok {tx : CTransaction} (hcb : ¬ tx.isCoinBase) {pos : CDiskTxPos} {acc acc' : ConnectAcc}
    (h : connectSpends P env s pindex tx pos acc = .ok acc') :
    ∃ inputs, (∀ hash prev, inputs.lookup hash = some prev →
          CTransaction.fetchPrev env s acc.mapQueuedChanges true false hash = .ok prev) ∧
      (∀ txin ∈ tx.vin, CTransaction.prevoutInRange inputs txin) ∧
      (s.txdb.queuedBook acc'.mapQueuedChanges =
          setSlots (s.txdb.queuedBook acc.mapQueuedChanges) (tx.prevouts.map COutPoint.key) (some pos) ∧
        (∀ o ∈ tx.prevouts.map COutPoint.key, Unspent (s.txdb.queuedBook acc.mapQueuedChanges) o) ∧
        (tx.prevouts.map COutPoint.key).Nodup) ∧
      acc'.nTxPos = acc.nTxPos ∧
      acc'.nValueIn = acc.nValueIn + tx.getValueIn inputs ∧ acc'.nValueOut = acc.nValueOut + tx.getValueOut ∧
      acc'.nFees = (if tx.isCoinStake then acc.nFees else acc.nFees + (tx.getValueIn inputs - tx.getValueOut)) ∧
      acc'.nStakeReward = (if tx.isCoinStake then tx.getValueOut - tx.getValueIn inputs else acc.nStakeReward) := by
  unfold connectSpends at h
  split at h
  next => exact absurd h (by simp)
  next mapInputs hfetch =>
    obtain ⟨hfetched, hrange⟩ := CTransaction.fetchInputs_ok hcb hfetch
    simp only [except_bind_ok, except_rejectIf_ok] at h
    obtain ⟨-, -, h⟩ := h
    split at h
    next => exact absurd h (by simp)
    next queue hconn =>
      obtain rfl := except_pure_ok.mp h
      simp only [CTransaction.connectInputs, if_neg hcb, except_bind_ok, except_pure_ok] at hconn
      obtain ⟨nValueIn, -, queue', hspend, -, -, rfl⟩ := hconn
      rw [prevouts_keys hcb]
      refine ⟨mapInputs, hfetched, hrange, ?_, rfl, rfl, rfl, rfl, rfl⟩
      refine CTransaction.spendInputs_ok hspend (fun hash prev hp => ?_) hrange
      have := (CTransaction.fetchPrev_ok.mp (hfetched hash prev hp)).1
      simp [CTxDB.queuedBook, this]

theorem connectTx_ok {acc acc' : ConnectAcc} {tx : CTransaction}
    (h : connectTx P env s pindex false acc tx = .ok acc') : ∃ inputs, Turn P env s pindex acc tx inputs acc' := by
  by_cases hcb : tx.isCoinBase
  · simp only [connectTx, except_bind_ok, except_rejectIf_ok, Bool.false_eq_true, if_false, if_pos hcb,
      except_pure_ok] at h
    obtain ⟨-, -, -, -, acc₁, rfl, rfl⟩ := h
    have hcs := not_coinStake_of_coinBase hcb
    refine ⟨∅, by simp, fun hn => absurd hcb hn, ?_, ?_, ?_, rfl, ?_, rfl, ?_, ?_⟩
    · rw [queuedBook_insert]
      simp [Ledger.connect, CTransaction.ledgerTx, prevouts_of_coinBase hcb, setSlots, CTxIndex.fresh, CTxIndex.entry,
        Ledger.Tx.entry]
    · simp [prevouts_of_coinBase hcb]
    · simp [prevouts_of_coinBase hcb]
    · simp [CTransaction.getValueIn, hcb]
    · simp [hcb]
    · simp [hcs]
  · simp only [connectTx, except_bind_ok, except_rejectIf_ok, Bool.false_eq_true, if_false, if_neg hcb,
      except_pure_ok] at h
    obtain ⟨-, -, -, -, acc₁, h₁, rfl⟩ := h
    obtain ⟨inputs, hf, hr, ⟨hb, hu, hn⟩, hp, hin, hout, hfee, hst⟩ := connectSpends_ok hcb h₁
    refine ⟨inputs, hf, fun _ => hr, ?_, hu, hn, hp, hin, hout, ?_, hst⟩
    · rw [queuedBook_insert, hb]
      simp [Ledger.connect, CTransaction.ledgerTx, CTxIndex.fresh, CTxIndex.entry, Ledger.Tx.entry]
    · rw [hfee]
      simp [hcb]

/-- The turns of the loop, one after the other. -/
inductive Turns (P : Params) (env : Env) (s : Node) (pindex : CBlockIndex) :
    ConnectAcc → List CTransaction → ConnectAcc → Prop
  | nil (acc : ConnectAcc) : Turns P env s pindex acc [] acc
  | cons {acc acc' acc'' : ConnectAcc} {tx : CTransaction} {vtx : List CTransaction} {inputs : MapPrevTx}
      (turn : Turn P env s pindex acc tx inputs acc') (rest : Turns P env s pindex acc' vtx acc'') :
      Turns P env s pindex acc (tx :: vtx) acc''

theorem connectTxs_ok {vtx : List CTransaction} {acc acc' : ConnectAcc}
    (h : connectTxs P env s pindex false vtx acc = .ok acc') : Turns P env s pindex acc vtx acc' := by
  induction vtx generalizing acc with
  | nil =>
    obtain rfl := except_pure_ok.mp h
    exact .nil acc
  | cons tx vtx ih =>
    obtain ⟨acc₁, h₁, h₂⟩ := except_bind_ok.mp h
    obtain ⟨inputs, turn⟩ := connectTx_ok h₁
    exact .cons turn (ih h₂)

/-- **The queued changes are the ledger with the transactions connected.** -/
theorem Turns.book {vtx : List CTransaction} {acc acc' : ConnectAcc} (h : Turns P env s pindex acc vtx acc') :
    s.txdb.queuedBook acc'.mapQueuedChanges =
      Ledger.connectAll (s.txdb.queuedBook acc.mapQueuedChanges)
        (Pinkcoin.ledgerTxs P pindex.nFile pindex.nBlockPos vtx acc.nTxPos) := by
  induction h with
  | nil acc => rfl
  | cons turn _ ih => rw [ih, turn.book, turn.nTxPos, Pinkcoin.ledgerTxs, Ledger.connectAll, Ledger.connectAll, List.foldl_cons]

/-- A transaction is new to the ledger, or it could not be connected anyway:
one of its inputs is spent. -/
def NewOrSpent (P : Params) (L : TxBook) (tx : CTransaction) : Prop :=
  L (tx.getHash P) = none ∨ ∃ o ∈ tx.prevouts.map COutPoint.key, ∃ p, slot L o = some (some p)

/-- Each transaction of the list may be connected at its turn. -/
theorem Turns.okAll {vtx : List CTransaction} {acc acc' : ConnectAcc} (h : Turns P env s pindex acc vtx acc')
    (hnew : ∀ tx ∈ vtx, NewOrSpent P (s.txdb.queuedBook acc.mapQueuedChanges) tx)
    (hnd : (vtx.map (CTransaction.getHash P)).Nodup) :
    Ledger.OkAll (s.txdb.queuedBook acc.mapQueuedChanges)
      (Pinkcoin.ledgerTxs P pindex.nFile pindex.nBlockPos vtx acc.nTxPos) := by
  induction h with
  | nil acc => trivial
  | cons turn rest ih =>
    rename_i acc _ _ tx vtx _
    rw [List.map_cons, List.nodup_cons] at hnd
    have hok : Ledger.Ok (s.txdb.queuedBook acc.mapQueuedChanges)
        (tx.ledgerTx P ⟨pindex.nFile, pindex.nBlockPos, acc.nTxPos⟩) := by
      refine ⟨(hnew tx (by simp)).resolve_right ?_, turn.unspent, turn.nodup⟩
      rintro ⟨o, ho, p, hp⟩
      simpa [Unspent, hp] using turn.unspent o ho
    rw [Pinkcoin.ledgerTxs]
    refine ⟨hok, ?_⟩
    rw [← turn.book, ← turn.nTxPos]
    refine ih (fun u hu => ?_) hnd.2
    rw [turn.book]
    rcases hnew u (by simp [hu]) with hn | ⟨o, ho, p, hp⟩
    · refine .inl (by_contra fun hne => ?_)
      rw [← ne_eq, Ledger.connect_ne_none] at hne
      rcases hne with he | hne
      · exact hnd.1 (List.mem_map.mpr ⟨u, hu, he⟩)
      · exact hne hn
    · exact .inr ⟨o, ho, p, Ledger.spent_connect hok hp⟩

/-! ## The whole block -/

/-- The local variables before the first transaction. -/
def acc₀ (pindex : CBlockIndex) (block : CBlock) : ConnectAcc :=
  ⟨∅, 0, 0, 0, 0, 0, pindex.nBlockPos + block.firstTxOffset⟩

/-- What `ConnectBlock` has checked before it writes. -/
structure Checked (P : Params) (env : Env) (s : Node) (pindex : CBlockIndex) (block : CBlock) (acc : ConnectAcc) :
    Prop where
  checkBlock : block.checkBlock P env true true false = .ok ()
  hasPrev : s.mapBlockIndex.Has block.hashPrevBlock
  turns : Turns P env s pindex (acc₀ pindex block) block.vtx acc
  reward : checkReward env s pindex block acc = .ok ()

theorem connectChecks_ok {block : CBlock} {acc : ConnectAcc}
    (h : connectChecks P env s pindex false block = .ok acc) : Checked P env s pindex block acc := by
  simp only [connectChecks, except_bind_ok, except_rejectIf_ok, except_pure_ok, Bool.not_false, not_not] at h
  obtain ⟨_, hcheck, -, hprev, -, -, acc', htxs, _, hreward, rfl⟩ := h
  exact ⟨hcheck, hprev, connectTxs_ok htxs, hreward⟩

/-- The queued changes are the ledger with the block connected. -/
theorem Checked.book {block : CBlock} {acc : ConnectAcc} (h : Checked P env s pindex block acc) :
    s.txdb.queuedBook acc.mapQueuedChanges =
      Ledger.connectAll s.txdb.book (block.ledgerTxs P pindex.nFile pindex.nBlockPos) := by
  rw [h.turns.book, acc₀, queuedBook_empty, CBlock.ledgerTxs]

theorem Checked.wellFormed {block : CBlock} {acc : ConnectAcc} (h : Checked P env s pindex block acc) :
    block.WellFormed P env false := wellFormed_of_checkBlock h.checkBlock

/-- The transactions of the block may be connected, one after the other. -/
theorem Checked.okAll {block : CBlock} {acc : ConnectAcc} (h : Checked P env s pindex block acc)
    (hnew : ∀ tx ∈ block.vtx, NewOrSpent P s.txdb.book tx) :
    Ledger.OkAll s.txdb.book (block.ledgerTxs P pindex.nFile pindex.nBlockPos) := by
  have := h.turns.okAll (by rwa [acc₀, queuedBook_empty]) h.wellFormed.distinct
  rwa [acc₀, queuedBook_empty] at this

end Turns

end CBlock

end Pinkcoin
