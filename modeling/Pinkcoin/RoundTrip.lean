/-
Connecting and disconnecting a block are inverse on the transaction index.
Connecting goes forward through a queue of changes, disconnecting goes
backward on the database itself; both are the ledger's operations, and the
ledger's undo law does the rest.
-/
import Pinkcoin.ConnectFacts
import Pinkcoin.AcceptBlock

namespace Pinkcoin

open StateError
open Ledger (slot setSlot setSlots Unspent)

/-! ## The records and the wallets -/

/-- The wallets after they were told of a list of transactions. -/
def syncAll (P : Params) (env : Env) (pblock : Option CBlock) (fUpdate fConnect : Bool) (vtx : List CTransaction)
    (wallets : List CWallet) : List CWallet :=
  vtx.foldl (fun ws tx => ws.map fun w => w.sync P env.adjustedTime env.walletWritten tx pblock fUpdate fConnect) wallets

theorem forM_syncWithWallets (P : Params) (env : Env) (pblock : Option CBlock) (fUpdate fConnect : Bool)
    (vtx : List CTransaction) (s : Node) :
    forM vtx (fun tx => syncWithWallets P env tx pblock fUpdate fConnect) s =
      .ok () { s with wallets := syncAll P env pblock fUpdate fConnect vtx s.wallets } := by
  induction vtx generalizing s with
  | nil => rfl
  | cons tx vtx ih =>
    rw [forM_cons_ok]
    exact ⟨_, rfl, by rw [ih]; rfl⟩

@[simp] theorem book_writeBlockIndex (P : Params) (txdb : CTxDB) (d : CDiskBlockIndex) :
    (txdb.writeBlockIndex P d).book = txdb.book := by
  funext h
  simp [CTxDB.book]

@[simp] theorem book_withHashNext (P : Params) (t : BlockTree) (pindex : CBlockIndex) (h : Uint256) (txdb : CTxDB) :
    (CBlock.withHashNext P t pindex h txdb).book = txdb.book := by
  unfold CBlock.withHashNext
  split <;> simp

/-- The index is known by its ledger. -/
theorem readTxIndex_eq_of_book {txdb txdb' : CTxDB} (h : txdb'.book = txdb.book) (k : Uint256) :
    txdb'.readTxIndex k = txdb.readTxIndex k :=
  Option.map_injective (fun _ _ => CTxIndex.entry_injective) (congrFun h k)

namespace CBlock

/-! ## ConnectBlock -/

/-- The node after a block is connected with the changes `acc`. `pindex` has
its supply already. -/
def connected (P : Params) (env : Env) (s : Node) (block : CBlock) (pindex : CBlockIndex) (acc : ConnectAcc) : Node :=
  let t := s.mapBlockIndex.setSupply pindex.phashBlock pindex.nMint pindex.nMoneySupply
  { s with
    mapBlockIndex := t
    txdb := withHashNext P t pindex pindex.phashBlock
      ((s.txdb.writeBlockIndex P (CDiskBlockIndex.ofIndex pindex)).updateAll acc.mapQueuedChanges)
    wallets := syncAll P env (some block) true true block.vtx s.wallets }

/-- `ConnectBlock` fails in its checks, before it writes anything, or it does
all it does. -/
theorem connectBlock_run (P : Params) (env : Env) (s : Node) (block : CBlock) (pindex : CBlockIndex) :
    block.connectBlock P env pindex false s =
      match connectChecks P env s pindex false block with
      | .error e => .error e s
      | .ok acc => .ok (withSupply s pindex acc) (connected P env s block (withSupply s pindex acc) acc) := by
  cases hc : connectChecks P env s pindex false block with
  | error e => simp [connectBlock, bind, EStateM.bind, get_run, lift, hc]
  | ok acc =>
    simp only [connectBlock, bind_ok, get_ok, lift_ok, Bool.false_eq_true, if_false, modify_ok, pure_ok]
    refine ⟨s, s, ⟨rfl, rfl⟩, acc, s, ⟨hc, rfl⟩, (), _, rfl, (), _, rfl, (), _,
      forM_syncWithWallets P env _ _ _ _ _, rfl, rfl⟩

theorem connectBlock_ok {P : Params} {env : Env} {s s' : Node} {block : CBlock} {pindex pindex' : CBlockIndex}
    (h : block.connectBlock P env pindex false s = .ok pindex' s') :
    ∃ acc, Checked P env s pindex block acc ∧ pindex' = withSupply s pindex acc ∧
      s' = connected P env s block pindex' acc := by
  rw [connectBlock_run] at h
  split at h
  next => exact absurd h (by simp)
  next acc hc =>
    obtain ⟨rfl, rfl⟩ := EStateM.Result.ok.inj h
    exact ⟨acc, connectChecks_ok hc, rfl, rfl⟩

/-- The index after a block is connected is the ledger with its transactions
connected. -/
theorem Checked.book_connected {P : Params} {env : Env} {s : Node} {block : CBlock} {pindex pindex' : CBlockIndex}
    {acc : ConnectAcc} (h : Checked P env s pindex block acc) :
    (connected P env s block pindex' acc).txdb.book =
      Ledger.connectAll s.txdb.book (block.ledgerTxs P pindex.nFile pindex.nBlockPos) := by
  rw [← h.book, connected, book_withHashNext, book_updateAll]
  funext k
  simp [CTxDB.queuedBook]

end CBlock

/-! ## DisconnectInputs -/

namespace CTransaction

/-- The database after `DisconnectInputs` has given one input back. -/
def relinquished (txdb : CTxDB) (txin : CTxIn) : CTxDB :=
  match txdb.readTxIndex txin.prevout.hash with
  | none => txdb
  | some txindex =>
    txdb.updateTxIndex txin.prevout.hash { txindex with vSpent := txindex.vSpent.set txin.prevout.n none }

theorem book_relinquished (txdb : CTxDB) (txin : CTxIn) :
    (relinquished txdb txin).book = setSlot txdb.book txin.prevout.key none := by
  funext k
  unfold relinquished
  cases h : txdb.readTxIndex txin.prevout.hash with
  | none =>
    by_cases hk : k = txin.prevout.hash
    · subst hk
      simp [setSlot, COutPoint.key, CTxDB.book, h]
    · simp [setSlot, COutPoint.key, hk]
  | some txindex =>
    by_cases hk : k = txin.prevout.hash
    · subst hk
      simp [setSlot, COutPoint.key, CTxDB.book, h, CTxIndex.entry]
    · simp [setSlot, COutPoint.key, CTxDB.book, hk]

theorem slot_book {txdb : CTxDB} {o : COutPoint} :
    slot txdb.book o.key = (txdb.readTxIndex o.hash).bind fun txindex => txindex.vSpent[o.n]? := by
  cases h : txdb.readTxIndex o.hash <;> simp [slot, COutPoint.key, CTxDB.book, h, CTxIndex.entry]

theorem relinquish_ok {txin : CTxIn} {s s' : Node} {u : Unit} :
    relinquish txin s = .ok u s' ↔
      slot s.txdb.book txin.prevout.key ≠ none ∧ s' = s.withTxdb (relinquished s.txdb txin) := by
  rw [slot_book]
  cases hidx : s.txdb.readTxIndex txin.prevout.hash with
  | none =>
    simp only [relinquish, bind_ok, get_ok, Option.bind_none, ne_eq, not_true, false_and, iff_false]
    rintro ⟨_, _, ⟨rfl, rfl⟩, h⟩
    simp [hidx] at h
  | some txindex =>
    simp only [relinquish, bind_ok, get_ok, Option.bind_some, ne_eq, List.getElem?_eq_none_iff, not_le, relinquished,
      hidx]
    constructor
    · rintro ⟨_, _, ⟨rfl, rfl⟩, h⟩
      simpa [hidx, modifyTxdb] using h
    · rintro ⟨hlt, rfl⟩
      exact ⟨s, s, ⟨rfl, rfl⟩, by simp [hidx, modifyTxdb, hlt]⟩

theorem slot_setSlot_eq_none {L : TxBook} {o o' : Uint256 × ℕ} {m : Option CDiskTxPos} :
    slot (setSlot L o m) o' = none ↔ slot L o' = none := by
  rw [Ledger.slot_setSlot]
  split <;> simp

theorem relinquishAll_ok {vin : List CTxIn} {s s' : Node} {u : Unit} :
    forM vin relinquish s = .ok u s' ↔
      (∀ txin ∈ vin, slot s.txdb.book txin.prevout.key ≠ none) ∧ s' = s.withTxdb (vin.foldl relinquished s.txdb) := by
  induction vin generalizing s with
  | nil => simp [eq_comm]
  | cons txin vin ih =>
    simp only [forM_cons_ok, relinquish_ok, List.forall_mem_cons, List.foldl_cons]
    constructor
    · rintro ⟨t, ⟨hs, rfl⟩, h⟩
      obtain ⟨hall, rfl⟩ := ih.mp h
      refine ⟨⟨hs, fun u hu => ?_⟩, rfl⟩
      have := hall u hu
      rwa [Node.withTxdb_txdb, book_relinquished, ne_eq, slot_setSlot_eq_none] at this
    · rintro ⟨⟨hs, hall⟩, rfl⟩
      refine ⟨_, ⟨hs, rfl⟩, ih.mpr ⟨fun u hu => ?_, rfl⟩⟩
      rw [Node.withTxdb_txdb, book_relinquished, ne_eq, slot_setSlot_eq_none]
      exact hall u hu

theorem book_foldl_relinquished (vin : List CTxIn) (txdb : CTxDB) :
    (vin.foldl relinquished txdb).book = setSlots txdb.book (vin.map fun txin => txin.prevout.key) none := by
  induction vin generalizing txdb with
  | nil => rfl
  | cons txin vin ih => rw [List.foldl_cons, ih, book_relinquished, List.map_cons, setSlots, setSlots, List.foldl_cons]

/-- The database after `DisconnectInputs`. -/
def disconnected (P : Params) (txdb : CTxDB) (tx : CTransaction) : CTxDB :=
  (if tx.isCoinBase then txdb else tx.vin.foldl relinquished txdb).eraseTxIndex P tx

theorem book_disconnected (P : Params) (txdb : CTxDB) (tx : CTransaction) (pos : CDiskTxPos) :
    (disconnected P txdb tx).book = Ledger.disconnect txdb.book (tx.ledgerTx P pos) := by
  have herase : ∀ db : CTxDB, (db.eraseTxIndex P tx).book = Function.update db.book (tx.getHash P) none := by
    intro db
    funext k
    by_cases hk : k = tx.getHash P <;> simp [CTxDB.book, hk]
  rw [disconnected, herase, Ledger.disconnect]
  by_cases hcb : tx.isCoinBase
  · simp [hcb, ledgerTx, CBlock.prevouts_of_coinBase hcb, setSlots]
  · simp [hcb, ledgerTx, CBlock.prevouts_keys hcb, book_foldl_relinquished]

/-- `DisconnectInputs` succeeds when every input has a slot to give back. -/
theorem disconnectInputs_ok {P : Params} {tx : CTransaction} {s s' : Node} {u : Unit} :
    tx.disconnectInputs P s = .ok u s' ↔
      (∀ o ∈ tx.prevouts.map COutPoint.key, slot s.txdb.book o ≠ none) ∧ s' = s.withTxdb (disconnected P s.txdb tx) := by
  simp only [disconnectInputs, bind_ok, onlyIf_ok, relinquishAll_ok, modifyTxdb, modify_ok, not_not]
  by_cases hcb : tx.isCoinBase
  · simp [hcb, CBlock.prevouts_of_coinBase hcb, disconnected]
  · simp only [hcb, not_false_eq_true, true_and, false_and, or_false, CBlock.prevouts_keys hcb, List.forall_mem_map,
      disconnected, if_false]
    constructor
    · rintro ⟨_, _, ⟨hall, rfl⟩, rfl⟩
      exact ⟨hall, rfl⟩
    · rintro ⟨hall, rfl⟩
      exact ⟨(), _, ⟨hall, rfl⟩, rfl⟩

end CTransaction

/-! ## DisconnectBlock -/

namespace CBlock

variable {P : Params} {env : Env}

/-- A run that disconnects transactions, the last first, changes the database
only, and its index is the ledger without them. -/
theorem disconnectTxs_ok {nFile nBlockPos : Nat} (nTxPos : Nat) {vtx : List CTransaction} {s s' : Node} {u : Unit}
    (h : forM vtx.reverse (CTransaction.disconnectInputs P) s = .ok u s') :
    s' = s.withTxdb s'.txdb ∧
      s'.txdb.book = Ledger.disconnectAll s.txdb.book (Pinkcoin.ledgerTxs P nFile nBlockPos vtx nTxPos) := by
  induction vtx generalizing s' nTxPos with
  | nil =>
    obtain rfl := forM_nil_ok.mp h
    exact ⟨rfl, rfl⟩
  | cons tx vtx ih =>
    rw [List.reverse_cons, List.forM_append, bind_ok] at h
    obtain ⟨_, t, ht, h⟩ := h
    simp only [forM_cons_ok, forM_nil_ok, CTransaction.disconnectInputs_ok] at h
    obtain ⟨_, ⟨-, rfl⟩, rfl⟩ := h
    obtain ⟨hs, hbook⟩ := ih (nTxPos + tx.getSerializeSize) ht
    refine ⟨by rw [hs]; rfl, ?_⟩
    rw [Node.withTxdb_txdb, CTransaction.book_disconnected P _ tx ⟨nFile, nBlockPos, nTxPos⟩, hbook,
      Pinkcoin.ledgerTxs, Ledger.disconnectAll, Ledger.disconnectAll, List.foldr_cons]

/-- Transactions that were connected can be disconnected. -/
theorem disconnectTxs_run {nFile nBlockPos : Nat} {vtx : List CTransaction} {nTxPos : Nat} {s : Node} {L : TxBook}
    (hok : Ledger.OkAll L (Pinkcoin.ledgerTxs P nFile nBlockPos vtx nTxPos))
    (hbook : s.txdb.book = Ledger.connectAll L (Pinkcoin.ledgerTxs P nFile nBlockPos vtx nTxPos)) :
    ∃ s', forM vtx.reverse (CTransaction.disconnectInputs P) s = .ok () s' := by
  induction vtx generalizing nTxPos L with
  | nil => exact ⟨s, rfl⟩
  | cons tx vtx ih =>
    rw [Pinkcoin.ledgerTxs] at hok hbook
    obtain ⟨t, ht⟩ := ih hok.2 hbook
    have hback : t.txdb.book = Ledger.connect L (tx.ledgerTx P ⟨nFile, nBlockPos, nTxPos⟩) := by
      rw [(disconnectTxs_ok _ ht).2, hbook]
      exact Ledger.disconnectAll_connectAll hok.2
    refine ⟨t.withTxdb (CTransaction.disconnected P t.txdb tx), ?_⟩
    rw [List.reverse_cons, List.forM_append, bind_ok]
    refine ⟨(), t, ht, ?_⟩
    simp only [forM_cons_ok, forM_nil_ok, CTransaction.disconnectInputs_ok]
    refine ⟨_, ⟨fun o ho => ?_, rfl⟩, rfl⟩
    rw [hback, Ledger.slot_input hok.1 ho]
    simp

theorem disconnectBlock_ok {s s' : Node} {block : CBlock} {pindex : CBlockIndex} {u : Unit} (nFile nBlockPos : Nat)
    (h : block.disconnectBlock P env pindex s = .ok u s') :
    ∃ txdb, s' = { s with
        txdb := withHashNext P s.mapBlockIndex pindex 0 txdb
        wallets := syncAll P env (some block) false false block.vtx s.wallets } ∧
      txdb.book = Ledger.disconnectAll s.txdb.book (block.ledgerTxs P nFile nBlockPos) := by
  simp only [disconnectBlock, bind_ok] at h
  obtain ⟨_, t, ht, _, t', ht', h⟩ := h
  obtain ⟨hs, hbook⟩ := disconnectTxs_ok _ ht
  rw [forM_syncWithWallets] at h
  obtain ⟨-, rfl⟩ := EStateM.Result.ok.inj h
  obtain rfl := modify_ok.mp ht'
  refine ⟨t.txdb, ?_, hbook⟩
  rw [hs]
  rfl

/-- A connected block can be disconnected. -/
theorem disconnectBlock_run (env : Env) {s : Node} {block : CBlock} {L : TxBook} {nFile nBlockPos : Nat}
    (hok : Ledger.OkAll L (block.ledgerTxs P nFile nBlockPos))
    (hbook : s.txdb.book = Ledger.connectAll L (block.ledgerTxs P nFile nBlockPos)) (pindex : CBlockIndex) :
    ∃ s', block.disconnectBlock P env pindex s = .ok () s' ∧ s'.txdb.book = L := by
  obtain ⟨t, ht⟩ := disconnectTxs_run hok hbook
  have hrun : ∃ s', block.disconnectBlock P env pindex s = .ok () s' := by
    simp only [disconnectBlock, bind_ok]
    exact ⟨_, (), t, ht, (), _, rfl, forM_syncWithWallets P env _ _ _ _ _⟩
  obtain ⟨s', hs'⟩ := hrun
  refine ⟨s', hs', ?_⟩
  obtain ⟨txdb, rfl, hdis⟩ := disconnectBlock_ok nFile nBlockPos hs'
  rw [book_withHashNext, hdis, hbook]
  exact Ledger.disconnectAll_connectAll hok

/-- **Disconnecting a block undoes connecting it.** When none of the block's
transactions is in the index before, `DisconnectBlock` succeeds on the state
`ConnectBlock` leaves, and every record of the index is back. -/
theorem disconnectBlock_connectBlock {s s₁ : Node} {block : CBlock} {pindex pindex₁ : CBlockIndex}
    (h : block.connectBlock P env pindex false s = .ok pindex₁ s₁)
    (hfresh : ∀ tx ∈ block.vtx, s.txdb.readTxIndex (tx.getHash P) = none) (env' : Env) (pindex' : CBlockIndex) :
    ∃ s₂, block.disconnectBlock P env' pindex' s₁ = .ok () s₂ ∧
      ∀ hash, s₂.txdb.readTxIndex hash = s.txdb.readTxIndex hash := by
  obtain ⟨acc, hchecked, -, rfl⟩ := connectBlock_ok h
  have hnew : ∀ tx ∈ block.vtx, NewOrSpent P s.txdb.book tx := fun tx htx => .inl (by simp [CTxDB.book, hfresh tx htx])
  obtain ⟨s₂, hs₂, hbook⟩ := disconnectBlock_run env' (hchecked.okAll hnew) hchecked.book_connected pindex'
  exact ⟨s₂, hs₂, readTxIndex_eq_of_book hbook⟩

/-- A block whose third transaction spends an output of its second, connected
to a chain of eleven blocks and disconnected again. -/
theorem disconnectBlock_connectBlock_sample :
    let P := Sample.params true
    let s := { Sample.matured with disk := Sample.matured.disk.append Sample.mintingBlock }
    let pindex := { CBlockIndex.ofBlock Sample.matured.disk.nextFile Sample.matured.disk.nextPos Sample.mintingBlock with
      phashBlock := 112, pprev := some 111, nHeight := 12 }
    ∃ pindex₁ s₁ s₂, Sample.mintingBlock.connectBlock P Sample.env pindex false s = .ok pindex₁ s₁ ∧
      Sample.mintingBlock.disconnectBlock P Sample.env pindex₁ s₁ = .ok () s₂ ∧
      ∀ hash, s₂.txdb.readTxIndex hash = s.txdb.readTxIndex hash := by
  intro P s pindex
  obtain ⟨pindex₁, s₁, h₁⟩ := exists_of_isOk (r := Sample.mintingBlock.connectBlock P Sample.env pindex false s)
    (by decide +kernel)
  have hfresh : ∀ tx ∈ Sample.mintingBlock.vtx, s.txdb.readTxIndex (tx.getHash P) = none := by decide +kernel
  obtain ⟨s₂, h₂, hback⟩ := disconnectBlock_connectBlock h₁ hfresh Sample.env pindex₁
  exact ⟨pindex₁, s₁, s₂, h₁, h₂, hback⟩

end CBlock

end Pinkcoin
