/-
What a step of the node leaves alone. Nothing is ever taken from the block
index or the block files (`Grows`). The steps between `TxnBegin` and
`TxnCommit` change the open batch, the supply of single records and the
wallets, and nothing else (`Inside`).
-/
import Pinkcoin.RoundTrip
import Pinkcoin.BestChain

namespace Pinkcoin

open StateError

namespace CTxDB

/-- The writes between `db` and `db'` go to an open batch, and do not mention
the sync-checkpoint. -/
structure Quiet (db db' : CTxDB) : Prop where
  batch : ∀ m, BatchStore.Open m db → BatchStore.Open m db'
  sync : BatchStore.Untouched .hashSyncCheckpoint db db'

variable {db db' db'' : CTxDB} {P : Params}

theorem Quiet.refl : Quiet db db := ⟨fun _ h => h, .refl⟩

theorem Quiet.trans (h : Quiet db db') (h' : Quiet db' db'') : Quiet db db'' :=
  ⟨fun m hm => h'.batch m (h.batch m hm), h.sync.trans h'.sync⟩

theorem quiet_updateTxIndex (hash : Uint256) (e : CTxIndex) : Quiet db (db.updateTxIndex hash e) :=
  ⟨fun _ h => h.write _ _, BatchStore.untouched_write (by simp)⟩

theorem quiet_eraseTxIndex (tx : CTransaction) : Quiet db (db.eraseTxIndex P tx) :=
  ⟨fun _ h => h.erase _, BatchStore.untouched_erase (by simp)⟩

theorem quiet_writeBlockIndex (d : CDiskBlockIndex) : Quiet db (db.writeBlockIndex P d) :=
  ⟨fun _ h => h.write _ _, BatchStore.untouched_write (by simp)⟩

theorem quiet_writeHashBestChain (h : Uint256) : Quiet db (db.writeHashBestChain h) :=
  ⟨fun _ h => h.write _ _, BatchStore.untouched_write (by simp)⟩

theorem quiet_updateAll (queue : Map Uint256 CTxIndex) : Quiet db (db.updateAll queue) := by
  unfold updateAll
  induction queue.entries generalizing db with
  | nil => exact .refl
  | cons e entries ih => exact (quiet_updateTxIndex e.1 e.2).trans ih

theorem quiet_withHashNext (t : BlockTree) (pindex : CBlockIndex) (h : Uint256) :
    Quiet db (CBlock.withHashNext P t pindex h db) := by
  unfold CBlock.withHashNext
  split
  · exact .refl
  · exact quiet_writeBlockIndex _

end CTxDB

namespace Node

/-- Nothing is taken from the block index or the block files. -/
structure Grows (s s' : Node) : Prop where
  tree : s.mapBlockIndex.Grows s'.mapBlockIndex
  disk : ∀ {nFile nBlockPos block}, s.disk.block nFile nBlockPos = some block → s'.disk.block nFile nBlockPos = some block

/-- What the steps inside a batch leave alone. The records of the blocks in
`S` do not change at all. -/
structure Inside (S : Uint256 → Prop) (s s' : Node) : Prop where
  rest : s' = { s with mapBlockIndex := s'.mapBlockIndex, txdb := s'.txdb, wallets := s'.wallets }
  tree : ∀ h b, s.mapBlockIndex.find h = some b →
    ∃ m n, s'.mapBlockIndex.find h = some { b with nMint := m, nMoneySupply := n }
  new : ∀ h, s.mapBlockIndex.find h = none → s'.mapBlockIndex.find h = none
  kept : ∀ h, S h → s'.mapBlockIndex.find h = s.mapBlockIndex.find h
  txdb : CTxDB.Quiet s.txdb s'.txdb

variable {S : Uint256 → Prop} {s s' s'' : Node}

theorem Grows.refl : Grows s s := ⟨.refl, fun h => h⟩

theorem Grows.trans (h : Grows s s') (h' : Grows s' s'') : Grows s s'' :=
  ⟨h.tree.trans h'.tree, fun hb => h'.disk (h.disk hb)⟩

theorem Inside.refl : Inside S s s := ⟨rfl, fun _ b hb => ⟨b.nMint, b.nMoneySupply, hb⟩, fun _ h => h, fun _ _ => rfl, .refl⟩

theorem Inside.trans (h : Inside S s s') (h' : Inside S s' s'') : Inside S s s'' where
  rest := by rw [h'.rest, h.rest]
  tree k b hb := by
    obtain ⟨m, n, hb'⟩ := h.tree k b hb
    obtain ⟨m', n', hb''⟩ := h'.tree k _ hb'
    exact ⟨m', n', hb''⟩
  new k hk := h'.new k (h.new k hk)
  kept k hk := (h'.kept k hk).trans (h.kept k hk)
  txdb := h.txdb.trans h'.txdb

instance : Std.Refl (Inside S) := ⟨fun _ => .refl⟩
instance : IsTrans Node (Inside S) := ⟨fun _ _ _ h h' => h.trans h'⟩
instance : Std.Refl Grows := ⟨fun _ => .refl⟩
instance : IsTrans Node Grows := ⟨fun _ _ _ h h' => h.trans h'⟩

theorem Inside.mono {S' : Uint256 → Prop} (h : Inside S s s') (hS : ∀ k, S' k → S k) : Inside S' s s' :=
  ⟨h.rest, h.tree, h.new, fun k hk => h.kept k (hS k hk), h.txdb⟩

theorem Inside.disk (h : Inside S s s') : s'.disk = s.disk := by rw [h.rest]

theorem Inside.grows (h : Inside S s s') : Grows s s' where
  tree k b hb := by
    obtain ⟨m, n, hb'⟩ := h.tree k b hb
    exact ⟨_, hb', rfl⟩
  disk hb := by rwa [h.disk]

theorem inside_withTxdb {db : CTxDB} (h : CTxDB.Quiet s.txdb db) : Inside S s (s.withTxdb db) :=
  ⟨rfl, fun _ b hb => ⟨b.nMint, b.nMoneySupply, hb⟩, fun _ h => h, fun _ _ => rfl, h⟩

theorem inside_wallets (wallets : List CWallet) : Inside S s { s with wallets := wallets } :=
  ⟨rfl, fun _ b hb => ⟨b.nMint, b.nMoneySupply, hb⟩, fun _ h => h, fun _ _ => rfl, .refl⟩

end Node

open Node (Inside)

variable {S : Uint256 → Prop} {P : Params} {env : Env}

theorem keeps_modifyTxdb {f : CTxDB → CTxDB} (h : ∀ db, CTxDB.Quiet db (f db)) : Keeps (Inside S) (modifyTxdb f) :=
  keeps_modify fun s => Node.inside_withTxdb (h s.txdb)

theorem keeps_syncWithWallets (tx : CTransaction) (pblock : Option CBlock) (fUpdate fConnect : Bool) :
    Keeps (Inside S) (syncWithWallets P env tx pblock fUpdate fConnect) :=
  keeps_modify fun _ => Node.inside_wallets _

theorem keeps_relinquish (txin : CTxIn) : Keeps (Inside S) (CTransaction.relinquish txin) := by
  unfold CTransaction.relinquish
  refine keeps_bind keeps_get fun s => ?_
  split
  · exact keeps_throw _
  · exact keeps_bind (keeps_rejectIf _ _) fun _ => keeps_modifyTxdb fun _ => CTxDB.quiet_updateTxIndex _ _

theorem keeps_disconnectInputs (tx : CTransaction) : Keeps (Inside S) (tx.disconnectInputs P) :=
  keeps_bind (keeps_onlyIf (keeps_forM fun txin _ => keeps_relinquish txin)) fun _ =>
    keeps_modifyTxdb fun _ => CTxDB.quiet_eraseTxIndex tx

theorem keeps_writeHashNext (pindex : CBlockIndex) (h : Uint256) : Keeps (Inside S) (CBlock.writeHashNext P pindex h) :=
  keeps_modify fun s => Node.inside_withTxdb (CTxDB.quiet_withHashNext s.mapBlockIndex pindex h)

theorem keeps_disconnectBlock (block : CBlock) (pindex : CBlockIndex) :
    Keeps (Inside S) (block.disconnectBlock P env pindex) :=
  keeps_bind (keeps_forM fun tx _ => keeps_disconnectInputs tx) fun _ =>
    keeps_bind (keeps_writeHashNext pindex 0) fun _ => keeps_forM fun tx _ => keeps_syncWithWallets tx _ _ _

/-- Connecting a block changes its own record, and no other. -/
theorem keeps_connectBlock (block : CBlock) (pindex : CBlockIndex) (hS : ¬ S pindex.phashBlock) :
    Keeps (Inside S) (block.connectBlock P env pindex false) := by
  intro s
  rw [CBlock.connectBlock_run]
  split
  · exact .refl
  · rename_i acc _
    refine ⟨rfl, fun h b hb => ?_, fun h hn => ?_, fun h hh => ?_, ?_⟩
    · simp only [endState_ok, CBlock.connected, BlockTree.find_setSupply, hb]
      by_cases hk : h = (CBlock.withSupply s pindex acc).phashBlock
      · exact ⟨_, _, by rw [if_pos hk]; rfl⟩
      · exact ⟨b.nMint, b.nMoneySupply, by rw [if_neg hk]⟩
    · simp [CBlock.connected, BlockTree.find_setSupply, hn]
    · have hne : h ≠ pindex.phashBlock := fun he => hS (he ▸ hh)
      simp [CBlock.connected, BlockTree.find_setSupply, CBlock.withSupply, hne]
    · exact ((CTxDB.quiet_writeBlockIndex _).trans (CTxDB.quiet_updateAll _)).trans (CTxDB.quiet_withHashNext _ _ _)

/-! ## Inside Reorganize -/

theorem deref_ok {h : Uint256} {b : CBlockIndex} {s s' : Node} :
    deref h s = .ok b s' ↔ s.mapBlockIndex.find h = some b ∧ s' = s := by
  simp only [deref, bind_ok, get_ok]
  cases hc : s.mapBlockIndex.find h with
  | none =>
    simp only [reduceCtorEq, false_and, iff_false]
    rintro ⟨_, _, ⟨rfl, rfl⟩, hb⟩
    simp [hc] at hb
  | some c =>
    simp only [Option.some.injEq]
    constructor
    · rintro ⟨_, _, ⟨rfl, rfl⟩, hb⟩
      simpa [hc, eq_comm] using hb
    · rintro ⟨rfl, rfl⟩
      exact ⟨s', s', ⟨rfl, rfl⟩, by simp [hc]⟩

theorem deref_error {h : Uint256} {e : Reject} {s s' : Node} :
    deref h s = .error e s' ↔ s.mapBlockIndex.find h = none ∧ e = nullPointer ∧ s' = s := by
  simp only [deref, bind_error, get_error, get_ok, false_or]
  cases hc : s.mapBlockIndex.find h with
  | none =>
    constructor
    · rintro ⟨_, s, ⟨rfl, rfl⟩, hb⟩
      simpa [hc] using hb
    · rintro ⟨-, rfl, rfl⟩
      exact ⟨s', s', ⟨rfl, rfl⟩, by simp [hc]⟩
  | some b =>
    simp only [reduceCtorEq, false_and, iff_false]
    rintro ⟨_, s, ⟨rfl, rfl⟩, hb⟩
    simp [hc] at hb

theorem keeps_deref (h : Uint256) : Keeps (Inside S) (deref h) := by
  refine keeps_bind keeps_get fun s => ?_
  split
  · exact keeps_throw _
  · exact keeps_pure _

theorem keeps_disconnectOne (h : Uint256) : Keeps (Inside S) (disconnectOne P env h) :=
  keeps_bind (keeps_deref h) fun pindex => keeps_bind keeps_get fun _ =>
    keeps_bind (keeps_withError _ (keeps_lift _)) fun block =>
      keeps_bind (keeps_withError _ (keeps_disconnectBlock block pindex)) fun _ => keeps_pure _

theorem keeps_disconnectLoop (vDisconnect : List Uint256) (vResurrect : List CTransaction) :
    Keeps (Inside S) (disconnectLoop P env vDisconnect vResurrect) := by
  induction vDisconnect generalizing vResurrect with
  | nil => exact keeps_pure _
  | cons h vDisconnect ih => exact keeps_bind (keeps_disconnectOne h) fun vtx => ih _

theorem keeps_connectOne (h : Uint256) (hS : ¬ S h) : Keeps (Inside S) (connectOne P env h) := by
  refine keeps_bind_of (keeps_deref h) fun s pindex t hd => ?_
  have hh : pindex.phashBlock = h := BlockTree.find_hash (deref_ok.mp hd).1
  have hkeep : Keeps (Inside S) (do
      let s ← get
      let block ← withError (error "Reorganize() : ReadFromDisk for connect failed") (lift (s.readIndexed env P pindex))
      let _ ← withError (error "Reorganize() : ConnectBlock failed") (block.connectBlock P env pindex false)
      pure block.vtx) :=
    keeps_bind keeps_get fun _ => keeps_bind (keeps_withError _ (keeps_lift _)) fun block =>
      keeps_bind (keeps_withError _ (keeps_connectBlock block pindex (hh ▸ hS))) fun _ => keeps_pure _
  exact hkeep t

theorem keeps_connectLoop (vConnect : List Uint256) (vDelete : List CTransaction) (hS : ∀ h ∈ vConnect, ¬ S h) :
    Keeps (Inside S) (connectLoop P env vConnect vDelete) := by
  induction vConnect generalizing vDelete with
  | nil => exact keeps_pure _
  | cons h vConnect ih =>
    exact keeps_bind (keeps_connectOne h (hS h (by simp))) fun vtx => ih _ fun k hk => hS k (by simp [hk])

end Pinkcoin
