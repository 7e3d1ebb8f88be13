/-
The runs of a node, one call after the other from a new node on: blocks
are recorded, `SetBestChain` is called for blocks of the index, and what
else changes the state leaves the chain alone. A run keeps the node at a tip
as long as no call of `SetBestChain` stops half-way.
-/
import Pinkcoin.TipFacts
import Pinkcoin.AcceptBlock

namespace Pinkcoin

open StateError
open Node (Stored Connected Follows Tip AtTip Steady Loose HashesApart)

variable {P : Params} {T : CTransaction → Prop} {env : Env} {s s' : Node} {t : Uint256}

/-! ## A block recorded -/

/-- What recording a block does: all that changes is the index, by the new
record, its entry in the database, and what the node keeps about stakes. -/
structure Recorded (P : Params) (block : CBlock) (nFile nBlockPos : Nat) (s s' : Node) : Prop where
  rest : s' = { s with
    txdb := s'.txdb
    mapBlockIndex := s'.mapBlockIndex
    nBaseStakeTrust := s'.nBaseStakeTrust
    nBaseStakeTrustHeight := s'.nBaseStakeTrustHeight
    setStakeSeen := s'.setStakeSeen }
  tree : s'.mapBlockIndex = s.mapBlockIndex ∨ s.mapBlockIndex.find (block.getHash P) = none ∧
    ∃ b : CBlockIndex, b.nFile = nFile ∧ b.nBlockPos = nBlockPos ∧
      s'.mapBlockIndex = s.mapBlockIndex.add (block.getHash P) block.hashPrevBlock b
  batch : s'.txdb.batch = none
  read : ∀ k, (∀ h, k ≠ .blockindex h) → s'.txdb.read k = s.txdb.read k

theorem ofBlock_at {nFile nBlockPos : Nat} {block : CBlock} {b : CBlockIndex} {kept : StakeTrust}
    (h : block.trustedIndex P s nFile nBlockPos = some (b, kept)) : b.nFile = nFile ∧ b.nBlockPos = nBlockPos := by
  unfold CBlock.trustedIndex at h
  simp only [Option.bind_eq_bind, Option.bind_eq_some_iff, Option.some.injEq, Prod.mk.injEq] at h
  obtain ⟨⟨nBlockTrust, kept'⟩, -, rfl, -⟩ := h
  unfold BlockTree.link
  split <;> exact ⟨rfl, rfl⟩

theorem read_committed {db : CTxDB} (hb : db.batch = none) (d : CDiskBlockIndex) {k : DbKey}
    (hk : ∀ h, k ≠ .blockindex h) :
    (BatchStore.Store.commit (db.txnBegin.writeBlockIndex P d)).read k = db.read k := by
  rw [BatchStore.read_commit, CTxDB.writeBlockIndex, BatchStore.read_write_of_ne (hk _), CTxDB.txnBegin,
    BatchStore.read_begin, BatchStore.read_of_no_batch hb]

/-- The record `AddToBlockIndex` adds, from the one with its trust. -/
def CBlock.finished (P : Params) (hashProof : Uint256) (m : Nat × Bool) (block : CBlock) (b : CBlockIndex) : CBlockIndex :=
  { b with
    fStakeEntropy := block.getStakeEntropyBit P
    hashProof := hashProof
    nStakeModifier := m.1
    fStakeModifier := m.2 }

/-- The state before the commit of a new record. -/
def CBlock.recorded (P : Params) (hashProof : Uint256) (m : Nat × Bool) (block : CBlock) (b : CBlockIndex)
    (kept : StakeTrust) (s : Node) : Node :=
  let pindexNew := block.finished P hashProof m b
  { s with
    nBaseStakeTrust := kept.nBaseStakeTrust
    nBaseStakeTrustHeight := kept.nBaseStakeTrustHeight
    mapBlockIndex := s.mapBlockIndex.add (block.getHash P) block.hashPrevBlock pindexNew
    setStakeSeen :=
      if pindexNew.fProofOfStake then (pindexNew.prevoutStake, pindexNew.nStakeTime) :: s.setStakeSeen
      else s.setStakeSeen
    txdb := s.txdb.txnBegin.writeBlockIndex P (CDiskBlockIndex.ofIndex pindexNew) }

theorem insertBlockIndex_ok {block : CBlock} {nFile nBlockPos : Nat} {hashProof : Uint256} {u : Unit}
    (hrun : block.insertBlockIndex P env nFile nBlockPos hashProof s = .ok u s') :
    ∃ b kept m, s.mapBlockIndex.find (block.getHash P) = none ∧ block.trustedIndex P s nFile nBlockPos = some (b, kept) ∧
      s' = (block.recorded P hashProof m b kept s).withTxdb (block.recorded P hashProof m b kept s).txdb.commit := by
  simp only [CBlock.insertBlockIndex, bind_ok, get_ok, rejectIf_ok] at hrun
  obtain ⟨_, _, ⟨rfl, rfl⟩, _, s, ⟨hnew, rfl⟩, hrun⟩ := hrun
  cases htrust : block.trustedIndex P s nFile nBlockPos with
  | none => simp [htrust] at hrun
  | some r =>
    obtain ⟨b, kept⟩ := r
    simp only [htrust, bind_ok, modify_ok, withError_ok, lift_ok, txnCommit_ok] at hrun
    obtain ⟨_, _, rfl, m, _, ⟨-, rfl⟩, _, _, rfl, -, rfl⟩ := hrun
    exact ⟨b, kept, m, not_not.mp hnew, rfl, rfl⟩

theorem insertBlockIndex_error {block : CBlock} {nFile nBlockPos : Nat} {hashProof : Uint256} {e : Reject}
    (hrun : block.insertBlockIndex P env nFile nBlockPos hashProof s = .error e s') :
    s' = s ∨ ∃ b kept, block.trustedIndex P s nFile nBlockPos = some (b, kept) ∧
      (s' = { s with nBaseStakeTrust := kept.nBaseStakeTrust, nBaseStakeTrustHeight := kept.nBaseStakeTrustHeight } ∨
        s.mapBlockIndex.find (block.getHash P) = none ∧ ∃ m, s' = (block.recorded P hashProof m b kept s).withTxdb
          (block.recorded P hashProof m b kept s).txdb.txnAbort) := by
  simp only [CBlock.insertBlockIndex, bind_error, get_error, get_ok, rejectIf_error, rejectIf_ok, false_or] at hrun
  obtain ⟨_, _, ⟨rfl, rfl⟩, ⟨-, -, rfl⟩ | ⟨_, s, ⟨hnew, rfl⟩, hrun⟩⟩ := hrun
  · exact .inl rfl
  · cases htrust : block.trustedIndex P s nFile nBlockPos with
    | none =>
      simp only [htrust, throw_error] at hrun
      exact .inl hrun.2
    | some r =>
      obtain ⟨b, kept⟩ := r
      simp only [htrust, bind_error, modify_error, modify_ok, withError_error, withError_ok, lift_error, lift_ok,
        false_or] at hrun
      refine .inr ⟨b, kept, rfl, ?_⟩
      obtain ⟨_, _, rfl, ⟨-, _, -, rfl⟩ | ⟨m, _, ⟨-, rfl⟩, _, _, rfl, hcommit⟩⟩ := hrun
      · exact .inl rfl
      · exact .inr ⟨not_not.mp hnew, m, txnCommit_error hcommit⟩

/-- Recording a block, however it ends. -/
theorem recorded_insertBlockIndex (block : CBlock) (nFile nBlockPos : Nat) (hashProof : Uint256)
    (hb : s.txdb.batch = none) :
    Recorded P block nFile nBlockPos s (endState (block.insertBlockIndex P env nFile nBlockPos hashProof s)) := by
  cases hrun : block.insertBlockIndex P env nFile nBlockPos hashProof s with
  | ok u s' =>
    obtain ⟨b, kept, m, hnew, htrust, rfl⟩ := insertBlockIndex_ok hrun
    obtain ⟨hfile, hpos⟩ := ofBlock_at htrust
    exact ⟨rfl, .inr ⟨hnew, block.finished P hashProof m b, hfile, hpos, rfl⟩, rfl, fun k hk => read_committed hb _ hk⟩
  | error e s' =>
    rcases insertBlockIndex_error hrun with rfl | ⟨b, kept, htrust, rfl | ⟨hnew, m, rfl⟩⟩
    · exact ⟨rfl, .inl rfl, hb, fun _ _ => rfl⟩
    · exact ⟨rfl, .inl rfl, hb, fun _ _ => rfl⟩
    · obtain ⟨hfile, hpos⟩ := ofBlock_at htrust
      refine ⟨rfl, .inr ⟨hnew, block.finished P hashProof m b, hfile, hpos, rfl⟩, rfl, fun k _ => ?_⟩
      rw [endState_error, BatchStore.read_of_no_batch hb]
      rfl

/-! ## The index and the disk of a node that records a block -/

/-- Write a block to disk and record it: what `AcceptBlock` does first. -/
def CBlock.store (P : Params) (env : Env) (hashProof : Uint256) (block : CBlock) : NodeM Unit := do
  let (nFile, nBlockPos) ← block.writeToDisk
  block.insertBlockIndex P env nFile nBlockPos hashProof

/-- The state after the write to disk. -/
def Node.appended (s : Node) (block : CBlock) : Node := { s with disk := s.disk.append block }

theorem store_run (block : CBlock) (hashProof : Uint256) :
    block.store P env hashProof s =
      block.insertBlockIndex P env s.disk.nextFile s.disk.nextPos hashProof (s.appended block) := rfl

theorem grows_appended (block : CBlock) : Node.Grows s (s.appended block) :=
  ⟨.refl, fun hb => BlockFiles.block_append hb⟩

namespace Recorded

variable {block : CBlock} {nFile nBlockPos : Nat} (hr : Recorded P block nFile nBlockPos s s')

include hr

theorem grows : Node.Grows s s' := by
  refine ⟨?_, fun hb => by rw [hr.rest]; exact hb⟩
  rcases hr.tree with htree | ⟨-, b, -, -, htree⟩
  · rw [htree]
    exact .refl
  · rw [htree]
    exact BlockTree.grows_add

/-- A record is an old one or the new one, at its place in the tree. -/
theorem find {h : Uint256} {b' : CBlockIndex} (hb' : s'.mapBlockIndex.find h = some b') :
    s.mapBlockIndex.find h = some b' ∨
      h = block.getHash P ∧ s.mapBlockIndex.find h = none ∧ b'.nFile = nFile ∧ b'.nBlockPos = nBlockPos ∧
        b'.pnext = none ∧ ∃ b, b' = s.mapBlockIndex.link h block.hashPrevBlock b := by
  rcases hr.tree with htree | ⟨hnew, b, hfile, hpos, htree⟩
  · rw [htree] at hb'
    exact .inl hb'
  · rw [htree, BlockTree.find_add hnew] at hb'
    by_cases hh : h = block.getHash P
    · rw [if_pos hh, Option.some.injEq] at hb'
      refine .inr ⟨hh, hh ▸ hnew, ?_, ?_, ?_, b, by rw [hh, hb']⟩
      all_goals
        rw [← hb', BlockTree.link]
        split
      · exact hfile
      · exact hfile
      · exact hpos
      · exact hpos
      · rfl
      · rfl
    · rw [if_neg hh] at hb'
      exact .inl hb'

theorem find_old {h : Uint256} (hh : s.mapBlockIndex.Has h) : s'.mapBlockIndex.find h = s.mapBlockIndex.find h := by
  rcases hr.tree with htree | ⟨hnew, b, -, -, htree⟩
  · rw [htree]
  · have hne : h ≠ block.getHash P := fun he => hh (by rw [he]; exact hnew)
    rw [htree, BlockTree.find_add hnew, if_neg hne]

end Recorded

/-- The pointers mark the same chain: a new record has none. -/
theorem Recorded.marks {block : CBlock} {nFile nBlockPos : Nat} (hr : Recorded P block nFile nBlockPos s s')
    (hm : s.mapBlockIndex.MarksTo t) (ht : s.mapBlockIndex.Has t) : s'.mapBlockIndex.MarksTo t := by
  intro h b' hb' q
  have hparent : q ∈ s.mapBlockIndex.chain t → (s'.mapBlockIndex.forest.parent q = some h ↔
      s.mapBlockIndex.forest.parent q = some h) := fun hq => by
    rw [hr.grows.tree.parent_eq (BlockTree.has_of_mem_chain ht hq)]
  rw [hr.grows.tree.chain_eq ht]
  rcases hr.find hb' with hb | ⟨rfl, hnew, -, -, hpnext, -⟩
  · exact (hm h b' hb q).trans (and_congr_right fun hq => (hparent hq).symm)
  · rw [hpnext]
    constructor
    · intro hq
      simp at hq
    · rintro ⟨hq, hqp⟩
      exact absurd hnew (BlockTree.has_of_parent ((hparent hq).mp hqp)).2

/-- Index and disk still belong together: the new block is on disk under its
record, on top of its predecessor. -/
theorem Recorded.stored {block : CBlock} (hs : Stored P T s)
    (hr : Recorded P block s.disk.nextFile s.disk.nextPos (s.appended block) s')
    (hprev : ∃ bp, s.mapBlockIndex.find block.hashPrevBlock = some bp ∧ block.numberedAs (bp.nHeight + 1))
    (hT : ∀ tx ∈ block.vtx, T tx) : Stored P T s' := by
  obtain ⟨bp, hbp, hnum⟩ := hprev
  have hdisk : s'.disk = s.disk.append block := by rw [hr.rest]; rfl
  have hlink : ∀ b, (s.mapBlockIndex.link (block.getHash P) block.hashPrevBlock b).pprev = some block.hashPrevBlock ∧
      (s.mapBlockIndex.link (block.getHash P) block.hashPrevBlock b).nHeight = bp.nHeight + 1 := fun b => by
    rw [BlockTree.link, hbp]
    exact ⟨rfl, rfl⟩
  refine ⟨by rw [hr.rest]; exact hs.genesis, fun h b' hb' hp => ?_, fun h b' hb' => ?_⟩
  · rcases hr.find hb' with hb | ⟨rfl, -, -, -, -, b, rfl⟩
    · exact hs.root h b' hb hp
    · simp [show (s.appended block).mapBlockIndex = s.mapBlockIndex from rfl, (hlink b).1] at hp
  · rcases hr.find hb' with hb | ⟨rfl, -, hfile, hpos, -, b, hbl⟩
    · obtain ⟨c, hc, hhash, hall⟩ := hs.onDisk h b' hb
      exact ⟨c, by rw [hdisk]; exact BlockFiles.block_append hc, hhash, hall⟩
    · refine ⟨block, by rw [hdisk, hfile, hpos]; exact BlockFiles.block_append_self block, rfl, fun p hp => ?_⟩
      have hbl' : b' = s.mapBlockIndex.link (block.getHash P) block.hashPrevBlock b := hbl
      rw [hbl', (hlink b).1, Option.some.injEq] at hp
      exact ⟨hp.symm, by rw [hbl', (hlink b).2]; exact hnum, hT⟩

/-- Recording a block leaves the node at its tip. -/
theorem Recorded.atTip {block : CBlock} {nFile nBlockPos : Nat} (ht : AtTip s t)
    (hr : Recorded P block nFile nBlockPos (s.appended block) s') : AtTip s' t := by
  obtain ⟨b, hb, hheight⟩ := ht.nBestHeight
  refine ⟨hr.batch, by rw [hr.rest]; exact ht.genesis, by rw [hr.rest]; exact ht.pindexBest,
    by rw [hr.rest]; exact ht.hashBestChain, b, ?_, by rw [hr.rest]; exact hheight⟩
  rw [hr.find_old (BlockTree.has_of_find hb)]
  exact hb

theorem Recorded.tip {block : CBlock} (ht : Tip P T s t)
    (hr : Recorded P block s.disk.nextFile s.disk.nextPos (s.appended block) s')
    (hprev : ∃ bp, s.mapBlockIndex.find block.hashPrevBlock = some bp ∧ block.numberedAs (bp.nHeight + 1))
    (hT : ∀ tx ∈ block.vtx, T tx) : Tip P T s' t := by
  have hf := ht.follows
  have hg : Node.Grows s s' := (grows_appended block).trans hr.grows
  have hread : ∀ k, (∀ h, k ≠ .blockindex h) → s'.txdb.read k = s.txdb.read k := hr.read
  refine ⟨hr.atTip ht.toAtTip, hr.stored hf.stored hprev hT, ?_, ?_, hr.marks hf.marks hf.connected.has⟩
  · refine hf.connected.transfer hf.stored hg (fun h hh b b' hb hb' => ?_) ?_
    · rw [hr.find_old (BlockTree.has_of_find hb)] at hb'
      rw [Option.some.inj (hb.symm.trans hb')]
    · funext h
      rw [CTxDB.book, CTxDB.book, CTxDB.readTxIndex, CTxDB.readTxIndex, hread _ (by simp)]
  · rw [CTxDB.readHashBestChain, hread _ (by simp)]
    exact hf.best

/-- What the checks of `AcceptBlock` say about the place of the block. -/
theorem acceptBlockChecks_place {block : CBlock} {hashProof : Uint256}
    (h : block.acceptBlockChecks P env s = .ok hashProof) :
    s.mapBlockIndex.find (block.getHash P) = none ∧
      ∃ bp, s.mapBlockIndex.find block.hashPrevBlock = some bp ∧ block.numberedAs (bp.nHeight + 1) := by
  unfold CBlock.acceptBlockChecks at h
  simp only [except_bind_ok, except_rejectIf_ok] at h
  obtain ⟨_, -, _, hnew, h⟩ := h
  refine ⟨not_not.mp hnew, ?_⟩
  cases hprev : s.mapBlockIndex.find block.hashPrevBlock with
  | none => simp [hprev] at h
  | some bp =>
    simp only [hprev, except_bind_ok, except_rejectIf_ok] at h
    obtain ⟨_, -, _, -, _, -, _, -, _, -, _, -, _, hnum, -⟩ := h
    exact ⟨bp, rfl, not_not.mp hnum⟩

/-! ## Steps beside the chain -/

/-- Only the pool, the wallets and what belongs to checkpoints change. -/
structure Aside (s s' : Node) : Prop where
  rest : s' = { s with
    txdb := s'.txdb
    mempool := s'.mempool
    wallets := s'.wallets
    hashSyncCheckpoint := s'.hashSyncCheckpoint
    hashPendingCheckpoint := s'.hashPendingCheckpoint
    hashInvalidCheckpoint := s'.hashInvalidCheckpoint }
  txdb : s.txdb.batch = none → s'.txdb.batch = none ∧
    ∀ k, k ≠ .hashSyncCheckpoint → k ≠ .strCheckpointPubKey → s'.txdb.read k = s.txdb.read k

namespace Aside

theorem refl : Aside s s := ⟨rfl, fun hb => ⟨hb, fun _ _ _ => rfl⟩⟩

theorem trans {s'' : Node} (h : Aside s s') (h' : Aside s' s'') : Aside s s'' := by
  refine ⟨by rw [h'.rest, h.rest], fun hb => ?_⟩
  obtain ⟨hb₁, hr₁⟩ := h.txdb hb
  obtain ⟨hb₂, hr₂⟩ := h'.txdb hb₁
  exact ⟨hb₂, fun k hk hk' => (hr₂ k hk hk').trans (hr₁ k hk hk')⟩

instance : Std.Refl Aside := ⟨fun _ => .refl⟩
instance : IsTrans Node Aside := ⟨fun _ _ _ h h' => h.trans h'⟩

theorem of_loose (h : Node.Loose s s') : Aside s s' := by
  rw [h]
  exact ⟨rfl, fun hb => ⟨hb, fun _ _ _ => rfl⟩⟩

theorem blockAt (h : Aside s s') {k : Uint256} : s'.blockAt k = s.blockAt k := by
  rw [h.rest]
  rfl

theorem atTip (h : Aside s s') (ht : AtTip s t) : AtTip s' t := by
  obtain ⟨b, hb, hheight⟩ := ht.nBestHeight
  exact ⟨(h.txdb ht.batch).1, by rw [h.rest]; exact ht.genesis, by rw [h.rest]; exact ht.pindexBest,
    by rw [h.rest]; exact ht.hashBestChain, b, by rw [h.rest]; exact hb, by rw [h.rest]; exact hheight⟩

theorem tip (h : Aside s s') (ht : Tip P T s t) : Tip P T s' t := by
  have hread := (h.txdb ht.batch).2
  refine ⟨h.atTip ht.toAtTip, ?_⟩
  refine ht.follows.stored.follows ht.follows.connected ?_ ?_ (by rw [h.rest]) (by rw [h.rest]) ?_ ?_
  · rw [h.rest]
    exact .refl
  · rw [h.rest]
    exact ht.follows.marks
  · funext k
    rw [CTxDB.book, CTxDB.book, CTxDB.readTxIndex, CTxDB.readTxIndex, hread _ (by simp) (by simp)]
  · rw [CTxDB.readHashBestChain, hread _ (by simp) (by simp)]
    exact ht.follows.best

end Aside

/-- A written checkpoint is in memory and in the database. -/
theorem writeSyncCheckpoint_ok {h : Uint256} {u : Unit} (hrun : writeSyncCheckpoint env h s = .ok u s') :
    s'.hashSyncCheckpoint = h ∧ s'.txdb.readSyncCheckpoint = some h ∧ s'.mempool = s.mempool := by
  simp only [writeSyncCheckpoint, modifyTxdb, bind_ok, modify_ok, txnCommit_ok] at hrun
  obtain ⟨_, _, rfl, _, _, ⟨-, rfl⟩, rfl⟩ := hrun
  refine ⟨rfl, ?_, rfl⟩
  rw [CTxDB.readSyncCheckpoint]
  exact BatchStore.read_commit.trans BatchStore.read_write

theorem aside_writeSyncCheckpoint (h : Uint256) : Keeps Aside (writeSyncCheckpoint env h) := by
  intro s
  have hread : s.txdb.batch = none → ∀ k, k ≠ .hashSyncCheckpoint →
      (BatchStore.Store.commit (s.txdb.txnBegin.writeSyncCheckpoint h)).read k = s.txdb.read k := fun hb k hk => by
    rw [BatchStore.read_commit, CTxDB.writeSyncCheckpoint, BatchStore.read_write_of_ne hk, CTxDB.txnBegin,
      BatchStore.read_begin, BatchStore.read_of_no_batch hb]
  cases hrun : writeSyncCheckpoint env h s with
  | ok u s' =>
    simp only [writeSyncCheckpoint, modifyTxdb, bind_ok, modify_ok, txnCommit_ok] at hrun
    obtain ⟨_, _, rfl, _, _, ⟨-, rfl⟩, rfl⟩ := hrun
    exact ⟨rfl, fun hb => ⟨rfl, fun k hk _ => hread hb k hk⟩⟩
  | error e s' =>
    simp only [writeSyncCheckpoint, modifyTxdb, bind_error, modify_error, modify_ok, and_false, exists_false, or_false,
      false_or] at hrun
    obtain ⟨_, _, rfl, hcommit⟩ := hrun
    rw [endState_error, txnCommit_error hcommit]
    exact ⟨rfl, fun hb => ⟨rfl, fun k _ _ => by
      rw [BatchStore.read_of_no_batch hb, Node.withTxdb_txdb, CTxDB.txnAbort, BatchStore.read_abort]
      rfl⟩⟩

/-! ## A new node -/

/-- The genesis block has some trust. -/
theorem genesis_trust {nFile nBlockPos : Nat} {b : CBlockIndex} {kept : StakeTrust}
    (hnew : s.mapBlockIndex = BlockTree.empty) (hbest : s.pindexBest = none)
    (h : (genesisBlock P).trustedIndex P s nFile nBlockPos = some (b, kept)) : 0 < b.nChainTrust := by
  have hlimit : 0 < addTrust 0 (trustOf 1486329989 (CBigNum.getCompact P.bnProofOfWorkLimit) false 0) := by
    unfold Params.bnProofOfWorkLimit
    cases P.fTestNet <;> decide +kernel
  have hlink : s.mapBlockIndex.find (genesisBlock P).hashPrevBlock = none := by
    rw [hnew]
    rfl
  unfold CBlock.trustedIndex at h
  simp only [BlockTree.link, hlink, hbest, Option.elim_none, Option.bind_eq_bind, Option.bind_eq_some_iff,
    Option.some.injEq, Prod.mk.injEq] at h
  obtain ⟨⟨nBlockTrust, kept'⟩, htrust, rfl, -⟩ := h
  rw [getBlockTrust, if_pos (.inr (by simp [CBlockIndex.ofBlock, genesisBlock, nTimeV221])), Option.some.injEq,
    Prod.mk.injEq] at htrust
  rw [← htrust.1]
  exact hlimit

theorem setBestChain_genesis {block : CBlock} {h : Uint256} {u : Unit} (hg : s.pindexGenesisBlock = none)
    (hh : block.getHash P = P.hashGenesisBlock) (hrun : setBestChain P env block h s = .ok u s') :
    ∃ b, s.mapBlockIndex.find h = some b ∧ s' = { s with
      txdb := (s.txdb.txnBegin.writeHashBestChain (block.getHash P)).commit
      pindexGenesisBlock := some h
      hashBestChain := block.getHash P
      pindexBest := some h
      nBestHeight := b.nHeight
      nBestChainTrust := b.nChainTrust } := by
  simp only [setBestChain, moveChain, installBest, modifyTxdb, bind_ok, modify_ok, deref_ok, get_ok] at hrun
  obtain ⟨_, _, rfl, _, _, ⟨_, _, ⟨rfl, rfl⟩, hmv⟩, b, s₁, ⟨hb, rfl⟩, rfl⟩ := hrun
  rw [if_pos ⟨hg, hh⟩] at hmv
  simp only [bind_ok, modify_ok, txnCommit_ok] at hmv
  obtain ⟨_, _, rfl, _, _, ⟨-, rfl⟩, rfl⟩ := hmv
  exact ⟨b, hb, rfl⟩

/-- A node with the genesis block recorded, and nothing else. -/
structure AtGenesis (P : Params) (g : CBlockIndex) (s : Node) : Prop where
  find : ∀ k, s.mapBlockIndex.find k = if k = P.hashGenesisBlock then some g else none
  pprev : g.pprev = none
  pnext : g.pnext = none
  supply : g.nMoneySupply = 0
  block : s.disk.block g.nFile g.nBlockPos = some (genesisBlock P)
  hash : (genesisBlock P).getHash P = P.hashGenesisBlock
  index : ∀ k, s.txdb.readTxIndex k = none
  mempool : s.mempool = CTxMemPool.empty

theorem atGenesis_inserted {wallets : List CWallet} {hashProof : Uint256} {u : Unit}
    (hh : (genesisBlock P).getHash P = P.hashGenesisBlock)
    (h : (genesisBlock P).store P env hashProof (Node.empty wallets) = .ok u s) :
    ∃ g, AtGenesis P g s ∧ 0 < g.nChainTrust ∧ s.pindexGenesisBlock = none ∧ s.nBestChainTrust = 0 ∧
      s.txdb.batch = none := by
  rw [store_run] at h
  obtain ⟨b, kept, m, hnew, htrust, rfl⟩ := insertBlockIndex_ok h
  obtain ⟨hfile, hpos⟩ := ofBlock_at htrust
  have hsupply : b.nMoneySupply = 0 := by
    unfold CBlock.trustedIndex at htrust
    simp only [Option.bind_eq_bind, Option.bind_eq_some_iff, Option.some.injEq, Prod.mk.injEq] at htrust
    obtain ⟨_, -, rfl, -⟩ := htrust
    rfl
  refine ⟨BlockTree.empty.link P.hashGenesisBlock 0 ((genesisBlock P).finished P hashProof m b),
    ⟨fun k => ?_, ?_, ?_, ?_, ?_, hh, fun k => ?_, rfl⟩, ?_, rfl, rfl, rfl⟩
  · rw [Node.withTxdb_mapBlockIndex, CBlock.recorded, hh, BlockTree.find_add (by rw [← hh]; exact hnew)]
    rfl
  · rfl
  · rfl
  · exact hsupply
  · change ((Node.empty wallets).disk.append (genesisBlock P)).block b.nFile b.nBlockPos = _
    rw [hfile, hpos]
    exact BlockFiles.block_append_self _
  · rw [CTxDB.readTxIndex]
    refine (BatchStore.read_commit).trans ?_
    rw [CBlock.recorded, CTxDB.writeBlockIndex, BatchStore.read_write_of_ne (by simp), CTxDB.txnBegin, BatchStore.read_begin]
    rfl
  · change 0 < b.nChainTrust
    exact genesis_trust rfl rfl htrust

theorem AtGenesis.tip {g : CBlockIndex} (hg : AtGenesis P g s) (hbatch : s.txdb.batch = none)
    (hgenesis : s.pindexGenesisBlock = some P.hashGenesisBlock) (hbest : s.txdb.readHashBestChain = some P.hashGenesisBlock)
    (hindex : s.pindexBest = some P.hashGenesisBlock) (hhash : s.hashBestChain = P.hashGenesisBlock)
    (hheight : s.nBestHeight = g.nHeight) : Tip P T s P.hashGenesisBlock := by
  have hfind : s.mapBlockIndex.find P.hashGenesisBlock = some g := by rw [hg.find, if_pos rfl]
  have honly : ∀ {k b}, s.mapBlockIndex.find k = some b → k = P.hashGenesisBlock ∧ b = g := fun {k b} hb => by
    rw [hg.find] at hb
    by_cases hk : k = P.hashGenesisBlock
    · rw [if_pos hk, Option.some.injEq] at hb
      exact ⟨hk, hb.symm⟩
    · simp [hk] at hb
  have hchain : s.mapBlockIndex.chain P.hashGenesisBlock = [P.hashGenesisBlock] :=
    BlockTree.chain_of_no_pprev hfind hg.pprev
  have htxs : s.chainTxs P P.hashGenesisBlock = [] := Node.chainTxs_of_no_pprev hfind hg.pprev
  have hledger : s.ledger P P.hashGenesisBlock = fun _ => none := by rw [Node.ledger, htxs]; rfl
  refine ⟨⟨hbatch, by rw [hgenesis]; simp, hindex, hhash, g, hfind, hheight⟩, ?_, ?_, hbest, ?_⟩
  · refine ⟨hgenesis, fun h b hb _ => (honly hb).1, fun h b hb => ?_⟩
    obtain ⟨rfl, rfl⟩ := honly hb
    exact ⟨genesisBlock P, hg.block, hg.hash, fun p hp => by simp [hg.pprev] at hp⟩
  · refine ⟨BlockTree.has_of_find hfind, ?_, ?_, ?_, ?_⟩
    · rw [hledger]
      funext k
      rw [CTxDB.book, hg.index]
      rfl
    · rw [htxs]
      trivial
    · intro h _ b p block hb hp
      rw [(honly hb).2, hg.pprev] at hp
      simp at hp
    · intro h hh b hb
      obtain ⟨rfl, rfl⟩ := honly hb
      rw [hg.supply, Node.unspentOf, htxs]
      rfl
  · intro h b hb q
    obtain ⟨rfl, rfl⟩ := honly hb
    rw [hg.pnext, hchain, List.mem_singleton]
    constructor
    · intro hq
      simp at hq
    · rintro ⟨rfl, hq⟩
      rw [BlockTree.parent_eq hfind, hg.pprev] at hq
      simp at hq

theorem AtGenesis.blockAt {g : CBlockIndex} (hg : AtGenesis P g s) : s.blockAt P.hashGenesisBlock = some (genesisBlock P) := by
  simp [Node.blockAt, hg.find, hg.block]

/-- A new node after its genesis block. -/
theorem loadGenesis_ok {wallets : List CWallet} {u : Unit} (h : loadGenesis P env (Node.empty wallets) = .ok u s) :
    Tip P T s P.hashGenesisBlock ∧ (∀ k, s.mapBlockIndex.Has k → k = P.hashGenesisBlock) ∧
      s.hashSyncCheckpoint = P.hashGenesisBlock ∧ s.txdb.readSyncCheckpoint = some P.hashGenesisBlock ∧
      s.blockAt P.hashGenesisBlock = some (genesisBlock P) ∧ s.mempool = CTxMemPool.empty := by
  simp only [loadGenesis, bind_ok, lift_ok, rejectIf_ok, withError_ok, CBlock.addToBlockIndex, deref_ok, get_ok] at h
  obtain ⟨_, _, ⟨hcheck, rfl⟩, _, _, ⟨-, rfl⟩, ⟨nFile, nBlockPos⟩, s₀, hwrite, _, s₂, ⟨_, _, hins, g', _, ⟨hg', rfl⟩, _, s₁,
    ⟨rfl, rfl⟩, hset⟩, hsync⟩ := h
  have hh : (genesisBlock P).getHash P = P.hashGenesisBlock := by
    simp only [checkGenesis, except_bind_ok, except_rejectIf_ok, not_not] at hcheck
    obtain ⟨_, -, _, hh, -⟩ := hcheck
    exact hh
  obtain ⟨g, hg, htrust, hnone, hzero, hbatch⟩ := atGenesis_inserted hh (bind_ok.mpr ⟨(nFile, nBlockPos), s₀, hwrite, hins⟩)
  have hgfind : s₁.mapBlockIndex.find P.hashGenesisBlock = some g := by rw [hg.find, if_pos rfl]
  rw [hh, hgfind, Option.some.injEq] at hg'
  rw [hzero, ← hg', if_pos htrust, hh] at hset
  obtain ⟨g₂, hg₂, rfl⟩ := setBestChain_genesis hnone hh hset
  obtain rfl := Option.some.inj (hgfind.symm.trans hg₂)
  -- the node is at the genesis block, and its checkpoint is written next
  have hg₃ : AtGenesis P g { s₁ with
      txdb := (s₁.txdb.txnBegin.writeHashBestChain ((genesisBlock P).getHash P)).commit
      pindexGenesisBlock := some P.hashGenesisBlock
      hashBestChain := (genesisBlock P).getHash P
      pindexBest := some P.hashGenesisBlock
      nBestHeight := g.nHeight
      nBestChainTrust := g.nChainTrust } := by
    refine ⟨hg.find, hg.pprev, hg.pnext, hg.supply, hg.block, hh, fun k => ?_, hg.mempool⟩
    have hread : s₁.txdb.txnBegin.readTxIndex k = s₁.txdb.readTxIndex k := by
      rw [CTxDB.readTxIndex, CTxDB.txnBegin, BatchStore.read_begin, CTxDB.readTxIndex, BatchStore.read_of_no_batch hbatch]
    exact (readTxIndex_eq_of_book (book_commit_best _ _) k).trans (hread.trans (hg.index k))
  have htip : Tip P T _ P.hashGenesisBlock := hg₃.tip rfl rfl (by rw [← hh]; exact best_commit_best _ _) rfl hh rfl
  have haside := (aside_writeSyncCheckpoint P.hashGenesisBlock).ok hsync
  obtain ⟨hmem, hdb, hpool⟩ := writeSyncCheckpoint_ok hsync
  refine ⟨haside.tip htip, fun k hk => ?_, hmem, hdb, haside.blockAt.trans hg₃.blockAt, hpool.trans hg₃.mempool⟩
  rw [haside.rest] at hk
  by_contra hne
  exact hk ((hg₃.find k).trans (if_neg hne))

/-- With nothing but the genesis block, `ResetSyncCheckpoint` sets the
checkpoint to it. -/
theorem resetSyncCheckpoint_ok {u : Unit} (honly : ∀ k, s.mapBlockIndex.Has k → k = P.hashGenesisBlock)
    (hbest : s.pindexBest = some P.hashGenesisBlock) (hrun : resetSyncCheckpoint P env s = .ok u s') :
    Aside s s' ∧ s'.hashSyncCheckpoint = P.hashGenesisBlock ∧ s'.txdb.readSyncCheckpoint = some P.hashGenesisBlock ∧
      s'.mempool = s.mempool := by
  simp only [resetSyncCheckpoint, bind_ok, get_ok] at hrun
  obtain ⟨_, s, ⟨rfl, rfl⟩, hrun⟩ := hrun
  cases hhead : P.checkpointsDown.head? with
  | none => simp [hhead] at hrun
  | some hash =>
    -- the checkpoint that is written is a block of the index
    have hrest : ∀ (s₁ : Node) (k : Uint256), Aside s s₁ → s₁.mempool = s.mempool →
        s₁.mapBlockIndex.Has k → writeSyncCheckpoint env k s₁ = .ok u s' →
        Aside s s' ∧ s'.hashSyncCheckpoint = P.hashGenesisBlock ∧
          s'.txdb.readSyncCheckpoint = some P.hashGenesisBlock ∧ s'.mempool = s.mempool := by
      intro s₁ k hm hpool hhas hwrite
      rw [hm.rest] at hhas
      rw [honly k hhas] at hwrite
      obtain ⟨hmem, hdb, hsame⟩ := writeSyncCheckpoint_ok hwrite
      exact ⟨hm.trans ((aside_writeSyncCheckpoint _).ok hwrite), hmem, hdb, hsame.trans hpool⟩
    -- the head of the list is the genesis block, which is on the main chain, or it is not known
    by_cases hhas : s.mapBlockIndex.Has hash
    · have hmain : s.isInMainChain hash := by
        rw [honly hash hhas]
        exact .inr hbest
      simp only [hhead, if_pos hhas, bind_ok, get_ok, moveToCheckpoint] at hrun
      obtain ⟨_, _, ⟨_, s, ⟨rfl, rfl⟩, hmove⟩, _, s₁, ⟨rfl, rfl⟩, hwrite⟩ := hrun
      rw [if_neg (not_not.mpr hmain), pure_ok] at hmove
      rw [← hmove.2] at hwrite
      cases hfind : P.checkpointsDown.find? fun k => decide (s.mapBlockIndex.Has k ∧ s.isInMainChain k) with
      | none =>
        rw [hfind] at hwrite
        simp at hwrite
      | some k =>
        rw [hfind] at hwrite
        have hknown := List.find?_some hfind
        exact hrest s k .refl rfl (of_decide_eq_true hknown).1 (withError_ok.mp hwrite)
    · simp only [hhead, if_neg hhas, bind_ok, modify_ok, get_ok] at hrun
      obtain ⟨_, _, rfl, _, s₁, ⟨rfl, rfl⟩, hwrite⟩ := hrun
      have hm : Aside s { s with hashPendingCheckpoint := hash } := ⟨rfl, fun hb => ⟨hb, fun _ _ _ => rfl⟩⟩
      cases hfind : P.checkpointsDown.find? fun k => decide (({ s with hashPendingCheckpoint := hash } : Node).mapBlockIndex.Has k ∧
          ({ s with hashPendingCheckpoint := hash } : Node).isInMainChain k) with
      | none =>
        rw [hfind] at hwrite
        simp at hwrite
      | some k =>
        rw [hfind] at hwrite
        have hknown := List.find?_some hfind
        exact hrest _ k hm rfl (of_decide_eq_true hknown).1 (withError_ok.mp hwrite)

/-- **A new node** is at its genesis block, which is its sync-checkpoint. -/
theorem loadBlockIndex_ok {wallets : List CWallet} {u : Unit} (h : loadBlockIndex P env (Node.empty wallets) = .ok u s) :
    Tip P T s P.hashGenesisBlock ∧ s.hashSyncCheckpoint = P.hashGenesisBlock ∧
      s.txdb.readSyncCheckpoint = some P.hashGenesisBlock ∧ s.blockAt P.hashGenesisBlock = some (genesisBlock P) ∧
      s.mempool = CTxMemPool.empty := by
  simp only [loadBlockIndex, bind_ok, modifyTxdb, modify_ok, txnCommit_ok] at h
  obtain ⟨_, s₁, hgen, _, _, rfl, _, _, ⟨-, rfl⟩, hreset⟩ := h
  obtain ⟨htip, honly, hsync, hdb, hblock, hpool⟩ := loadGenesis_ok (T := T) hgen
  have hread : ∀ k, k ≠ .strCheckpointPubKey →
      (BatchStore.Store.commit (s₁.txdb.txnBegin.writeCheckpointPubKey strMasterPubKey)).read k = s₁.txdb.read k := by
    intro k hk
    rw [BatchStore.read_commit, CTxDB.writeCheckpointPubKey, BatchStore.read_write_of_ne hk, CTxDB.txnBegin,
      BatchStore.read_begin, BatchStore.read_of_no_batch htip.batch]
  have haside : Aside s₁ (s₁.withTxdb (s₁.txdb.txnBegin.writeCheckpointPubKey strMasterPubKey).commit) :=
    ⟨rfl, fun _ => ⟨rfl, fun k _ hk => hread k hk⟩⟩
  by_cases hnet : ¬ P.fTestNet
  · rw [if_pos hnet, withError_ok] at hreset
    obtain ⟨hm, hmem, hcheck, hsame⟩ := resetSyncCheckpoint_ok
      (s := s₁.withTxdb (s₁.txdb.txnBegin.writeCheckpointPubKey strMasterPubKey).commit) honly htip.pindexBest hreset
    exact ⟨hm.tip (haside.tip htip), hmem, hcheck, hm.blockAt.trans (haside.blockAt.trans hblock), hsame.trans hpool⟩
  · rw [if_neg hnet, pure_ok] at hreset
    rw [← hreset.2]
    exact ⟨haside.tip htip, hsync, (hread _ (by simp)).trans hdb, haside.blockAt.trans hblock, hpool⟩

/-! ## Runs -/

/-- One call, of any that change the state. `C` is a condition on the calls of
`SetBestChain`, `T` holds of the transactions of the blocks. -/
inductive Step (P : Params) (T : CTransaction → Prop) (C : Env → CBlock → Uint256 → Node → Prop) (s : Node) :
    Node → Prop
  /-- `AcceptBlock`, up to the record of the block. -/
  | record (env : Env) (block : CBlock) (hashProof : Uint256)
      (hchecks : block.acceptBlockChecks P env s = .ok hashProof) (hT : ∀ tx ∈ block.vtx, T tx) :
      Step P T C s (endState (block.store P env hashProof s))
  /-- `SetBestChain`, of a block that is in the index and not on the main chain. -/
  | setBestChain (env : Env) (block : CBlock) (h : Uint256) (hblock : s.blockAt h = some block)
      (hmain : ¬ s.isInMainChain h) (hC : C env block h s) : Step P T C s (endState (setBestChain P env block h s))
  /-- A loose transaction. -/
  | accept (env : Env) (tx : CTransaction) : Step P T C s (endState (acceptToMemoryPool P env tx s))
  /-- A transaction is taken from the pool. -/
  | remove (tx : CTransaction) (fRecursive : Bool) :
      Step P T C s { s with mempool := s.mempool.remove P tx fRecursive }
  /-- A checkpoint is written. -/
  | checkpoint (env : Env) (h : Uint256) : Step P T C s (endState (writeSyncCheckpoint env h s))
  /-- A checkpoint is noted as pending or as invalid. -/
  | note (hPending hInvalid : Uint256) :
      Step P T C s { s with hashPendingCheckpoint := hPending, hashInvalidCheckpoint := hInvalid }
  /-- The wallets change. -/
  | wallets (wallets : List CWallet) : Step P T C s { s with wallets := wallets }

/-- The states of a node, from a new one on. -/
inductive Reach (P : Params) (T : CTransaction → Prop) (C : Env → CBlock → Uint256 → Node → Prop) : Node → Prop
  | start {env : Env} {wallets : List CWallet} {s : Node} (h : loadBlockIndex P env (Node.empty wallets) = .ok () s) :
      Reach P T C s
  | step {s s' : Node} (hr : Reach P T C s) (h : Step P T C s s') : Reach P T C s'

/-- One call keeps the node at a tip, unless it is one of `SetBestChain` whose
loop stops half-way. -/
theorem Step.tip (hT : HashesApart P T) (ht : Tip P T s t)
    (h : Step P T (fun env block h s => branchAttaches P env block h s) s s') : ∃ t', Tip P T s' t' := by
  cases h with
  | record env block hashProof hchecks hTx =>
    rw [store_run]
    have hr : Recorded P block s.disk.nextFile s.disk.nextPos (s.appended block) (endState
        (block.insertBlockIndex P env s.disk.nextFile s.disk.nextPos hashProof (s.appended block))) :=
      recorded_insertBlockIndex block _ _ hashProof ht.batch
    exact ⟨t, hr.tip ht (acceptBlockChecks_place hchecks).2 hTx⟩
  | setBestChain env block h hblock hmain hC =>
    cases hrun : Pinkcoin.setBestChain P env block h s with
    | ok u s' =>
      obtain ⟨k, hf, hat, hiff⟩ := ht.setBestChain_ok hT hblock hmain hrun
      rw [hiff.mp hC] at hf
      exact ⟨h, hat, hf⟩
    | error e s' => exact ⟨t, ht.of_undone (setBestChain_error ht.toAtTip (ht.parent hblock hmain) hrun)⟩
  | accept env tx => exact ⟨t, (Aside.of_loose (keeps_acceptToMemoryPool tx s)).tip ht⟩
  | remove tx fRecursive => exact ⟨t, (Aside.of_loose (rfl : Loose s { s with mempool := s.mempool.remove P tx fRecursive })).tip ht⟩
  | checkpoint env h => exact ⟨t, (aside_writeSyncCheckpoint h s).tip ht⟩
  | note hPending hInvalid => exact ⟨t, Aside.tip ⟨rfl, fun hb => ⟨hb, fun _ _ _ => rfl⟩⟩ ht⟩
  | wallets ws => exact ⟨t, (Aside.of_loose (rfl : Loose s { s with wallets := ws })).tip ht⟩

/-- **A run keeps the node at a tip.** -/
theorem Reach.tip (hT : HashesApart P T) (h : Reach P T (fun env block h s => branchAttaches P env block h s) s) :
    ∃ t, Tip P T s t := by
  induction h with
  | start h => exact ⟨_, (loadBlockIndex_ok h).1⟩
  | step _ h ih =>
    obtain ⟨t, ht⟩ := ih
    exact Step.tip hT ht h

end Pinkcoin
