/-
The sync-checkpoint on the main network, where checkpoints are strict: it is
a block of the best chain, in memory and in the database, and it only moves
on to descendants. A block that arrives has to stand on it, a checkpoint that
is accepted has to stand on it too, so no branch the node can be moved to
leaves it out.
-/
import Pinkcoin.Placement

namespace Pinkcoin

open StateError
open Node (Placed Steady AtTip Undone Loose)

variable {P : Params} {T : CTransaction → Prop} {env : Env} {s s' : Node} {h t : Uint256} {block : CBlock}

/-! ## The walks along `pprev` -/

namespace BlockTree

variable {tree : BlockTree}

theorem mem_branch {x : Uint256} {b : CBlockIndex} (hb : b ∈ tree.branch x) :
    b.phashBlock ∈ tree.chain x ∧ tree.find b.phashBlock = some b := by
  obtain ⟨k, hk, hfind⟩ := List.mem_filterMap.mp hb
  rw [find_hash hfind]
  exact ⟨hk, hfind⟩

theorem mem_of_backTo {n : Nat} {branch : List CBlockIndex} {b : CBlockIndex} (h : backTo n branch = some b) :
    b ∈ branch := by
  rw [backTo, List.head?_eq_some_iff] at h
  obtain ⟨rest, hrest⟩ := h
  exact (List.dropWhile_suffix _).subset (by rw [hrest]; exact List.mem_cons_self)

end BlockTree

/-- A checkpoint that is validated is a block above the current one, on a
branch that goes through it. -/
theorem validateSyncCheckpoint_ok {u : Unit} (hrun : validateSyncCheckpoint h s = .ok u s') :
    s' = s ∧ s.mapBlockIndex.Has h ∧ s.hashSyncCheckpoint ∈ s.mapBlockIndex.chain h ∧ s.hashSyncCheckpoint ≠ h := by
  simp only [validateSyncCheckpoint, bind_ok, get_ok] at hrun
  obtain ⟨_, s, ⟨rfl, rfl⟩, hrun⟩ := hrun
  cases hsync : s.mapBlockIndex.find s.hashSyncCheckpoint with
  | none => simp [hsync] at hrun
  | some pindexSync =>
    cases hrecv : s.mapBlockIndex.find h with
    | none => simp [hsync, hrecv] at hrun
    | some pindexRecv =>
      simp only [hsync, hrecv] at hrun
      split at hrun
      next hle =>
        -- an older checkpoint is refused in every case
        cases hback : backTo pindexRecv.nHeight (s.mapBlockIndex.branch s.hashSyncCheckpoint) with
        | none => simp [hback] at hrun
        | some pindex =>
          simp only [hback] at hrun
          split at hrun <;> simp at hrun
      next hlt =>
        cases hback : backTo pindexSync.nHeight (s.mapBlockIndex.branch h) with
        | none => simp [hback] at hrun
        | some pindex =>
          simp only [hback] at hrun
          split at hrun
          next => simp at hrun
          next heq =>
            rw [pure_ok] at hrun
            have hmem := (BlockTree.mem_branch (BlockTree.mem_of_backTo hback)).1
            rw [not_not.mp heq] at hmem
            refine ⟨hrun.2.symm, BlockTree.has_of_find hrecv, hmem, fun he => hlt ?_⟩
            rw [he, hrecv, Option.some.injEq] at hsync
            rw [hsync]

/-- The checks of `AcceptBlock` let a new block pass only on top of the
sync-checkpoint. -/
theorem checkSync_mem {hash prev : Uint256} (hnet : ¬ P.fTestNet) (hnew : ¬ s.mapBlockIndex.Has hash)
    (hsync : s.mapBlockIndex.Has s.hashSyncCheckpoint) (hcheck : checkSync P s hash (s.mapBlockIndex.branch prev)) :
    s.hashSyncCheckpoint ∈ s.mapBlockIndex.chain prev := by
  rcases hcheck with hcheck | ⟨pindexPrev, hprev, pindexSync, hfind, habove, hsame, hbelow⟩
  · exact absurd hcheck hnet
  · rcases Nat.lt_trichotomy pindexSync.nHeight (pindexPrev.nHeight + 1) with hlt | heq | hgt
    · obtain ⟨pindex, hback, hpindex⟩ := habove hlt
      rw [not_or, not_not] at hpindex
      rw [← hpindex.2]
      exact (BlockTree.mem_branch (BlockTree.mem_of_backTo hback)).1
    · refine absurd ⟨heq.symm, fun he => hnew ?_⟩ hsame
      rw [he]
      exact hsync
    · exact absurd ⟨hgt, hnew⟩ hbelow

/-! ## A node on its sync-checkpoint -/

/-- The node is at `t`, and its sync-checkpoint is on the chain to `t`, in
memory and in the database. -/
structure Node.Guarded (P : Params) (s : Node) (t : Uint256) : Prop extends Placed P (fun _ => True) s t where
  sync : s.hashSyncCheckpoint ∈ s.mapBlockIndex.chain t
  written : s.txdb.readSyncCheckpoint = some s.hashSyncCheckpoint

open Node (Guarded)

namespace Node

theorem Guarded.has_sync (hg : Guarded P s t) : s.mapBlockIndex.Has s.hashSyncCheckpoint :=
  BlockTree.has_of_mem_chain hg.has hg.sync

/-- Pool, wallets and the notes about checkpoints do not matter. -/
theorem Guarded.of_rest (hg : Guarded P s t) (hr : s' = { s with
      mempool := s'.mempool
      wallets := s'.wallets
      hashPendingCheckpoint := s'.hashPendingCheckpoint
      hashInvalidCheckpoint := s'.hashInvalidCheckpoint }) : Guarded P s' t := by
  refine ⟨hg.toPlaced.of_aside ?_, ?_, ?_⟩
  · rw [hr]
    exact ⟨rfl, fun hb => ⟨hb, fun _ _ _ => rfl⟩⟩
  · rw [hr]
    exact hg.sync
  · rw [hr]
    exact hg.written

theorem Guarded.of_undone (hg : Guarded P s t) (hu : Undone (· ∈ s.mapBlockIndex.chain t) s s') : Guarded P s' t := by
  have hsync : s'.hashSyncCheckpoint = s.hashSyncCheckpoint := by rw [hu.inside.rest]
  refine ⟨hg.toPlaced.of_undone hu, ?_, ?_⟩
  · rw [hsync, hu.inside.grows.tree.chain_eq hg.has]
    exact hg.sync
  · rw [hsync, hu.txdb]
    exact hg.written

end Node

/-! ## What a call does to the sync-checkpoint -/

/-- A call leaves the node on its sync-checkpoint, which is the old one or a
descendant of it. -/
def Advances (P : Params) (s s' : Node) : Prop :=
  ∀ t, Guarded P s t → (∃ t', Guarded P s' t') ∧ s.mapBlockIndex.Grows s'.mapBlockIndex ∧
    s.hashSyncCheckpoint ∈ s'.mapBlockIndex.chain s'.hashSyncCheckpoint

theorem Advances.refl : Advances P s s := fun t hg => ⟨⟨t, hg⟩, .refl, Forest.self_mem_chain _⟩

theorem Advances.trans {s'' : Node} (h : Advances P s s') (h' : Advances P s' s'') : Advances P s s'' := by
  intro t hg
  obtain ⟨⟨t', hg'⟩, htree, hsync⟩ := h t hg
  obtain ⟨hg'', htree', hsync'⟩ := h' t' hg'
  refine ⟨hg'', htree.trans htree', Forest.mem_chain_trans hsync' ?_⟩
  change s.hashSyncCheckpoint ∈ s''.mapBlockIndex.chain s'.hashSyncCheckpoint
  rw [htree'.chain_eq hg'.has_sync]
  exact hsync

instance : Std.Refl (Advances P) := ⟨fun _ => .refl⟩
instance : IsTrans Node (Advances P) := ⟨fun _ _ _ h h' => h.trans h'⟩

theorem advances_of_rest (hr : s' = { s with
      mempool := s'.mempool
      wallets := s'.wallets
      hashPendingCheckpoint := s'.hashPendingCheckpoint
      hashInvalidCheckpoint := s'.hashInvalidCheckpoint }) : Advances P s s' := by
  intro t hg
  refine ⟨⟨t, hg.of_rest hr⟩, ?_, ?_⟩
  · rw [hr]
    exact .refl
  · rw [hr]
    exact Forest.self_mem_chain _

theorem Node.Guarded.advances {t' : Uint256} (hg' : Guarded P s' t') (htree : s.mapBlockIndex.Grows s'.mapBlockIndex)
    (hsync : s'.hashSyncCheckpoint = s.hashSyncCheckpoint) : Advances P s s' :=
  fun _ _ => ⟨⟨t', hg'⟩, htree, by rw [hsync]; exact Forest.self_mem_chain _⟩

/-- `SetBestChain` of a block above the sync-checkpoint. When it returns true
the node is at that block. -/
theorem Node.Guarded.setBestChain (env : Env) (hg : Guarded P s t) (hhash : block.getHash P = h)
    (hparent : s.mapBlockIndex.forest.parent h = some block.hashPrevBlock)
    (hsync : s.hashSyncCheckpoint ∈ s.mapBlockIndex.chain h) :
    (∃ t', Guarded P (endState (Pinkcoin.setBestChain P env block h s)) t') ∧
      ∀ u s', Pinkcoin.setBestChain P env block h s = .ok u s' → Guarded P s' h := by
  suffices hok : ∀ u s', Pinkcoin.setBestChain P env block h s = .ok u s' → Guarded P s' h by
    refine ⟨?_, hok⟩
    cases hrun : Pinkcoin.setBestChain P env block h s with
    | ok u s' => exact ⟨h, hok u s' hrun⟩
    | error e s' => exact ⟨t, hg.of_undone (setBestChain_error hg.toAtTip hparent hrun)⟩
  intro u s' hrun
  have hsteady : Steady s s' := (keeps_setBestChain block h).ok hrun
  have hp := hg.toPlaced.setBestChain_ok hhash hparent hrun
  have hkept : s'.hashSyncCheckpoint = s.hashSyncCheckpoint := by rw [hsteady.rest]
  refine ⟨hp, ?_, ?_⟩
  · rw [hkept, hsteady.tree.chain_eq (BlockTree.has_of_parent hparent).1]
    exact hsync
  · rw [hkept, ← hg.written]
    exact hsteady.sync.read_eq hg.batch hp.batch

/-- The block of a descendant of the sync-checkpoint, as it is read from disk. -/
theorem Node.Guarded.of_read {pindex : CBlockIndex} (hg : Guarded P s t) (hfind : s.mapBlockIndex.find h = some pindex)
    (hread : s.readIndexed env P pindex = .ok block) (hsync : s.hashSyncCheckpoint ∈ s.mapBlockIndex.chain h)
    (hne : s.hashSyncCheckpoint ≠ h) :
    block.getHash P = h ∧ s.mapBlockIndex.forest.parent h = some block.hashPrevBlock := by
  have hblock := Node.blockAt_of_readIndexed hfind hread
  refine ⟨hg.stored.getHash_eq hblock, hg.stored.parent_of_blockAt hblock fun he => hne ?_⟩
  -- nothing stands below the genesis block
  have hmem := hg.stored.genesis_mem_chain hg.has_sync
  rw [← he] at hmem
  have hle := Forest.rank_le hsync
  have hle' := Forest.rank_le hmem
  exact Forest.eq_of_rank_eq (Forest.self_mem_chain h) hsync (by omega)

/-- Moving to a checkpoint that was validated: when it succeeds the checkpoint
is on the node's chain. -/
theorem moveToCheckpoint_spec (env : Env) (fSync : Bool) (e₁ e₂ : String) (hg : Guarded P s t)
    (hsync : s.hashSyncCheckpoint ∈ s.mapBlockIndex.chain h) (hne : s.hashSyncCheckpoint ≠ h) :
    Advances P s (endState (moveToCheckpoint P env h fSync e₁ e₂ s)) ∧
      ∀ u s', moveToCheckpoint P env h fSync e₁ e₂ s = .ok u s' →
        s'.hashSyncCheckpoint = s.hashSyncCheckpoint ∧ ∃ t', Guarded P s' t' ∧ h ∈ s'.mapBlockIndex.chain t' := by
  by_cases hmain : s.isInMainChain h
  · have hrun : moveToCheckpoint P env h fSync e₁ e₂ s = .ok () s := by
      simp only [moveToCheckpoint, bind_ok, get_ok]
      exact ⟨s, s, ⟨rfl, rfl⟩, by rw [if_neg (not_not.mpr hmain)]; rfl⟩
    rw [hrun]
    refine ⟨.refl, fun u s' hs' => ?_⟩
    obtain ⟨-, rfl⟩ := EStateM.Result.ok.inj hs'
    exact ⟨rfl, t, hg, hg.marks.mem_chain hg.pindexBest hmain⟩
  · cases hrun : moveToCheckpoint P env h fSync e₁ e₂ s with
    | ok u s' =>
      simp only [moveToCheckpoint, bind_ok, get_ok] at hrun
      obtain ⟨_, s, ⟨rfl, rfl⟩, hrun⟩ := hrun
      rw [if_pos hmain] at hrun
      simp only [bind_ok, deref_ok] at hrun
      obtain ⟨pindex, s, ⟨hfind, rfl⟩, hrun⟩ := hrun
      cases hread : s.readIndexed env P pindex with
      | error e => simp [hread] at hrun
      | ok block =>
        simp only [hread, bind_ok, attempt_ok] at hrun
        obtain ⟨_, s₁, ⟨rfl, v, hset⟩ | ⟨rfl, -⟩, hrun⟩ := hrun
        · simp only [not_true, if_false, pure_ok] at hrun
          obtain ⟨-, rfl⟩ := hrun
          obtain ⟨hhash, hparent⟩ := hg.of_read hfind hread hsync hne
          have hg' := (hg.setBestChain env hhash hparent hsync).2 v s₁ hset
          have hsteady : Steady s s₁ := (keeps_setBestChain block h).ok hset
          have hkept : s₁.hashSyncCheckpoint = s.hashSyncCheckpoint := (congrArg Node.hashSyncCheckpoint hsteady.rest :)
          refine ⟨hg'.advances hsteady.tree hkept, fun _ s' hs' => ?_⟩
          obtain ⟨-, rfl⟩ := EStateM.Result.ok.inj hs'
          exact ⟨hkept, h, hg', Forest.self_mem_chain h⟩
        · simp at hrun
    | error e s' =>
      refine ⟨?_, fun u s' hs' => by simp at hs'⟩
      simp only [moveToCheckpoint, bind_error, get_error, get_ok, false_or] at hrun
      obtain ⟨_, s, ⟨rfl, rfl⟩, hrun⟩ := hrun
      rw [if_pos hmain] at hrun
      simp only [bind_error, deref_ok, deref_error] at hrun
      obtain ⟨-, -, rfl⟩ | ⟨pindex, s, ⟨hfind, rfl⟩, hrun⟩ := hrun
      · exact .refl
      · cases hread : s.readIndexed env P pindex with
        | error e =>
          simp only [hread, throw_error] at hrun
          rw [endState_error, hrun.2]
          exact .refl
        | ok block =>
          simp only [hread, bind_error, attempt_error, attempt_ok, false_or] at hrun
          obtain ⟨_, s₁, ⟨rfl, -⟩ | ⟨rfl, e', hset⟩, hrun⟩ := hrun
          · simp at hrun
          · -- the chain stays, and the checkpoint is noted as invalid
            simp only [Bool.false_eq_true, not_false_eq_true, if_true, bind_error, modify_error, modify_ok, throw_error,
              false_or] at hrun
            obtain ⟨_, _, rfl, -, rfl⟩ := hrun
            obtain ⟨hhash, hparent⟩ := hg.of_read hfind hread hsync hne
            have hu := setBestChain_error hg.toAtTip hparent hset
            have hkept : s₁.hashSyncCheckpoint = s.hashSyncCheckpoint := (congrArg Node.hashSyncCheckpoint hu.inside.rest :)
            exact ((hg.of_undone hu).advances hu.inside.grows.tree hkept).trans (advances_of_rest rfl)

/-- A checkpoint on the node's chain is written. -/
theorem Node.Guarded.written_ok {u : Unit} (hg : Guarded P s t) (hmem : h ∈ s.mapBlockIndex.chain t)
    (hrun : writeSyncCheckpoint env h s = .ok u s') : Guarded P s' t ∧ s'.mapBlockIndex = s.mapBlockIndex := by
  have ha : Aside s s' := (aside_writeSyncCheckpoint h).ok hrun
  obtain ⟨hsync, hwritten, -⟩ := writeSyncCheckpoint_ok hrun
  have htree : s'.mapBlockIndex = s.mapBlockIndex := by rw [ha.rest]
  exact ⟨⟨hg.toPlaced.of_aside ha, by rw [hsync, htree]; exact hmem, by rw [hsync, hwritten]⟩, htree⟩

theorem advances_write_error {e : Reject} (hrun : writeSyncCheckpoint env h s = .error e s') : Advances P s s' := by
  simp only [writeSyncCheckpoint, modifyTxdb, bind_error, modify_error, modify_ok, and_false, exists_false, or_false,
    false_or] at hrun
  obtain ⟨_, _, rfl, hcommit⟩ := hrun
  rw [txnCommit_error hcommit]
  intro t hg
  refine ⟨⟨t, ⟨⟨rfl, hg.genesis, hg.pindexBest, hg.hashBestChain, hg.nBestHeight⟩,
    hg.stored.of_cores (fun k b hb => ⟨b, hb, rfl⟩) rfl rfl, hg.marks⟩, hg.sync, ?_⟩, .refl, Forest.self_mem_chain _⟩
  refine Eq.trans ?_ hg.written
  rw [CTxDB.readSyncCheckpoint, CTxDB.readSyncCheckpoint, BatchStore.read_of_no_batch hg.batch]
  exact BatchStore.read_abort

/-- What accepting a checkpoint does once it is validated. -/
def adoptCheckpoint (P : Params) (env : Env) (h : Uint256) (e₁ e₂ : String) (e : Reject) : NodeM Unit := do
  moveToCheckpoint P env h true e₁ e₂
  withError e (writeSyncCheckpoint env h)
  modify fun s => { s with hashPendingCheckpoint := 0 }

/-- The checkpoint that is stored is a strict descendant of the old one. -/
structure Replaces (s s' : Node) (h : Uint256) : Prop where
  stored : s'.txdb.readSyncCheckpoint = some h
  descendant : s.hashSyncCheckpoint ∈ s'.mapBlockIndex.chain h
  strict : s.hashSyncCheckpoint ≠ h

theorem adoptCheckpoint_spec (env : Env) (e₁ e₂ : String) (e : Reject) (hg : Guarded P s t)
    (hsync : s.hashSyncCheckpoint ∈ s.mapBlockIndex.chain h) (hne : s.hashSyncCheckpoint ≠ h) (hh : s.mapBlockIndex.Has h) :
    Advances P s (endState (adoptCheckpoint P env h e₁ e₂ e s)) ∧
      ∀ u s', adoptCheckpoint P env h e₁ e₂ e s = .ok u s' → Replaces s s' h := by
  obtain ⟨hmove, hmoved⟩ := moveToCheckpoint_spec env true e₁ e₂ hg hsync hne
  cases hmv : moveToCheckpoint P env h true e₁ e₂ s with
  | error e' s₁ =>
    have hrun : adoptCheckpoint P env h e₁ e₂ e s = .error e' s₁ := bind_error.mpr (.inl hmv)
    rw [hmv] at hmove
    exact ⟨by rw [hrun]; exact hmove, fun u s' hs' => by simp [hrun] at hs'⟩
  | ok u s₁ =>
    rw [hmv, endState_ok] at hmove
    obtain ⟨hkept, t', hg', hmem⟩ := hmoved u s₁ hmv
    cases hw : writeSyncCheckpoint env h s₁ with
    | error e' s₂ =>
      have hrun : adoptCheckpoint P env h e₁ e₂ e s = .error e s₂ :=
        bind_error.mpr (.inr ⟨u, s₁, hmv, bind_error.mpr (.inl (withError_error.mpr ⟨rfl, e', hw⟩))⟩)
      exact ⟨by rw [hrun]; exact hmove.trans (advances_write_error hw), fun u s' hs' => by simp [hrun] at hs'⟩
    | ok v s₂ =>
      have hrun : adoptCheckpoint P env h e₁ e₂ e s = .ok () { s₂ with hashPendingCheckpoint := 0 } :=
        bind_ok.mpr ⟨u, s₁, hmv, bind_ok.mpr ⟨v, s₂, withError_ok.mpr hw, rfl⟩⟩
      obtain ⟨hg₂, htree⟩ := hg'.written_ok hmem hw
      obtain ⟨hwritten, hread, -⟩ := writeSyncCheckpoint_ok hw
      have hdesc : s.hashSyncCheckpoint ∈ s₂.mapBlockIndex.chain h := by
        rw [htree, (hmove t hg).2.1.chain_eq hh]
        exact hsync
      have hadvance : Advances P s₁ s₂ := fun _ _ =>
        ⟨⟨t', hg₂⟩, by rw [htree]; exact .refl, by rw [hwritten, hkept]; exact hdesc⟩
      refine ⟨by rw [hrun]; exact (hmove.trans hadvance).trans (advances_of_rest rfl), fun u s' hs' => ?_⟩
      obtain ⟨-, rfl⟩ := EStateM.Result.ok.inj (hrun.symm.trans hs')
      exact ⟨hread, hdesc, hne⟩

/-! ## The calls -/

theorem keeps_validateSyncCheckpoint (h : Uint256) : Keeps (Advances P) (validateSyncCheckpoint h) := by
  refine keeps_bind keeps_get fun s => ?_
  have hnote : Keeps (Advances P) (modify fun s : Node => { s with hashInvalidCheckpoint := h } : NodeM Unit) :=
    keeps_modify fun _ => advances_of_rest rfl
  split
  · exact keeps_throw _
  · exact keeps_throw _
  · refine keeps_ite ?_ ?_
    · split
      · exact keeps_throw _
      · exact keeps_ite (keeps_bind hnote fun _ => keeps_throw _) (keeps_throw _)
    · split
      · exact keeps_throw _
      · exact keeps_ite (keeps_bind hnote fun _ => keeps_throw _) (keeps_pure _)

theorem validate_run (h : Uint256) (s : Node) :
    (validateSyncCheckpoint h s = .ok () s ∧ s.mapBlockIndex.Has h ∧ s.hashSyncCheckpoint ∈ s.mapBlockIndex.chain h ∧
        s.hashSyncCheckpoint ≠ h) ∨
      ∃ e s', validateSyncCheckpoint h s = .error e s' ∧ Advances P s s' := by
  cases hv : validateSyncCheckpoint h s with
  | ok u s' =>
    obtain ⟨rfl, hspec⟩ := validateSyncCheckpoint_ok hv
    exact .inl ⟨rfl, hspec⟩
  | error e s' =>
    exact .inr ⟨e, s', rfl, (keeps_validateSyncCheckpoint h).error hv⟩

/-- A checkpoint message. -/
theorem processSyncCheckpoint_spec (hg : Guarded P s t) (fSignatureOk : Bool) (h : Uint256) :
    Advances P s (endState (processSyncCheckpoint P env fSignatureOk h s)) ∧
      ∀ u s', processSyncCheckpoint P env fSignatureOk h s = .ok u s' → Replaces s s' h := by
  cases fSignatureOk with
  | false =>
    have hrun : processSyncCheckpoint P env false h s = .error failed s := rfl
    rw [hrun]
    exact ⟨.refl, fun u s' hs' => by simp at hs'⟩
  | true =>
    by_cases hh : s.mapBlockIndex.Has h
    · rcases validate_run (P := P) h s with ⟨hv, -, hsync, hne⟩ | ⟨e, s', hv, hadv⟩
      · have hrun : processSyncCheckpoint P env true h s = adoptCheckpoint P env h
            "ProcessSyncCheckpoint: ReadFromDisk failed for sync checkpoint"
            "ProcessSyncCheckpoint: SetBestChain failed for sync checkpoint"
            (error "ProcessSyncCheckpoint(): failed to write sync checkpoint") s := by
          change (if ¬ s.mapBlockIndex.Has h then _ else _ : NodeM Unit) s = _
          rw [if_neg (not_not.mpr hh)]
          simp only [bind, EStateM.bind, hv]
          rfl
        rw [hrun]
        exact adoptCheckpoint_spec env _ _ _ hg hsync hne hh
      · have hrun : processSyncCheckpoint P env true h s = .error e s' := by
          change (if ¬ s.mapBlockIndex.Has h then _ else _ : NodeM Unit) s = _
          rw [if_neg (not_not.mpr hh)]
          simp only [bind, EStateM.bind, hv]
        rw [hrun]
        exact ⟨hadv, fun u s' hs' => by simp at hs'⟩
    · have hrun : processSyncCheckpoint P env true h s = .error failed { s with hashPendingCheckpoint := h } := by
        change (if ¬ s.mapBlockIndex.Has h then _ else _ : NodeM Unit) s = _
        rw [if_pos hh]
        rfl
      rw [hrun]
      exact ⟨advances_of_rest rfl, fun u s' hs' => by simp at hs'⟩

/-- The pending checkpoint. -/
theorem acceptPendingSyncCheckpoint_spec (hg : Guarded P s t) :
    Advances P s (endState (acceptPendingSyncCheckpoint P env s)) ∧
      ∀ u s', acceptPendingSyncCheckpoint P env s = .ok u s' → Replaces s s' s.hashPendingCheckpoint := by
  by_cases hpending : s.hashPendingCheckpoint ≠ 0 ∧ s.mapBlockIndex.Has s.hashPendingCheckpoint
  · rcases validate_run (P := P) s.hashPendingCheckpoint s with ⟨hv, hh, hsync, hne⟩ | ⟨e, s', hv, hadv⟩
    · have hrun : acceptPendingSyncCheckpoint P env s = adoptCheckpoint P env s.hashPendingCheckpoint
          "AcceptPendingSyncCheckpoint: ReadFromDisk failed for sync checkpoint"
          "AcceptPendingSyncCheckpoint: SetBestChain failed for sync checkpoint"
          (error "AcceptPendingSyncCheckpoint(): failed to write sync checkpoint") s := by
        change (rejectIf _ _ >>= _ : NodeM Unit) s = _
        rw [rejectIf, if_neg (not_not.mpr hpending)]
        simp only [bind, EStateM.bind, pure, EStateM.pure, attempt, hv]
        rfl
      rw [hrun]
      exact adoptCheckpoint_spec env _ _ _ hg hsync hne hh
    · have hrun : acceptPendingSyncCheckpoint P env s = .error failed { s' with hashPendingCheckpoint := 0 } := by
        change (rejectIf _ _ >>= _ : NodeM Unit) s = _
        rw [rejectIf, if_neg (not_not.mpr hpending)]
        simp only [bind, EStateM.bind, pure, EStateM.pure, attempt, hv]
        rfl
      rw [hrun]
      exact ⟨hadv.trans (advances_of_rest rfl), fun u s' hs' => by simp at hs'⟩
  · have hrun : acceptPendingSyncCheckpoint P env s = .error failed s := by
      change (rejectIf _ _ >>= _ : NodeM Unit) s = _
      rw [rejectIf, if_pos hpending]
      rfl
    rw [hrun]
    exact ⟨.refl, fun u s' hs' => by simp at hs'⟩

theorem keeps_acceptPendingSyncCheckpoint : Keeps (Advances P) (acceptPendingSyncCheckpoint P env) :=
  fun _ t hg => (acceptPendingSyncCheckpoint_spec hg).1 t hg

theorem Recorded.guarded (hg : Guarded P s t)
    (hr : Recorded P block s.disk.nextFile s.disk.nextPos (s.appended block) s')
    (hprev : ∃ bp, s.mapBlockIndex.find block.hashPrevBlock = some bp ∧ block.numberedAs (bp.nHeight + 1)) :
    Guarded P s' t ∧ s'.hashSyncCheckpoint = s.hashSyncCheckpoint := by
  have htree : s.mapBlockIndex.Grows s'.mapBlockIndex := hr.grows.tree
  have hsync : s'.hashSyncCheckpoint = s.hashSyncCheckpoint := by
    rw [hr.rest]
    rfl
  refine ⟨⟨hr.placed hg.toPlaced hprev fun _ _ => trivial, ?_, ?_⟩, hsync⟩
  · rw [hsync, htree.chain_eq hg.has]
    exact hg.sync
  · rw [hsync, CTxDB.readSyncCheckpoint, hr.read _ (by simp)]
    exact hg.written

/-- What the checks of `AcceptBlock` say about the sync-checkpoint. -/
theorem acceptBlockChecks_sync {hashProof : Uint256} (hmode : P.checkpointsMode = .STRICT)
    (h : block.acceptBlockChecks P env s = .ok hashProof) :
    checkSync P s (block.getHash P) (s.mapBlockIndex.branch block.hashPrevBlock) := by
  unfold CBlock.acceptBlockChecks at h
  simp only [except_bind_ok, except_rejectIf_ok] at h
  obtain ⟨_, -, _, -, h⟩ := h
  cases hprev : s.mapBlockIndex.find block.hashPrevBlock with
  | none => simp [hprev] at h
  | some bp =>
    simp only [hprev, except_bind_ok, except_rejectIf_ok] at h
    obtain ⟨_, -, _, -, _, -, _, -, _, -, _, hsync, -⟩ := h
    by_contra hcheck
    exact hsync ⟨hmode, hcheck⟩

/-- A new record stands on the block's predecessor. -/
theorem parent_of_insertBlockIndex {nFile nBlockPos : Nat} {hashProof : Uint256} {bp : CBlockIndex} {u : Unit}
    (hprev : s.mapBlockIndex.find block.hashPrevBlock = some bp)
    (hrun : block.insertBlockIndex P env nFile nBlockPos hashProof s = .ok u s') :
    s'.mapBlockIndex.forest.parent (block.getHash P) = some block.hashPrevBlock := by
  obtain ⟨b, kept, m, hnew, -, rfl⟩ := insertBlockIndex_ok hrun
  refine BlockTree.parent_some.mpr
    ⟨s.mapBlockIndex.link (block.getHash P) block.hashPrevBlock (block.finished P hashProof m b), ?_, ?_⟩
  · rw [Node.withTxdb_mapBlockIndex, CBlock.recorded, BlockTree.find_add hnew, if_pos rfl]
  · rw [BlockTree.link, hprev]

/-- A block that passed the checks is indexed, and the chain may move to it. -/
theorem advances_addToBlockIndex (env : Env) {hashProof : Uint256} (hnet : ¬ P.fTestNet) (hmode : P.checkpointsMode = .STRICT)
    (hg : Guarded P s t) (hchecks : block.acceptBlockChecks P env s = .ok hashProof) :
    Advances P s (endState (block.addToBlockIndex P env s.disk.nextFile s.disk.nextPos hashProof (s.appended block))) := by
  obtain ⟨hnew, bp, hprev, hnum⟩ := acceptBlockChecks_place hchecks
  have hmem := checkSync_mem hnet (not_not.mpr hnew) hg.has_sync (acceptBlockChecks_sync hmode hchecks)
  have hr : Recorded P block s.disk.nextFile s.disk.nextPos (s.appended block) (endState
      (block.insertBlockIndex P env s.disk.nextFile s.disk.nextPos hashProof (s.appended block))) :=
    recorded_insertBlockIndex block _ _ hashProof hg.batch
  obtain ⟨hg₁, hsync⟩ := hr.guarded hg ⟨bp, hprev, hnum⟩
  have htree : s.mapBlockIndex.Grows _ := hr.grows.tree
  have hadd := hg₁.advances (s := s) htree hsync
  cases hins : block.insertBlockIndex P env s.disk.nextFile s.disk.nextPos hashProof (s.appended block) with
  | error e s₁ =>
    rw [hins, endState_error] at hadd
    have hrun : block.addToBlockIndex P env s.disk.nextFile s.disk.nextPos hashProof (s.appended block) = .error e s₁ :=
      bind_error.mpr (.inl hins)
    rw [hrun]
    exact hadd
  | ok u s₁ =>
    rw [hins, endState_ok] at hadd hg₁ hsync htree
    have hparent := parent_of_insertBlockIndex (s := s.appended block) hprev hins
    obtain ⟨b, hfind, -⟩ := BlockTree.parent_some.mp hparent
    have hrun : block.addToBlockIndex P env s.disk.nextFile s.disk.nextPos hashProof (s.appended block) =
        (if s₁.nBestChainTrust < b.nChainTrust then setBestChain P env block (block.getHash P) else pure ()) s₁ := by
      have hderef : deref (block.getHash P) s₁ = .ok b s₁ := deref_ok.mpr ⟨hfind, rfl⟩
      simp only [CBlock.addToBlockIndex, bind, EStateM.bind, hins, hderef]
      rfl
    rw [hrun]
    split
    next =>
      have hmem' : s₁.hashSyncCheckpoint ∈ s₁.mapBlockIndex.chain (block.getHash P) := by
        rw [hsync]
        refine Forest.mem_chain_of_parent hparent ?_
        change s.hashSyncCheckpoint ∈ s₁.mapBlockIndex.chain block.hashPrevBlock
        rw [htree.chain_eq (BlockTree.has_of_find hprev)]
        exact hmem
      obtain ⟨t', hg'⟩ := (hg₁.setBestChain env rfl hparent hmem').1
      have hsteady : Steady s₁ (endState (setBestChain P env block (block.getHash P) s₁)) :=
        keeps_setBestChain block (block.getHash P) s₁
      exact hadd.trans (hg'.advances hsteady.tree (congrArg Node.hashSyncCheckpoint hsteady.rest :))
    next => exact hadd

theorem keeps_acceptBlock (hnet : ¬ P.fTestNet) (hmode : P.checkpointsMode = .STRICT) (block : CBlock) :
    Keeps (Advances P) (block.acceptBlock P env) := by
  intro s t hg
  cases hchecks : block.acceptBlockChecks P env s with
  | error e =>
    have hrun : block.acceptBlock P env s = .error e s := by
      change (lift (block.acceptBlockChecks P env s) >>= _ : NodeM Unit) s = _
      rw [hchecks]
      rfl
    rw [hrun]
    exact Advances.refl t hg
  | ok hashProof =>
    have hrun : block.acceptBlock P env s = (do
        withError (error "AcceptBlock() : AddToBlockIndex failed")
          (block.addToBlockIndex P env s.disk.nextFile s.disk.nextPos hashProof)
        let _ ← attempt (acceptPendingSyncCheckpoint P env)
        pure () : NodeM Unit) (s.appended block) := by
      change (lift (block.acceptBlockChecks P env s) >>= _ : NodeM Unit) s = _
      rw [hchecks]
      rfl
    have hadd := advances_addToBlockIndex env hnet hmode hg hchecks
    rw [hrun]
    cases hrun' : block.addToBlockIndex P env s.disk.nextFile s.disk.nextPos hashProof (s.appended block) with
    | error e s₁ =>
      rw [hrun'] at hadd
      rw [show (_ >>= _ : NodeM Unit) (s.appended block) = .error (error "AcceptBlock() : AddToBlockIndex failed") s₁ from
        bind_error.mpr (.inl (withError_error.mpr ⟨rfl, e, hrun'⟩))]
      exact hadd t hg
    | ok u s₁ =>
      rw [hrun', endState_ok] at hadd
      have hrest : Keeps (Advances P) (do
          let _ ← attempt (acceptPendingSyncCheckpoint P env)
          pure () : NodeM Unit) :=
        keeps_bind (keeps_attempt keeps_acceptPendingSyncCheckpoint) fun _ => keeps_pure _
      have hrun₁ : withError (error "AcceptBlock() : AddToBlockIndex failed")
          (block.addToBlockIndex P env s.disk.nextFile s.disk.nextPos hashProof) (s.appended block) = .ok u s₁ :=
        withError_ok.mpr hrun'
      simp only [bind, EStateM.bind, hrun₁]
      exact hadd.trans (hrest s₁) t hg

/-! ## Runs -/

/-- One call of a node of the main network: a block or a checkpoint message
arrives, the pending checkpoint is tried, a loose transaction arrives or is
taken from the pool, or the wallets change. Every reorganization is part of
one of the first three. -/
inductive SyncStep (P : Params) (s : Node) : Node → Prop
  | acceptBlock (env : Env) (block : CBlock) : SyncStep P s (endState (block.acceptBlock P env s))
  | processSyncCheckpoint (env : Env) (fSignatureOk : Bool) (hashCheckpoint : Uint256) :
      SyncStep P s (endState (processSyncCheckpoint P env fSignatureOk hashCheckpoint s))
  | acceptPendingSyncCheckpoint (env : Env) : SyncStep P s (endState (acceptPendingSyncCheckpoint P env s))
  | accept (env : Env) (tx : CTransaction) : SyncStep P s (endState (acceptToMemoryPool P env tx s))
  | remove (tx : CTransaction) (fRecursive : Bool) :
      SyncStep P s { s with mempool := s.mempool.remove P tx fRecursive }
  | wallets (wallets : List CWallet) : SyncStep P s { s with wallets := wallets }

inductive SyncReach (P : Params) : Node → Prop
  | start {env : Env} {wallets : List CWallet} {s : Node} (h : loadBlockIndex P env (Node.empty wallets) = .ok () s) :
      SyncReach P s
  | step {s s' : Node} (hr : SyncReach P s) (h : SyncStep P s s') : SyncReach P s'

theorem SyncStep.advances (hnet : ¬ P.fTestNet) (hmode : P.checkpointsMode = .STRICT) (hg : Guarded P s t)
    (h : SyncStep P s s') : Advances P s s' := by
  cases h with
  | acceptBlock env block => exact keeps_acceptBlock hnet hmode block s
  | processSyncCheckpoint env fSignatureOk hashCheckpoint => exact (processSyncCheckpoint_spec hg _ _).1
  | acceptPendingSyncCheckpoint env => exact (acceptPendingSyncCheckpoint_spec hg).1
  | accept env tx =>
    have hl : Loose s (endState (acceptToMemoryPool P env tx s)) := keeps_acceptToMemoryPool tx s
    exact advances_of_rest (by rw [hl])
  | remove tx fRecursive => exact advances_of_rest rfl
  | wallets wallets => exact advances_of_rest rfl

theorem SyncReach.guarded (hnet : ¬ P.fTestNet) (hmode : P.checkpointsMode = .STRICT) (hr : SyncReach P s) :
    ∃ t, Guarded P s t := by
  induction hr with
  | start h =>
    obtain ⟨ht, hsync, hwritten, -⟩ := loadBlockIndex_ok (T := fun _ => True) h
    refine ⟨P.hashGenesisBlock, ht.placed, ?_, by rw [hwritten, hsync]⟩
    rw [hsync]
    exact Forest.self_mem_chain _
  | step hr h ih =>
    obtain ⟨t, hg⟩ := ih
    exact (h.advances hnet hmode hg t hg).1

/-- The stored sync-checkpoint is the one in memory, a block of the index, and
`pindexBest` or an ancestor of it. -/
structure SyncOnChain (s : Node) : Prop where
  stored : s.txdb.readSyncCheckpoint = some s.hashSyncCheckpoint
  indexed : s.mapBlockIndex.Has s.hashSyncCheckpoint
  onChain : ∃ tip, s.pindexBest = some tip ∧ s.hashSyncCheckpoint ∈ s.mapBlockIndex.chain tip

theorem Node.Guarded.onChain (hg : Guarded P s t) : SyncOnChain s := ⟨hg.written, hg.has_sync, t, hg.pindexBest, hg.sync⟩

/-- **The sync-checkpoint stays on the best chain and only moves on.** In every
run of a node of the main network with strict checkpoints it is on the best
chain; a call leaves it, or puts a strict descendant in its place; and the one
that a message or a pending checkpoint stores is a strict descendant. -/
theorem SyncReach.syncOnChain (hnet : ¬ P.fTestNet) (hmode : P.checkpointsMode = .STRICT) (hr : SyncReach P s) :
    SyncOnChain s ∧
      (∀ s', SyncStep P s s' → s'.hashSyncCheckpoint = s.hashSyncCheckpoint ∨ Replaces s s' s'.hashSyncCheckpoint) ∧
      (∀ env fSignatureOk h s', processSyncCheckpoint P env fSignatureOk h s = .ok () s' → Replaces s s' h) ∧
      ∀ env s', acceptPendingSyncCheckpoint P env s = .ok () s' → Replaces s s' s.hashPendingCheckpoint := by
  obtain ⟨t, hg⟩ := hr.guarded hnet hmode
  refine ⟨hg.onChain, fun s' hstep => ?_, fun env fSignatureOk h s' => (processSyncCheckpoint_spec hg _ _).2 () s',
    fun env s' => (acceptPendingSyncCheckpoint_spec hg).2 () s'⟩
  obtain ⟨⟨t', hg'⟩, -, hmem⟩ := hstep.advances hnet hmode hg t hg
  by_cases heq : s'.hashSyncCheckpoint = s.hashSyncCheckpoint
  · exact .inl heq
  · exact .inr ⟨hg'.written, hmem, fun he => heq he.symm⟩

/-- A block arrives at a new node of the main network, and a message makes it
the checkpoint in place of the genesis block. -/
theorem SyncReach.syncOnChain_sample :
    let P := Sample.params false
    let block := Sample.mine false 101 hashGenesisBlockMain (Sample.start + 120)
      [Sample.coinbase 1 (Sample.start + 120) 0 [1]]
    let s := Sample.after (Sample.fresh false) (block.acceptBlock P Sample.env)
    ∃ s', processSyncCheckpoint P Sample.env true 101 s = .ok () s' ∧ SyncOnChain s ∧ Replaces s s' 101 := by
  intro P block s
  have hstart : SyncReach P (Sample.fresh false) :=
    .start (ok_of_isOk (r := loadBlockIndex P Sample.env (Node.empty [])) (by decide +kernel))
  have hr : SyncReach P s := .step hstart (.acceptBlock Sample.env block)
  have hrun := ok_of_isOk (r := processSyncCheckpoint P Sample.env true 101 s) (by decide +kernel)
  obtain ⟨hs, -, hmessage, -⟩ := SyncReach.syncOnChain (by decide) rfl hr
  exact ⟨_, hrun, hs, hmessage Sample.env true 101 _ hrun⟩

end Pinkcoin
