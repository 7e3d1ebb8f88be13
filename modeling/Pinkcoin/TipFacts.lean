/-
The tip: the chain the database follows, and the block the node holds for
its best. `SetBestChain` keeps the two together when every block it
postpones is attached, and only then.
-/
import Pinkcoin.MainChain

namespace Pinkcoin

open StateError
open Node (Stored Connected Inside Undone Loose Steady AtTip)

/-! ## The blocks that are postponed -/

/-- Each postponed block can be read and attached at its turn. -/
def secondaryAttaches (P : Params) (env : Env) : List Uint256 → Node → Bool
  | [], _ => true
  | h :: rest, s =>
    match s.mapBlockIndex.find h with
    | none => false
    | some pindex =>
      match s.readIndexed env P pindex with
      | .error _ => false
      | .ok block =>
        match setBestChainInner P env block h (s.withTxdb s.txdb.txnBegin) with
        | .error _ _ => false
        | .ok _ s' => secondaryAttaches P env rest s'

/-- The loop of `SetBestChain` over the postponed blocks, if the call comes
to it, does not stop half-way. -/
def branchAttaches (P : Params) (env : Env) (block : CBlock) (pindexNew : Uint256) (s : Node) : Bool :=
  if block.hashPrevBlock = s.hashBestChain then true
  else
    match s.best.bind fun best => postpone best.nChainTrust (s.mapBlockIndex.branch pindexNew) [] with
    | none => true
    | some (pindexIntermediate, secondary) =>
      match reorganize P env pindexIntermediate (s.withTxdb s.txdb.txnBegin) with
      | .error _ _ => true
      | .ok _ s' => secondaryAttaches P env secondary s'

theorem readIndexed_ok {P : Params} {env : Env} {s : Node} {pindex : CBlockIndex} {block : CBlock}
    (h : s.readIndexed env P pindex = .ok block) :
    s.disk.block pindex.nFile pindex.nBlockPos = some block ∧ block.getHash P = pindex.phashBlock := by
  unfold Node.readIndexed Node.readBlock at h
  split at h
  next => simp at h
  next b hb =>
    simp only [except_bind_ok, except_onlyIf_ok, except_rejectIf_ok, except_pure_ok] at h
    obtain ⟨_, -, _, hhash, rfl⟩ := h
    split at hb
    · exact ⟨hb, not_not.mp hhash⟩
    · simp at hb

namespace Node

variable {P : Params} {T : CTransaction → Prop} {env : Env} {S : Uint256 → Prop} {s s' : Node} {t : Uint256}

theorem blockAt_of_readIndexed {h : Uint256} {pindex : CBlockIndex} {block : CBlock}
    (hf : s.mapBlockIndex.find h = some pindex) (hr : s.readIndexed env P pindex = .ok block) :
    s.blockAt h = some block := by
  simp [blockAt, hf, (readIndexed_ok hr).1]

theorem Stored.getHash_eq (hs : Stored P T s) {h : Uint256} {block : CBlock} (hb : s.blockAt h = some block) :
    block.getHash P = h := by
  obtain ⟨b, hfind, hdisk⟩ := Option.bind_eq_some_iff.mp hb
  obtain ⟨block', hdisk', hhash, -⟩ := hs.onDisk h b hfind
  rw [hdisk, Option.some.injEq] at hdisk'
  rw [hdisk', hhash]

/-! ## A database that follows a chain -/

/-- The database and the pointers follow the chain to `t`: the transaction
index is its ledger, the stored best hash is `t`, and `pnext` leads along it. -/
structure Follows (P : Params) (T : CTransaction → Prop) (s : Node) (t : Uint256) : Prop where
  stored : Stored P T s
  connected : Connected P T s t
  best : s.txdb.readHashBestChain = some t
  marks : s.mapBlockIndex.MarksTo t

theorem Follows.of_undone (hf : Follows P T s t) (hu : Undone S s s') (hS : ∀ k ∈ s.mapBlockIndex.chain t, S k) :
    Follows P T s' t := by
  have hg := hu.inside.grows
  refine ⟨hf.stored.of_inside hu.inside, ?_, by rw [hu.txdb, hf.best], ?_⟩
  · refine hf.connected.transfer hf.stored hg (fun h hh b b' hb hb' => ?_) (by rw [hu.txdb])
    rw [hu.inside.kept h (hS h hh), hb, Option.some.injEq] at hb'
    rw [hb']
  · exact hu.inside.marksTo hf.marks hf.connected.has

/-- Where only `pnext` pointers change in the index, and what is read of the
transactions stays. -/
theorem Stored.follows {u : Uint256} (hs : Stored P T s) (hc : Connected P T s u)
    (hm : BlockTree.SameButPnext s.mapBlockIndex s'.mapBlockIndex) (hmarks : s'.mapBlockIndex.MarksTo u)
    (hd : s'.disk = s.disk) (hg : s'.pindexGenesisBlock = s.pindexGenesisBlock) (hbook : s'.txdb.book = s.txdb.book)
    (hbest : s'.txdb.readHashBestChain = some u) : Follows P T s' u := by
  refine ⟨?_, ?_, hbest, hmarks⟩
  · refine hs.of_cores (fun h b' hb' => ?_) hd hg
    obtain ⟨b, v, hb, rfl⟩ := hm.back hb'
    exact ⟨b, hb, rfl⟩
  · refine hc.transfer hs ⟨hm.grows, fun hb => by rwa [hd]⟩ (fun h _ b b' hb hb' => ?_) hbook
    obtain ⟨c, v, hc', rfl⟩ := hm.back hb'
    rw [hb, Option.some.injEq] at hc'
    rw [hc']

/-- A step that leaves the index, the disk and what is read from the database
as they are. -/
theorem Follows.of_same (hf : Follows P T s t) (hm : s'.mapBlockIndex = s.mapBlockIndex) (hd : s'.disk = s.disk)
    (hg : s'.pindexGenesisBlock = s.pindexGenesisBlock) (hr : ∀ k, s'.txdb.read k = s.txdb.read k) :
    Follows P T s' t := by
  refine hf.stored.follows hf.connected (hm ▸ .refl) (by rw [hm]; exact hf.marks) hd hg ?_ ?_
  · funext h
    rw [CTxDB.book, CTxDB.book, CTxDB.readTxIndex, CTxDB.readTxIndex, hr]
  · rw [CTxDB.readHashBestChain, hr]
    exact hf.best

theorem Follows.begin (hf : Follows P T s t) (hb : s.txdb.batch = none) :
    Follows P T (s.withTxdb s.txdb.txnBegin) t :=
  hf.of_same rfl rfl rfl fun k => by
    rw [withTxdb_txdb, CTxDB.txnBegin, BatchStore.read_begin, BatchStore.read_of_no_batch hb]

/-! ## Moving along a path -/

theorem Connected.connectOne (hT : HashesApart P T) (hs : Stored P T s) {h : Uint256} (hc : Connected P T s t)
    (hp : s.mapBlockIndex.forest.parent h = some t) {vtx : List CTransaction}
    (hrun : Pinkcoin.connectOne P env h s = .ok vtx s') : Connected P T s' h := by
  simp only [Pinkcoin.connectOne, bind_ok, deref_ok, get_ok, withError_ok, lift_ok, pure_ok] at hrun
  obtain ⟨b, _, ⟨hb, rfl⟩, _, _, ⟨rfl, rfl⟩, block, _, ⟨hread, rfl⟩, b', _, hconn, -, rfl⟩ := hrun
  obtain ⟨c, hc', hbp⟩ := BlockTree.parent_some.mp hp
  obtain rfl := Option.some.inj (hb.symm.trans hc')
  exact hc.connect hT hs hb hbp (blockAt_of_readIndexed hb hread) hconn

theorem Connected.connectLoop (hT : HashesApart P T) {vConnect : List Uint256} {vDelete v : List CTransaction}
    (hs : Stored P T s) (hc : Connected P T s t) (hp : s.mapBlockIndex.forest.Path t vConnect)
    (hrun : Pinkcoin.connectLoop P env vConnect vDelete s = .ok v s') :
    Connected P T s' (vConnect.getLastD t) := by
  induction vConnect generalizing s t vDelete with
  | nil =>
    simp only [Pinkcoin.connectLoop, pure_ok] at hrun
    rw [← hrun.2]
    exact hc
  | cons h vConnect ih =>
    simp only [Pinkcoin.connectLoop, bind_ok] at hrun
    obtain ⟨vtx, s₁, hone, hrest⟩ := hrun
    have hi : Inside (· ≠ h) s s₁ := (keeps_connectOne h (by simp)).ok hone
    rw [List.getLastD_cons]
    exact ih (hs.of_inside hi) (hc.connectOne hT hs hp.1 hone) (hp.2.mono hi.grows.tree.parent_mono) hrest

theorem Connected.disconnectOne (hs : Stored P T s) {h : Uint256} (hc : Connected P T s h)
    (hp : s.mapBlockIndex.forest.parent h = some t) {vtx : List CTransaction}
    (hrun : Pinkcoin.disconnectOne P env h s = .ok vtx s') : Connected P T s' t := by
  simp only [Pinkcoin.disconnectOne, bind_ok, deref_ok, get_ok, withError_ok, lift_ok, pure_ok] at hrun
  obtain ⟨b, _, ⟨hb, rfl⟩, _, _, ⟨rfl, rfl⟩, block, _, ⟨hread, rfl⟩, _, _, hdis, -, rfl⟩ := hrun
  obtain ⟨c, hc', hbp⟩ := BlockTree.parent_some.mp hp
  obtain rfl := Option.some.inj (hb.symm.trans hc')
  exact hc.disconnect hs hb hbp (blockAt_of_readIndexed hb hread) hdis

theorem Connected.disconnectLoop {vDisconnect : List Uint256} {vResurrect v : List CTransaction}
    (hs : Stored P T s) (hc : Connected P T s (vDisconnect.headD t)) (hr : s.mapBlockIndex.forest.Rises vDisconnect t)
    (hrun : Pinkcoin.disconnectLoop P env vDisconnect vResurrect s = .ok v s') : Connected P T s' t := by
  induction vDisconnect generalizing s vResurrect with
  | nil =>
    simp only [Pinkcoin.disconnectLoop, pure_ok] at hrun
    rw [← hrun.2]
    exact hc
  | cons h vDisconnect ih =>
    simp only [Pinkcoin.disconnectLoop, bind_ok] at hrun
    obtain ⟨vtx, s₁, hone, hrest⟩ := hrun
    have hi : Inside (fun _ => True) s s₁ := (keeps_disconnectOne h).ok hone
    exact ih (hs.of_inside hi) (Connected.disconnectOne hs hc hr.1 hone) (hr.2.mono hi.grows.tree.parent_mono) hrest

/-! ## What the parts of SetBestChain do -/

/-- Attaching a block on top moves the database and the pointers one block on. -/
theorem Follows.inner (hT : HashesApart P T) (hf : Follows P T s t) {h : Uint256} {block : CBlock} {u : Unit}
    (hp : s.mapBlockIndex.forest.parent h = some t) (hblock : s.blockAt h = some block)
    (hrun : setBestChainInner P env block h s = .ok u s') : Follows P T s' h ∧ s'.txdb.batch = none := by
  obtain ⟨b, b', s₁, hb, hconn, -, rfl⟩ := setBestChainInner_ok.mp hrun
  obtain ⟨c, hc', hbp⟩ := BlockTree.parent_some.mp hp
  obtain rfl := Option.some.inj (hb.symm.trans hc')
  have hi : Inside (· ≠ h) s s₁ := (keeps_connectBlock block b (by simpa using BlockTree.find_hash hb)).ok hconn
  have hs₁ := hf.stored.of_inside hi
  have hc₁ := hf.connected.connect hT hf.stored hb hbp hblock hconn
  have hp₁ := hi.grows.tree.parent_mono h t hp
  have hm₁ := (hi.marksTo hf.marks hf.connected.has).push hp₁
  exact ⟨hs₁.follows hc₁ (BlockTree.sameButPnext_setPrevNext h (some h)) hm₁ rfl rfl
    (book_commit_best _ _) (by rw [hf.stored.getHash_eq hblock, best_commit_best]), rfl⟩

/-- Inside its batch a reorganization moves the database down to the fork and
up to the new block. -/
theorem Follows.switchBranch (hT : HashesApart P T) (hf : Follows P T s t) {n f : Uint256}
    (hft : f ∈ s.mapBlockIndex.chain t) (hfn : f ∈ s.mapBlockIndex.chain n) {vResurrect vDelete : List CTransaction}
    (hrun : Pinkcoin.switchBranch P env (s.mapBlockIndex.forest.below t f) (s.mapBlockIndex.forest.below n f).reverse n s =
      .ok (vResurrect, vDelete) s') :
    ∃ s₁ s₂, disconnectLoop P env (s.mapBlockIndex.forest.below t f) [] s = .ok vResurrect s₁ ∧
      Pinkcoin.connectLoop P env (s.mapBlockIndex.forest.below n f).reverse [] s₁ = .ok vDelete s₂ ∧
      s' = s₂.withTxdb (s₂.txdb.writeHashBestChain n).commit ∧ Inside (fun _ => False) s s₁ ∧
      Inside (fun _ => False) s s₂ ∧ Stored P T s₁ ∧ Stored P T s₂ ∧ Connected P T s₂ n := by
  obtain ⟨s₁, s₂, hdis, hconn, -, rfl⟩ := switchBranch_ok.mp hrun
  obtain ⟨hrises, hhead⟩ := Forest.rises_below hft
  obtain ⟨hpath, hlast⟩ := Forest.path_below hfn
  have hi₁ : Inside (fun _ => False) s s₁ := (keeps_disconnectLoop _ []).ok hdis
  have hi₂ : Inside (fun _ => False) s₁ s₂ := (keeps_connectLoop _ [] (by simp)).ok hconn
  have hs₁ := hf.stored.of_inside hi₁
  have hc₁ := Connected.disconnectLoop hf.stored (by rw [hhead]; exact hf.connected) hrises hdis
  have hc₂ := hc₁.connectLoop hT hs₁ (hpath.mono hi₁.grows.tree.parent_mono) hconn
  rw [hlast] at hc₂
  exact ⟨s₁, s₂, hdis, hconn, rfl, hi₁, hi₁.trans hi₂, hs₁, hs₁.of_inside hi₂, hc₂⟩

/-- A reorganization moves the database and the pointers to the new branch. -/
theorem Follows.reorganize (hT : HashesApart P T) (hf : Follows P T s t) (hb : s.pindexBest = some t) {n : Uint256}
    {u : Unit} (hrun : Pinkcoin.reorganize P env n s = .ok u s') :
    Follows P T s' n ∧ s'.txdb.batch = none := by
  obtain ⟨pb, f, vResurrect, vDelete, s₃, _, hpb, hfork, hswitch, hsettle, rfl⟩ := reorganize_ok.mp hrun
  obtain rfl : t = pb := by simpa [hb] using hpb
  obtain ⟨hft, hfn, -⟩ := Forest.meet_spec hfork
  obtain ⟨_, s₂, -, -, rfl, -, hi, -, hs₂, hc₂⟩ := hf.switchBranch hT hft hfn hswitch
  obtain ⟨hrises, hhead⟩ := Forest.rises_below hft
  obtain ⟨hpath, hlast⟩ := Forest.path_below hfn
  -- the pointers still mark the old chain, and are then moved
  have hm₂ := hi.marksTo hf.marks hf.connected.has
  have hmarks := BlockTree.MarksTo.relink (by rw [hhead]; exact hm₂) (hrises.mono hi.grows.tree.parent_mono)
    (hpath.mono hi.grows.tree.parent_mono)
  rw [hlast] at hmarks
  obtain ⟨s₄, -, hloose, hrun'⟩ := settleBranch_run P env (s.mapBlockIndex.forest.below t f)
    (s.mapBlockIndex.forest.below n f).reverse vResurrect vDelete (s₂.withTxdb (s₂.txdb.writeHashBestChain n).commit)
  obtain ⟨-, rfl⟩ := EStateM.Result.ok.inj (hsettle.symm.trans hrun')
  rw [hloose]
  exact ⟨hs₂.follows hc₂ (BlockTree.sameButPnext_relink _ _) hmarks rfl rfl (book_commit_best _ _)
    (best_commit_best _ _), rfl⟩

variable (env) in
/-- The loop over the postponed blocks attaches the first of them, and stops
before the last unless it attaches all. -/
theorem Follows.connectSecondary (hT : HashesApart P T) (hf : Follows P T s t) (hb : s.txdb.batch = none)
    {secondary : List Uint256} (hp : s.mapBlockIndex.forest.Path t secondary) :
    ∃ s' l₁ l₂, Pinkcoin.connectSecondary P env secondary s = .ok () s' ∧ secondary = l₁ ++ l₂ ∧
      Follows P T s' (l₁.getLastD t) ∧ s'.txdb.batch = none ∧
      (secondaryAttaches P env secondary s ↔ l₂ = []) := by
  induction secondary generalizing s t with
  | nil => exact ⟨s, [], [], rfl, rfl, hf, hb, by simp [secondaryAttaches]⟩
  | cons h rest ih =>
    obtain ⟨pindex, hfind, hpprev⟩ := BlockTree.parent_some.mp hp.1
    cases hread : s.readIndexed env P pindex with
    | error e =>
      refine ⟨s, [], h :: rest, ?_, rfl, hf, hb, by simp [secondaryAttaches, hfind, hread]⟩
      simp only [Pinkcoin.connectSecondary, bind_ok, get_ok]
      exact ⟨s, s, ⟨rfl, rfl⟩, by simp [hfind, hread]⟩
    | ok block =>
      have hunfold : ∀ b s₁ s', attempt (setBestChainInner P env block h) (s.withTxdb s.txdb.txnBegin) = .ok b s₁ →
          (if b then Pinkcoin.connectSecondary P env rest else pure ()) s₁ = .ok () s' →
          Pinkcoin.connectSecondary P env (h :: rest) s = .ok () s' := by
        intro b s₁ s' hatt hrest
        simp only [Pinkcoin.connectSecondary, bind_ok, get_ok]
        refine ⟨s, s, ⟨rfl, rfl⟩, ?_⟩
        simp only [hfind, hread, bind_ok, modifyTxdb, modify_ok]
        exact ⟨(), _, rfl, b, s₁, hatt, hrest⟩
      cases hin : setBestChainInner P env block h (s.withTxdb s.txdb.txnBegin) with
      | error e s₁ =>
        have hu := setBestChainInner_error hb hin
        have hne : ∀ k ∈ s.mapBlockIndex.chain t, k ≠ h := fun k hk he => Forest.notMem_chain_parent hp.1 (he ▸ hk)
        refine ⟨s₁, [], h :: rest, hunfold false s₁ s₁ ?_ rfl, rfl, hf.of_undone hu hne, ?_, ?_⟩
        · exact attempt_ok.mpr (.inr ⟨rfl, e, hin⟩)
        · rw [hu.txdb, hb]
        · simp [secondaryAttaches, hfind, hread, hin]
      | ok u s₁ =>
        obtain ⟨hf₁, hb₁⟩ := (hf.begin hb).inner hT hp.1 (blockAt_of_readIndexed hfind hread) hin
        have hg₁ : Steady (s.withTxdb s.txdb.txnBegin) s₁ := (keeps_setBestChainInner block h).ok hin
        obtain ⟨s', l₁, l₂, hrun, hl, hf', hb', hiff⟩ := ih hf₁ hb₁ (hp.2.mono hg₁.tree.parent_mono)
        refine ⟨s', h :: l₁, l₂, hunfold true s₁ s' (attempt_ok.mpr (.inl ⟨rfl, u, hin⟩)) hrun, by rw [hl]; rfl, ?_, hb',
          ?_⟩
        · rw [List.getLastD_cons]
          exact hf'
        · simp only [secondaryAttaches, hfind, hread, hin]
          exact hiff

/-! ## The tip -/

/-- The node is at the block `t`, and the database follows the chain to it. -/
structure Tip (P : Params) (T : CTransaction → Prop) (s : Node) (t : Uint256) : Prop extends AtTip s t where
  follows : Follows P T s t

theorem AtTip.of_undone (ht : AtTip s t) (hu : Undone S s s') : AtTip s' t := by
  obtain ⟨b, hb, hheight⟩ := ht.nBestHeight
  obtain ⟨m, n, hb'⟩ := hu.inside.tree t b hb
  have hrest := hu.inside.rest
  exact ⟨by rw [hu.txdb, ht.batch], by rw [hrest]; exact ht.genesis, by rw [hrest]; exact ht.pindexBest,
    by rw [hrest]; exact ht.hashBestChain, _, hb', by rw [hrest]; exact hheight⟩

theorem Tip.of_undone (ht : Tip P T s t) (hu : Undone (· ∈ s.mapBlockIndex.chain t) s s') : Tip P T s' t :=
  ⟨ht.toAtTip.of_undone hu, ht.follows.of_undone hu fun _ hk => hk⟩

/-- The block is on disk under its record, on top of its predecessor. -/
theorem Stored.parent_of_blockAt (hs : Stored P T s) {h : Uint256} {block : CBlock} (hb : s.blockAt h = some block)
    (hne : h ≠ P.hashGenesisBlock) : s.mapBlockIndex.forest.parent h = some block.hashPrevBlock := by
  obtain ⟨b, hfind, hdisk⟩ := Option.bind_eq_some_iff.mp hb
  obtain ⟨block', hdisk', -, hall⟩ := hs.onDisk h b hfind
  obtain rfl : block = block' := Option.some.inj (hdisk.symm.trans hdisk')
  rw [BlockTree.parent_eq hfind]
  cases hp : b.pprev with
  | none => exact absurd (hs.root h b hfind hp) hne
  | some p => rw [(hall p hp).1]

theorem Tip.notMem_chain (ht : Tip P T s t) {h : Uint256} (hh : s.mapBlockIndex.Has h) (hmain : ¬ s.isInMainChain h) :
    h ∉ s.mapBlockIndex.chain t := by
  rwa [← ht.follows.marks.isInMainChain ht.pindexBest hh]

/-- A block that is not on the chain stands on its predecessor. -/
theorem Tip.parent (ht : Tip P T s t) {h : Uint256} {block : CBlock} (hblock : s.blockAt h = some block)
    (hmain : ¬ s.isInMainChain h) : s.mapBlockIndex.forest.parent h = some block.hashPrevBlock := by
  obtain ⟨b, hfind, -⟩ := Option.bind_eq_some_iff.mp hblock
  refine ht.follows.stored.parent_of_blockAt hblock fun he => ?_
  refine ht.notMem_chain (BlockTree.has_of_find hfind) hmain ?_
  rw [he]
  exact ht.follows.stored.genesis_mem_chain ht.follows.connected.has

/-- **When `SetBestChain` returns true** the requested block is the best block
in memory, and the database follows the chain to it exactly when the loop over
the postponed blocks did not stop half-way. -/
theorem Tip.setBestChain_ok (hT : HashesApart P T) (ht : Tip P T s t) {h : Uint256} {block : CBlock} {u : Unit}
    (hblock : s.blockAt h = some block) (hmain : ¬ s.isInMainChain h)
    (hrun : Pinkcoin.setBestChain P env block h s = .ok u s') :
    ∃ k, Follows P T s' k ∧ AtTip s' h ∧ (branchAttaches P env block h s ↔ k = h) := by
  have hparent := ht.parent hblock hmain
  obtain ⟨s₁, b, hmoved, hb, rfl⟩ := Pinkcoin.setBestChain_ok ht.toAtTip hrun
  suffices hmove : ∃ k, Follows P T s₁ k ∧ s₁.txdb.batch = none ∧ (branchAttaches P env block h s ↔ k = h) by
    obtain ⟨k, hf, hbatch, hiff⟩ := hmove
    exact ⟨k, hf.of_same rfl rfl rfl fun _ => rfl,
      ⟨hbatch, by simp [hf.stored.genesis], rfl, ht.follows.stored.getHash_eq hblock, b, hb, rfl⟩, hiff⟩
  cases hmoved with
  | extend hprev hrun =>
    obtain ⟨hf, hbatch⟩ := (ht.follows.begin ht.batch).inner hT (hprev ▸ hparent) hblock hrun
    exact ⟨h, hf, hbatch, by simp [branchAttaches, hprev, ht.hashBestChain]⟩
  | switch hprev best i secondary s₂ hbest hpost hre hrest =>
    obtain ⟨hpath, hlast⟩ := postpone_spec (BlockTree.has_of_parent hparent).1 hpost
    have hg : Steady (s.withTxdb s.txdb.txnBegin) s₂ := (keeps_reorganize i).ok hre
    obtain ⟨hf, hbatch⟩ := (ht.follows.begin ht.batch).reorganize hT ht.pindexBest hre
    obtain ⟨s₃, l₁, l₂, hrun', hl, hf', hbatch', hiff⟩ := hf.connectSecondary env hT hbatch
      (hpath.mono hg.tree.parent_mono)
    obtain ⟨-, rfl⟩ := EStateM.Result.ok.inj (hrest.symm.trans hrun')
    refine ⟨l₁.getLastD i, hf', hbatch', ?_⟩
    have hattach : branchAttaches P env block h s = secondaryAttaches P env secondary s₂ := by
      simp [branchAttaches, hprev, ht.hashBestChain, hbest, hpost, hre]
    rw [hattach, hiff]
    rw [hl, Forest.path_append] at hpath
    rw [hl, Forest.getLastD_append] at hlast
    constructor
    · rintro rfl
      exact hlast
    · intro hk
      by_contra hne
      exact hpath.2.last_ne hne (hlast.trans hk.symm)

end Node

end Pinkcoin
