/-
The memory pool over a whole run. `SetBestChain` keeps the pool apart from
the main chain where what the pool spends agrees with each block it attaches
on top of the chain.
-/
import Pinkcoin.PoolConflicts

namespace Pinkcoin

open StateError
open CTxMemPool (Spends Clean)
open Node (Stored Connected Follows Tip AtTip Undone Inside Loose Steady HashesApart)

/-! ## The blocks that are attached on top -/

/-- Each postponed block is attached at its turn, and the pool agrees with it
then. -/
def secondaryAgrees (P : Params) (env : Env) : List Uint256 → Node → Bool
  | [], _ => true
  | h :: rest, s =>
    match s.mapBlockIndex.find h with
    | none => false
    | some pindex =>
      match s.readIndexed env P pindex with
      | .error _ => false
      | .ok block =>
        match setBestChainInner P env block h (s.withTxdb s.txdb.txnBegin) with
        | .error _ _ => false
        | .ok _ s' => s.mempool.agrees block && secondaryAgrees P env rest s'

/-- The pool agrees with each block that `SetBestChain` attaches on top of the
chain, and its loop does not stop half-way. -/
def poolAgrees (P : Params) (env : Env) (block : CBlock) (pindexNew : Uint256) (s : Node) : Bool :=
  if block.hashPrevBlock = s.hashBestChain then
    match setBestChainInner P env block pindexNew (s.withTxdb s.txdb.txnBegin) with
    | .error _ _ => true
    | .ok _ _ => s.mempool.agrees block
  else
    match s.best.bind fun best => postpone best.nChainTrust (s.mapBlockIndex.branch pindexNew) [] with
    | none => true
    | some (pindexIntermediate, secondary) =>
      match reorganize P env pindexIntermediate (s.withTxdb s.txdb.txnBegin) with
      | .error _ _ => true
      | .ok _ s' => secondaryAgrees P env secondary s'

variable {P : Params} {T : CTransaction → Prop} {env : Env} {s s' : Node} {h t : Uint256} {block : CBlock}

theorem secondaryAttaches_of_agrees {secondary : List Uint256} (ha : secondaryAgrees P env secondary s) :
    secondaryAttaches P env secondary s := by
  induction secondary generalizing s with
  | nil => rfl
  | cons h rest ih =>
    simp only [secondaryAgrees] at ha
    split at ha
    next => simp at ha
    next pindex hfind =>
      split at ha
      next => simp at ha
      next block hread =>
        split at ha
        next => simp at ha
        next s₁ hrun =>
          rw [Bool.and_eq_true] at ha
          simp only [secondaryAttaches, hfind, hread, hrun]
          exact ih ha.2

theorem branchAttaches_of_agrees (ha : poolAgrees P env block h s) : branchAttaches P env block h s := by
  simp only [poolAgrees] at ha
  simp only [branchAttaches]
  split
  next => rfl
  next hprev =>
    rw [if_neg hprev] at ha
    split
    next => rfl
    next i secondary hpost =>
      rw [hpost] at ha
      simp only at ha
      split
      next => rfl
      next s₁ hrun =>
        rw [hrun] at ha
        exact secondaryAttaches_of_agrees ha

/-! ## One call of SetBestChain -/

theorem Node.Steady.grows (h : Steady s s') : Node.Grows s s' := ⟨h.tree, fun hd => by rw [h.disk]; exact hd⟩

/-- The chain to the end of a path keeps its transactions. -/
theorem chainTxs_getLastD (h : Steady s s') (hs : Stored P T s) {k : Uint256} {l : List Uint256}
    (hp : s.mapBlockIndex.forest.Path t (k :: l)) : s'.chainTxs P (l.getLastD k) = s.chainTxs P (l.getLastD k) :=
  h.grows.chainTxs_eq hs (BlockTree.has_of_path hp _ List.getLastD_mem_cons)

/-- The loop over the postponed blocks keeps the pool clean. -/
theorem clean_connectSecondary (hT : HashesApart P T) {secondary : List Uint256} {u : Unit} (hf : Follows P T s t)
    (hb : s.txdb.batch = none) (hp : s.mapBlockIndex.forest.Path t secondary) (hc : Clean P T (s.chainTxs P t) s.mempool)
    (ha : secondaryAgrees P env secondary s) (hrun : connectSecondary P env secondary s = .ok u s') :
    Clean P T (s.chainTxs P (secondary.getLastD t)) s'.mempool := by
  induction secondary generalizing s t with
  | nil =>
    obtain ⟨-, rfl⟩ := pure_ok.mp hrun
    exact hc
  | cons h rest ih =>
    simp only [connectSecondary, bind_ok, get_ok] at hrun
    obtain ⟨_, s, ⟨rfl, rfl⟩, hrun⟩ := hrun
    simp only [secondaryAgrees] at ha
    split at ha
    next => simp at ha
    next pindex hfind =>
      split at ha
      next => simp at ha
      next block hread =>
        split at ha
        next => simp at ha
        next s₁ hin =>
          rw [Bool.and_eq_true] at ha
          simp only [hfind, hread, bind_ok, modifyTxdb, modify_ok, attempt_ok] at hrun
          obtain ⟨_, _, rfl, _, s₂, ⟨rfl, _, hin'⟩ | ⟨rfl, _, hin'⟩, hrest⟩ := hrun
          · obtain ⟨-, rfl⟩ := EStateM.Result.ok.inj (hin.symm.trans hin')
            have hblock := Node.blockAt_of_readIndexed hfind hread
            have hf₀ := hf.begin hb
            obtain ⟨hf₁, hb₁⟩ := hf₀.inner hT hp.1 hblock hin
            have hg₁ : Steady (s.withTxdb s.txdb.txnBegin) s₁ := (keeps_setBestChainInner block h).ok hin
            have hc₁ : Clean P T (s.chainTxs P h) s₁.mempool := clean_inner (s := s.withTxdb s.txdb.txnBegin) hT hf₀.stored hp.1 hblock hc ha.1 hin
            have hkeep : s₁.chainTxs P h = s.chainTxs P h := hg₁.grows.chainTxs_eq hf₀.stored (BlockTree.has_of_find hfind)
            have hlast : s₁.chainTxs P (rest.getLastD h) = s.chainTxs P (rest.getLastD h) :=
              chainTxs_getLastD hg₁ hf₀.stored hp
            rw [List.getLastD_cons, ← hlast]
            exact ih hf₁ hb₁ (hp.2.mono hg₁.tree.parent_mono) (by rw [hkeep]; exact hc₁) ha.2 hrest
          · rw [hin] at hin'
            simp at hin'

/-- **A call of `SetBestChain`** keeps the pool clean where what it spends
agrees with the blocks that are attached on top. -/
theorem Node.Tip.clean_setBestChain (hT : HashesApart P T) (ht : Tip P T s t) (hblock : s.blockAt h = some block)
    (hmain : ¬ s.isInMainChain h) (hc : Clean P T (s.chainTxs P t) s.mempool) (ha : poolAgrees P env block h s) :
    ∃ t', Tip P T (endState (setBestChain P env block h s)) t' ∧
      Clean P T ((endState (setBestChain P env block h s)).chainTxs P t') (endState (setBestChain P env block h s)).mempool := by
  have hparent := ht.parent hblock hmain
  have hhas : s.mapBlockIndex.Has h := (BlockTree.has_of_parent hparent).1
  have hf := ht.follows.begin ht.batch
  cases hrun : setBestChain P env block h s with
  | error e s' =>
    have hu := setBestChain_error ht.toAtTip hparent hrun
    refine ⟨t, ht.of_undone hu, ?_⟩
    rw [endState_error, hu.inside.grows.chainTxs_eq ht.follows.stored ht.follows.connected.has, hu.inside.rest]
    exact hc
  | ok u s' =>
    obtain ⟨k, hk, hat, hiff⟩ := ht.setBestChain_ok hT hblock hmain hrun
    obtain rfl := hiff.mp (branchAttaches_of_agrees ha)
    refine ⟨k, ⟨hat, hk⟩, ?_⟩
    have hsteady : Steady s s' := (keeps_setBestChain block k).ok hrun
    rw [endState_ok, hsteady.grows.chainTxs_eq ht.follows.stored hhas]
    obtain ⟨s₁, b, hmoved, -, rfl⟩ := Pinkcoin.setBestChain_ok ht.toAtTip hrun
    change Clean P T _ s₁.mempool
    cases hmoved with
    | extend hprev hin =>
      simp only [poolAgrees, if_pos (hprev.trans ht.hashBestChain.symm), hin] at ha
      exact clean_inner (s := s.withTxdb s.txdb.txnBegin) hT hf.stored (hprev ▸ hparent) hblock hc ha hin
    | switch hprev best i secondary s₂ hbest hpost hre hrest =>
      rw [← ht.hashBestChain] at hprev
      simp only [poolAgrees, if_neg hprev, hbest, Option.bind_some, hpost, hre] at ha
      obtain ⟨hpath, hlast⟩ := postpone_spec (BlockTree.has_of_parent hparent).1 hpost
      have hi : s.mapBlockIndex.Has i :=
        BlockTree.has_of_mem_chain hhas (by rw [← hlast]; exact hpath.mem_chain)
      have hg : Steady (s.withTxdb s.txdb.txnBegin) s₂ := (keeps_reorganize i).ok hre
      obtain ⟨hf₂, hb₂⟩ := hf.reorganize hT ht.pindexBest hre
      have hc₂ : Clean P T (s.chainTxs P i) s₂.mempool :=
        clean_reorganize (s := s.withTxdb s.txdb.txnBegin) hT hf ht.pindexBest hi hc hre
      have hkeep : s₂.chainTxs P i = s.chainTxs P i := hg.grows.chainTxs_eq hf.stored hi
      have hend : s₂.chainTxs P k = s.chainTxs P k := hg.grows.chainTxs_eq hf.stored hhas
      have hall := clean_connectSecondary hT hf₂ hb₂ (hpath.mono hg.tree.parent_mono) (by rw [hkeep]; exact hc₂) ha hrest
      rw [hlast, hend] at hall
      exact hall

/-! ## Over a run -/

/-- One call: of `SetBestChain` under the condition `C`, of `accept`, of
`remove` with a transaction of the pool, or one that leaves chain and pool
alone. -/
inductive PoolStep (P : Params) (T : CTransaction → Prop) (C : Env → CBlock → Uint256 → Node → Prop) (s : Node) :
    Node → Prop
  | setBestChain (env : Env) (block : CBlock) (h : Uint256) (hblock : s.blockAt h = some block)
      (hmain : ¬ s.isInMainChain h) (hC : C env block h s) : PoolStep P T C s (endState (setBestChain P env block h s))
  | accept (env : Env) (tx : CTransaction) (hT : T tx) : PoolStep P T C s (endState (acceptToMemoryPool P env tx s))
  | remove (tx : CTransaction) (fRecursive : Bool) (hmem : s.mempool.lookup (tx.getHash P) = some tx) :
      PoolStep P T C s { s with mempool := s.mempool.remove P tx fRecursive }
  | other {s' : Node} (h : Step P T (fun _ _ _ _ => False) s s') (hpool : s'.mempool = s.mempool) : PoolStep P T C s s'

/-- The states of a node that loose transactions, blocks and removals reach. -/
inductive PoolReach (P : Params) (T : CTransaction → Prop) (C : Env → CBlock → Uint256 → Node → Prop) : Node → Prop
  | start {env : Env} {wallets : List CWallet} {s : Node} (h : loadBlockIndex P env (Node.empty wallets) = .ok () s) :
      PoolReach P T C s
  | step {s s' : Node} (hr : PoolReach P T C s) (h : PoolStep P T C s s') : PoolReach P T C s'

/-- A transaction of a block of the main chain spends the outpoint. -/
def Node.MainSpends (s : Node) (o : COutPoint) : Prop :=
  ∃ t h block tx, s.pindexBest = some t ∧ h ∈ s.mapBlockIndex.chain t ∧ s.blockAt h = some block ∧ tx ∈ block.vtx ∧ Spends tx o

theorem ledgerTx_mem_ledgerTxs (P : Params) (nFile nBlockPos nTxPos : Nat) {vtx : List CTransaction} {tx : CTransaction}
    (h : tx ∈ vtx) : ∃ pos, tx.ledgerTx P pos ∈ ledgerTxs P nFile nBlockPos vtx nTxPos := by
  induction vtx generalizing nTxPos with
  | nil => simp at h
  | cons u vtx ih =>
    rw [ledgerTxs]
    rcases List.mem_cons.mp h with rfl | h
    · exact ⟨_, List.mem_cons_self⟩
    · obtain ⟨pos, hpos⟩ := ih (nTxPos + u.getSerializeSize) h
      exact ⟨pos, List.mem_cons_of_mem _ hpos⟩

/-- No transaction of the pool spends what the main chain spends, or what
another one of the pool spends. -/
structure PoolFree (s : Node) : Prop where
  chain : ∀ h tx o, s.mempool.lookup h = some tx → Spends tx o → ¬ s.MainSpends o
  pool : ∀ h h' tx tx' o, s.mempool.lookup h = some tx → s.mempool.lookup h' = some tx' → Spends tx o → Spends tx' o → h = h'

/-- What a run keeps: the node is at a tip, the genesis block is on disk, and
the pool is clean. -/
structure PoolOk (P : Params) (T : CTransaction → Prop) (s : Node) (t : Uint256) : Prop extends Tip P T s t where
  root : s.blockAt P.hashGenesisBlock = some (genesisBlock P)
  clean : Clean P T (s.chainTxs P t) s.mempool

theorem PoolOk.free (hok : PoolOk P T s t) : PoolFree s := by
  refine ⟨fun k u o hu huo hmain => ?_, fun k k' u u' o hu hu' huo huo' => hok.clean.linked.unique hu hu' huo huo'⟩
  have hreal := hok.clean.real hu huo
  obtain ⟨t', h, block, tx, hbest, hmem, hblock, htx, ho⟩ := hmain
  obtain rfl : t = t' := Option.some.inj (hok.pindexBest.symm.trans hbest)
  by_cases hgen : h = P.hashGenesisBlock
  · -- the genesis block spends nothing
    rw [hgen, hok.root, Option.some.injEq] at hblock
    rw [← hblock, genesisBlock, List.mem_singleton] at htx
    obtain ⟨txin, hin, rfl⟩ := ho
    rw [htx, genesisTx, List.mem_singleton] at hin
    rw [hin] at hreal
    exact hreal (by decide)
  · have hp := hok.follows.stored.parent_of_blockAt hblock hgen
    obtain ⟨-, nFile, nBlockPos, htxs⟩ := hok.follows.stored.txsOf_parent hp hblock
    obtain ⟨pos, hpos⟩ := ledgerTx_mem_ledgerTxs P nFile nBlockPos (nBlockPos + block.firstTxOffset) htx
    have hin : tx.ledgerTx P pos ∈ s.chainTxs P t := Node.mem_chainTxs.mpr ⟨h, hmem, by rw [htxs]; exact hpos⟩
    exact hok.clean.apart hu huo _ hin (inputs_of_spends ho hreal)

theorem Step.mono {C C' : Env → CBlock → Uint256 → Node → Prop} (hC : ∀ env block h s, C env block h s → C' env block h s)
    (h : Step P T C s s') : Step P T C' s s' := by
  cases h with
  | record env block hashProof hchecks hT => exact .record env block hashProof hchecks hT
  | setBestChain env block h hblock hmain hc => exact .setBestChain env block h hblock hmain (hC _ _ _ _ hc)
  | accept env tx => exact .accept env tx
  | remove tx fRecursive => exact .remove tx fRecursive
  | checkpoint env h => exact .checkpoint env h
  | note hPending hInvalid => exact .note hPending hInvalid
  | wallets ws => exact .wallets ws

theorem Aside.grows (h : Aside s s') : Node.Grows s s' := by
  refine ⟨?_, fun hb => ?_⟩
  · rw [h.rest]
    exact .refl
  · rw [h.rest]
    exact hb

/-- Only `SetBestChain` moves the best block. -/
theorem Step.quiet (ht : AtTip s t) (h : Step P T (fun _ _ _ _ => False) s s') :
    Node.Grows s s' ∧ s'.pindexBest = s.pindexBest := by
  have haside : ∀ {s'}, Aside s s' → Node.Grows s s' ∧ s'.pindexBest = s.pindexBest := fun ha => ⟨ha.grows, by rw [ha.rest]⟩
  cases h with
  | record env block hashProof hchecks hT =>
    rw [store_run]
    have hr : Recorded P block s.disk.nextFile s.disk.nextPos (s.appended block) (endState
        (block.insertBlockIndex P env s.disk.nextFile s.disk.nextPos hashProof (s.appended block))) :=
      recorded_insertBlockIndex block _ _ hashProof ht.batch
    exact ⟨(grows_appended block).trans hr.grows, by rw [hr.rest]; rfl⟩
  | setBestChain env block h hblock hmain hC => exact hC.elim
  | accept env tx => exact haside (Aside.of_loose (keeps_acceptToMemoryPool tx s))
  | remove tx fRecursive =>
    exact haside (Aside.of_loose (rfl : Loose s { s with mempool := s.mempool.remove P tx fRecursive }))
  | checkpoint env h => exact haside (aside_writeSyncCheckpoint h s)
  | note hPending hInvalid => exact haside ⟨rfl, fun hb => ⟨hb, fun _ _ _ => rfl⟩⟩
  | wallets ws => exact haside (Aside.of_loose (rfl : Loose s { s with wallets := ws }))

/-- A call that does not move the chain, and leaves the pool clean. -/
theorem PoolOk.of_quiet (hT : HashesApart P T) (hok : PoolOk P T s t) (h : Step P T (fun _ _ _ _ => False) s s')
    (hc : Clean P T (s.chainTxs P t) s'.mempool) : PoolOk P T s' t := by
  obtain ⟨hg, hbest⟩ := h.quiet hok.toAtTip
  have hs := hok.follows.stored
  obtain ⟨t', ht'⟩ := Step.tip hT hok.toTip (h.mono fun _ _ _ _ hC => hC.elim)
  obtain rfl : t = t' := by
    have hbest' := ht'.pindexBest
    rw [hbest, hok.pindexBest] at hbest'
    exact Option.some.inj hbest'
  refine ⟨ht', ?_, by rw [hg.chainTxs_eq hs hok.follows.connected.has]; exact hc⟩
  obtain ⟨b, hfind, -⟩ := Option.bind_eq_some_iff.mp hok.root
  rw [hg.blockAt_eq hs (BlockTree.has_of_find hfind)]
  exact hok.root

/-- One call keeps the pool apart from the chain. -/
theorem PoolStep.ok (hT : HashesApart P T) (hok : PoolOk P T s t)
    (h : PoolStep P T (fun env block h s => poolAgrees P env block h s) s s') : ∃ t', PoolOk P T s' t' := by
  have hs := hok.follows.stored
  cases h with
  | setBestChain env block h hblock hmain hC =>
    obtain ⟨t', ht', hc'⟩ := hok.toTip.clean_setBestChain hT hblock hmain hok.clean hC
    have hsteady : Steady s (endState (Pinkcoin.setBestChain P env block h s)) := keeps_setBestChain block h s
    refine ⟨t', ht', ?_, hc'⟩
    obtain ⟨b, hfind, -⟩ := Option.bind_eq_some_iff.mp hok.root
    rw [hsteady.grows.blockAt_eq hs (BlockTree.has_of_find hfind)]
    exact hok.root
  | accept env tx htx =>
    exact ⟨t, hok.of_quiet hT (.accept env tx)
      (clean_acceptToMemoryPool env htx hok.clean hok.follows.connected.books fun _ hu => hu)⟩
  | remove tx fRecursive hmem =>
    have hknows : CTxMemPool.Knows P s.mempool tx := fun u hu => Option.some.inj (hu.symm.trans hmem)
    exact ⟨t, hok.of_quiet hT (.remove tx fRecursive)
      (hok.clean.shrinks (CTxMemPool.shrinks_remove fRecursive fun _ => hknows))⟩
  | other h hpool => exact ⟨t, hok.of_quiet hT h (by rw [hpool]; exact hok.clean)⟩

theorem poolOk_start {wallets : List CWallet} {u : Unit} (h : loadBlockIndex P env (Node.empty wallets) = .ok u s) :
    PoolOk P T s P.hashGenesisBlock := by
  obtain ⟨ht, -, -, hroot, hpool⟩ := loadBlockIndex_ok (T := T) h
  refine ⟨ht, hroot, ?_⟩
  rw [hpool]
  have hnone : ∀ {k u}, CTxMemPool.empty.lookup k ≠ some u := by simp [CTxMemPool.lookup, CTxMemPool.empty]
  exact ⟨CTxMemPool.linked_empty, fun hu => absurd hu hnone, fun hu => absurd hu hnone, fun hu => absurd hu hnone⟩

/-- **The pool and the chain spend apart.** In every run in which each block
that `SetBestChain` attaches on top of the chain agrees with what the pool
spends, no transaction of the pool spends what the main chain or another one
of the pool spends. -/
theorem PoolReach.poolFree (hT : HashesApart P T)
    (hr : PoolReach P T (fun env block h s => poolAgrees P env block h s) s) : PoolFree s := by
  suffices hok : ∃ t, PoolOk P T s t by
    obtain ⟨t, hok⟩ := hok
    exact hok.free
  induction hr with
  | start h => exact ⟨_, poolOk_start h⟩
  | step _ h ih =>
    obtain ⟨t, hok⟩ := ih
    exact h.ok hT hok

/-! ## A coin that is spent twice -/

theorem store_mempool (block : CBlock) (hashProof : Uint256) (s : Node) :
    (endState (block.store P env hashProof s)).mempool = s.mempool := by
  rw [store_run]
  cases hrun : block.insertBlockIndex P env s.disk.nextFile s.disk.nextPos hashProof (s.appended block) with
  | ok u s' =>
    obtain ⟨b, kept, m, -, -, rfl⟩ := insertBlockIndex_ok hrun
    rfl
  | error e s' => rcases insertBlockIndex_error hrun with rfl | ⟨b, kept, -, rfl | ⟨-, m, rfl⟩⟩ <;> rfl

namespace Sample

/-- The calls that record the first blocks and make each the best block. -/
def firstBlocks (n : Nat) : List Call :=
  (List.range n).flatMap fun k => [.record (chainBlock (k + 1)), .best (chainBlock (k + 1))]

/-- Another spend of the first block's coin. -/
def otherSpend : CTransaction := ⟨1, start + 1402, [⟨⟨start + 120, 0⟩, [], UINT_MAX⟩], [⟨COIN - 2 * CENT, [1]⟩], 0⟩

/-- The twelfth block, with one of the spends. -/
def spendingBlock (tx : CTransaction) : CBlock :=
  mine true 113 111 (start + 1440) [coinbase 12 (start + 1440) 0 [1], tx]

/-- Eleven blocks, `spend` as a loose transaction, and the twelfth block. -/
def spent (tx : CTransaction) : Node :=
  play (params true) [.record (spendingBlock tx), .best (spendingBlock tx)]
    (after (play (params true) (firstBlocks 11) (fresh true)) (acceptToMemoryPool (params true) Sample.env spend))

def spentCalls (tx : CTransaction) : List CTransaction := spend :: transactions (.record (spendingBlock tx) :: firstBlocks 11)

theorem hashesApart_spentCalls {tx : CTransaction} (htx : tx = spend ∨ tx = otherSpend) :
    HashesApart (params true) (· ∈ spentCalls tx) := by
  have hall : ∀ tx ∈ [spend, otherSpend], ∀ a ∈ spentCalls tx, ∀ b ∈ spentCalls tx,
      a.getHash (params true) = b.getHash (params true) → a = b := by decide +kernel
  exact fun a b ha hb => hall tx (by simpa using htx) a ha b hb

theorem poolReach_spent {c : CBlock → Node → Bool} {tx : CTransaction} {C : Env → CBlock → Uint256 → Node → Prop}
    (hC : ∀ block s, c block s → C Sample.env block (block.getHash (params true)) s)
    (hfirst : playable (params true) c (firstBlocks 11) (fresh true))
    (hlast : playable (params true) c [.record (spendingBlock tx), .best (spendingBlock tx)]
      (after (play (params true) (firstBlocks 11) (fresh true)) (acceptToMemoryPool (params true) Sample.env spend))) :
    PoolReach (params true) (· ∈ spentCalls tx) C (spent tx) := by
  have hplay : ∀ {calls : List Call} {s : Node}, (∀ call ∈ calls, ∀ u ∈ call.block.vtx, u ∈ spentCalls tx) →
      PoolReach (params true) (· ∈ spentCalls tx) C s → playable (params true) c calls s →
      PoolReach (params true) (· ∈ spentCalls tx) C (play (params true) calls s) := fun hT hs hp =>
    play_keeps (R := PoolReach (params true) (· ∈ spentCalls tx) C)
      (fun s block _ hr hchecks hT => .step hr (.other (.record Sample.env block _ hchecks hT) (store_mempool block _ s)))
      (fun s block hr hblock hmain hc => .step hr (.setBestChain Sample.env block _ hblock hmain (hC block s hc))) hT hs hp
  have hmem : ∀ call ∈ Call.record (spendingBlock tx) :: firstBlocks 11, ∀ u ∈ call.block.vtx, u ∈ spentCalls tx :=
    fun call hcall u hu => List.mem_cons_of_mem _ (List.mem_flatMap.mpr ⟨call, hcall, hu⟩)
  have hstart : PoolReach (params true) (· ∈ spentCalls tx) C (fresh true) :=
    .start (ok_of_isOk (r := loadBlockIndex (params true) Sample.env (Node.empty [])) (by decide +kernel))
  have heleven := hplay (fun call hcall => hmem call (List.mem_cons_of_mem _ hcall)) hstart hfirst
  refine hplay (fun call hcall => ?_) (.step heleven (.accept Sample.env spend List.mem_cons_self)) hlast
  rcases List.mem_cons.mp hcall with rfl | hcall
  · exact hmem _ List.mem_cons_self
  · rw [List.mem_singleton.mp hcall]
    exact hmem (.record (spendingBlock tx)) List.mem_cons_self

end Sample

/-- The block holds the transaction of the pool itself, which is taken out. -/
theorem PoolReach.poolFree_sample :
    PoolReach (Sample.params true) (· ∈ Sample.spentCalls Sample.spend) (fun env block h s => poolAgrees (Sample.params true) env block h s)
      (Sample.spent Sample.spend) ∧ PoolFree (Sample.spent Sample.spend) := by
  have hr : PoolReach (Sample.params true) (· ∈ Sample.spentCalls Sample.spend)
      (fun env block h s => poolAgrees (Sample.params true) env block h s) (Sample.spent Sample.spend) :=
    Sample.poolReach_spent
      (c := fun block s => poolAgrees (Sample.params true) Sample.env block (block.getHash (Sample.params true)) s)
      (fun _ _ h => h) (by decide +kernel) (by decide +kernel)
  exact ⟨hr, PoolReach.poolFree (Sample.hashesApart_spentCalls (.inl rfl)) hr⟩

/-- **A block attached on top spends what a transaction of the pool spends**,
and the transaction stays in the pool. -/
theorem pool_keeps_conflict : ∃ s, PoolReach (Sample.params true) (· ∈ Sample.spentCalls Sample.otherSpend) (fun _ _ _ _ => True) s ∧
    HashesApart (Sample.params true) (· ∈ Sample.spentCalls Sample.otherSpend) ∧ ¬ PoolFree s := by
  refine ⟨Sample.spent Sample.otherSpend, Sample.poolReach_spent (c := fun _ _ => true) (fun _ _ _ => trivial)
    (by decide +kernel) (by decide +kernel), Sample.hashesApart_spentCalls (.inr rfl), fun hfree => ?_⟩
  have hpool : (Sample.spent Sample.otherSpend).mempool.lookup (Sample.start + 1400) = some Sample.spend := by decide +kernel
  refine hfree.chain _ _ ⟨Sample.start + 120, 0⟩ hpool ⟨_, List.mem_cons_self, rfl⟩ ?_
  exact ⟨113, 113, Sample.spendingBlock Sample.otherSpend, Sample.otherSpend, by decide +kernel, by decide +kernel,
    by decide +kernel, List.mem_cons_of_mem _ List.mem_cons_self, ⟨_, List.mem_cons_self, rfl⟩⟩

end Pinkcoin
