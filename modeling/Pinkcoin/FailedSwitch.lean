/-
A call of `SetBestChain` that is refused. The batch is dropped, so the
database, the pointers and the pool are as before the call; the wallets were
told of each block at once, and are not told that it is undone.
-/
import Pinkcoin.Placement
import Pinkcoin.TipAgrees

namespace Pinkcoin

open StateError
open Node (Stored AtTip Undone)

variable {P : Params} {T : CTransaction → Prop} {env : Env} {s s' : Node} {h t : Uint256} {block : CBlock}

/-! ## What the wallets are told -/

/-- A block the wallets are told of, as connected or as disconnected. -/
structure BlockNotice where
  block : CBlock
  fConnect : Bool

/-- A wallet after it is told of the transactions of some blocks. -/
def CWallet.told (P : Params) (env : Env) (w : CWallet) (notices : List BlockNotice) : CWallet :=
  notices.foldl (fun w notice => notice.block.vtx.foldl (fun w tx =>
    w.sync P env.adjustedTime env.walletWritten tx (some notice.block) notice.fConnect notice.fConnect) w) w

/-- The blocks the first loop of `Reorganize` disconnects before it ends. -/
def disconnectNotices (P : Params) (env : Env) : List Uint256 → Node → List BlockNotice
  | [], _ => []
  | h :: vDisconnect, s =>
    match disconnectOne P env h s with
    | .error _ _ => []
    | .ok _ s' => (s.blockAt h).toList.map (⟨·, false⟩) ++ disconnectNotices P env vDisconnect s'

/-- The blocks the second loop connects before it ends. -/
def connectNotices (P : Params) (env : Env) : List Uint256 → Node → List BlockNotice
  | [], _ => []
  | h :: vConnect, s =>
    match connectOne P env h s with
    | .error _ _ => []
    | .ok _ s' => (s.blockAt h).toList.map (⟨·, true⟩) ++ connectNotices P env vConnect s'

/-- The blocks a call of `SetBestChain` that is refused has disconnected and
connected: none where the block on top of the chain is the invalid one. -/
def refusedNotices (P : Params) (env : Env) (block : CBlock) (pindexNew : Uint256) (s : Node) : List BlockNotice :=
  let s := s.withTxdb s.txdb.txnBegin
  if block.hashPrevBlock = s.hashBestChain then
    if isOk (attachBlock P env block pindexNew s) then [⟨block, true⟩] else []
  else
    match s.best.bind fun best => postpone best.nChainTrust (s.mapBlockIndex.branch pindexNew) [] with
    | none => []
    | some (pindexIntermediate, _) =>
      match s.pindexBest.bind fun pindexBest => (findFork s pindexBest pindexIntermediate).map (pindexBest, ·) with
      | none => []
      | some (pindexBest, pfork) =>
        let vDisconnect := s.mapBlockIndex.forest.below pindexBest pfork
        match disconnectLoop P env vDisconnect [] s with
        | .error _ _ => disconnectNotices P env vDisconnect s
        | .ok _ s₁ => disconnectNotices P env vDisconnect s ++
            connectNotices P env (s.mapBlockIndex.forest.below pindexIntermediate pfork).reverse s₁

/-! ## What the parts of SetBestChain tell -/

namespace Node

/-- Between the two states the wallets are told of these blocks, and of
nothing else. -/
def Told (P : Params) (env : Env) (notices : List BlockNotice) (s s' : Node) : Prop :=
  s'.wallets = s.wallets.map (·.told P env notices)

theorem told_nil : Told P env [] s s' ↔ s'.wallets = s.wallets := by
  rw [Told, show (fun w : CWallet => w.told P env []) = id from rfl, List.map_id]

theorem Told.trans {l l' : List BlockNotice} {s'' : Node} (ht : Told P env l s s') (ht' : Told P env l' s' s'') :
    Told P env (l ++ l') s s'' := by
  rw [Told, ht', ht, List.map_map]
  refine List.map_congr_left fun w _ => ?_
  rw [Function.comp_apply, CWallet.told, CWallet.told, CWallet.told, List.foldl_append]

theorem Told.trans_same {l : List BlockNotice} {s'' : Node} (ht : Told P env l s s') (hs : s''.wallets = s'.wallets) :
    Told P env l s s'' := hs.trans ht

theorem told_syncAll (block : CBlock) (fConnect : Bool) (vtx : List CTransaction) (wallets : List CWallet) :
    syncAll P env (some block) fConnect fConnect vtx wallets = wallets.map fun w => vtx.foldl (fun w tx =>
      w.sync P env.adjustedTime env.walletWritten tx (some block) fConnect fConnect) w := by
  induction vtx generalizing wallets with
  | nil => exact (List.map_id wallets).symm
  | cons tx vtx ih =>
    rw [syncAll, List.foldl_cons, ← syncAll, ih, List.map_map]
    rfl

/-- The wallets stay. -/
def SameWallets (s s' : Node) : Prop := s'.wallets = s.wallets

instance : Std.Refl SameWallets := ⟨fun _ => rfl⟩
instance : IsTrans Node SameWallets := ⟨fun _ _ _ h h' => Eq.trans h' h⟩

end Node

open Node (Told SameWallets)

theorem sameWallets_disconnectInputs (tx : CTransaction) : Keeps SameWallets (tx.disconnectInputs P) := by
  refine keeps_bind (keeps_onlyIf (keeps_forM fun txin _ => ?_)) fun _ => keeps_modify fun _ => rfl
  refine keeps_bind keeps_get fun s => ?_
  split
  · exact keeps_throw _
  · exact keeps_bind (keeps_rejectIf _ _) fun _ => keeps_modify fun _ => rfl

theorem sameWallets_txnCommit (e : Reject) : Keeps SameWallets (txnCommit env e) := by
  intro s
  cases h : txnCommit env e s with
  | ok u s' =>
    obtain ⟨-, rfl⟩ := txnCommit_ok.mp h
    rfl
  | error e' s' =>
    rw [endState_error, txnCommit_error h]
    rfl

variable (P env) in
theorem told_disconnectBlock (block : CBlock) (pindex : CBlockIndex) (s : Node) :
    Told P env (if isOk (block.disconnectBlock P env pindex s) then [⟨block, false⟩] else []) s
      (endState (block.disconnectBlock P env pindex s)) := by
  cases hrun : block.disconnectBlock P env pindex s with
  | ok u s' =>
    obtain ⟨txdb, rfl, -⟩ := CBlock.disconnectBlock_ok 0 0 hrun
    exact Node.told_syncAll block false block.vtx s.wallets
  | error e s' =>
    rw [isOk, if_neg (by simp), Node.told_nil, endState_error]
    simp only [CBlock.disconnectBlock, bind_error, CBlock.writeHashNext, modify_error, modify_ok, forM_syncWithWallets,
      reduceCtorEq, and_false, exists_false, or_false] at hrun
    exact (keeps_forM fun tx _ => sameWallets_disconnectInputs tx : Keeps SameWallets _).error hrun

variable (P env) in
theorem told_connectBlock (block : CBlock) (pindex : CBlockIndex) (s : Node) :
    Told P env (if isOk (block.connectBlock P env pindex false s) then [⟨block, true⟩] else []) s
      (endState (block.connectBlock P env pindex false s)) := by
  rw [CBlock.connectBlock_run]
  cases CBlock.connectChecks P env s pindex false block with
  | ok acc => exact Node.told_syncAll block true block.vtx s.wallets
  | error e => exact Node.told_nil.mpr rfl

/-- The blocks of one turn of a loop of `Reorganize`. -/
def turnNotices (fConnect : Bool) (h : Uint256) (s : Node) (r : EStateM.Result Reject Node (List CTransaction)) :
    List BlockNotice := if isOk r then (s.blockAt h).toList.map (⟨·, fConnect⟩) else []

/-- A turn reads the block of a record, and hands it to `f`. -/
theorem told_turn {fConnect : Bool} {e₁ e₂ : Reject} {α : Type} {f : CBlock → CBlockIndex → NodeM α}
    {g : CBlock → CBlockIndex → List CTransaction}
    (hf : ∀ block pindex s, Told P env (if isOk (f block pindex s) then [⟨block, fConnect⟩] else []) s
      (endState (f block pindex s))) (h : Uint256) (s : Node) :
    let r := (do
      let pindex ← deref h
      let s ← get
      let block ← withError e₁ (lift (s.readIndexed env P pindex))
      let _ ← withError e₂ (f block pindex)
      pure (g block pindex) : NodeM (List CTransaction)) s
    Told P env (turnNotices fConnect h s r) s (endState r) := by
  intro r
  cases hr : r with
  | ok v s' =>
    simp only [r, bind_ok, deref_ok, get_ok, withError_ok, lift_ok, pure_ok] at hr
    obtain ⟨pindex, _, ⟨hfind, rfl⟩, _, _, ⟨rfl, rfl⟩, block, s, ⟨hread, rfl⟩, a, s₁, hrun, -, rfl⟩ := hr
    have ht := hf block pindex s
    rw [hrun, isOk, if_pos rfl] at ht
    rw [turnNotices, isOk, if_pos rfl, Node.blockAt_of_readIndexed hfind hread]
    exact ht
  | error e s' =>
    rw [turnNotices, isOk, if_neg (by simp), Node.told_nil, endState_error]
    simp only [r, bind_error, deref_ok, deref_error, get_error, get_ok, withError_error, withError_ok, lift_error,
      lift_ok, pure_error, and_false, exists_false, or_false, false_or] at hr
    obtain ⟨-, -, rfl⟩ | ⟨pindex, _, ⟨-, rfl⟩, _, s, ⟨rfl, rfl⟩, ⟨-, e', -, rfl⟩ | ⟨block, s, ⟨-, rfl⟩, -, e', hrun⟩⟩ := hr
    · rfl
    · rfl
    · have ht := hf block pindex s
      rw [hrun, isOk, if_neg (by simp), Node.told_nil] at ht
      exact ht

variable (P env) in
theorem told_disconnectOne (h : Uint256) (s : Node) :
    Told P env (turnNotices false h s (disconnectOne P env h s)) s (endState (disconnectOne P env h s)) :=
  told_turn (told_disconnectBlock P env) h s

variable (P env) in
theorem told_connectOne (h : Uint256) (s : Node) :
    Told P env (turnNotices true h s (connectOne P env h s)) s (endState (connectOne P env h s)) :=
  told_turn (told_connectBlock P env) h s

variable (P env) in
/-- However the loops end, the wallets are told of the blocks they got through. -/
theorem told_disconnectLoop (vDisconnect : List Uint256) (vResurrect : List CTransaction) (s : Node) :
    Told P env (disconnectNotices P env vDisconnect s) s (endState (disconnectLoop P env vDisconnect vResurrect s)) := by
  induction vDisconnect generalizing vResurrect s with
  | nil => exact Node.told_nil.mpr rfl
  | cons h vDisconnect ih =>
    have hone := told_disconnectOne P env h s
    simp only [disconnectNotices, disconnectLoop, bind, EStateM.bind]
    cases hrun : disconnectOne P env h s with
    | ok vtx s₁ =>
      rw [hrun, turnNotices, isOk, if_pos rfl] at hone
      exact hone.trans (ih _ s₁)
    | error e s₁ =>
      rw [hrun, turnNotices, isOk, if_neg (by simp)] at hone
      exact hone

variable (P env) in
theorem told_connectLoop (vConnect : List Uint256) (vDelete : List CTransaction) (s : Node) :
    Told P env (connectNotices P env vConnect s) s (endState (connectLoop P env vConnect vDelete s)) := by
  induction vConnect generalizing vDelete s with
  | nil => exact Node.told_nil.mpr rfl
  | cons h vConnect ih =>
    have hone := told_connectOne P env h s
    simp only [connectNotices, connectLoop, bind, EStateM.bind]
    cases hrun : connectOne P env h s with
    | ok vtx s₁ =>
      rw [hrun, turnNotices, isOk, if_pos rfl] at hone
      exact hone.trans (ih _ s₁)
    | error e s₁ =>
      rw [hrun, turnNotices, isOk, if_neg (by simp)] at hone
      exact hone

variable (P env) in
theorem told_attachBlock (block : CBlock) (h : Uint256) (s : Node) :
    Told P env (if isOk (attachBlock P env block h s) then [⟨block, true⟩] else []) s
      (endState (attachBlock P env block h s)) := by
  cases hrun : attachBlock P env block h s with
  | ok u s' =>
    obtain ⟨pindex, b', s₁, -, hconn, rfl⟩ := attachBlock_ok.mp hrun
    have ht := told_connectBlock P env block pindex s
    rw [hconn] at ht
    exact ht
  | error e s' =>
    rw [isOk, if_neg (by simp), Node.told_nil, endState_error]
    simp only [attachBlock, modifyTxdb, bind_error, deref_ok, deref_error, modify_error, and_false, exists_false,
      or_false] at hrun
    obtain ⟨-, -, rfl⟩ | ⟨pindex, s, ⟨-, rfl⟩, hconn⟩ := hrun
    · rfl
    · have ht := told_connectBlock P env block pindex s
      rw [hconn, isOk, if_neg (by simp), Node.told_nil] at ht
      exact ht

theorem told_setBestChainInner {e : Reject} (hrun : setBestChainInner P env block h s = .error e s') :
    Told P env (if isOk (attachBlock P env block h s) then [⟨block, true⟩] else []) s s' := by
  have ht := told_attachBlock P env block h s
  simp only [setBestChainInner, bind_error, attempt_error, attempt_ok, false_or] at hrun
  obtain ⟨_, s₂, ⟨rfl, u, ha⟩ | ⟨rfl, e', ha⟩, hrest⟩ := hrun
  · rw [ha] at ht ⊢
    simp only [if_pos, bind_error, modify_error, and_false, exists_false, or_false] at hrest
    exact ht.trans_same ((sameWallets_txnCommit _).error hrest)
  · rw [ha] at ht ⊢
    simp only [Bool.false_eq_true, if_false, bind_error, modifyTxdb, modify_error, modify_ok, throw_error, false_or] at hrest
    obtain ⟨_, _, rfl, -, rfl⟩ := hrest
    exact ht

/-- A refused `Reorganize` ends inside its batch. -/
theorem told_switchBranch {vDisconnect vConnect : List Uint256} {n : Uint256} {e : Reject}
    (hrun : switchBranch P env vDisconnect vConnect n s = .error e s') :
    Told P env (match disconnectLoop P env vDisconnect [] s with
      | .error _ _ => disconnectNotices P env vDisconnect s
      | .ok _ s₁ => disconnectNotices P env vDisconnect s ++ connectNotices P env vConnect s₁) s s' := by
  have hdis := told_disconnectLoop P env vDisconnect [] s
  simp only [switchBranch, modifyTxdb, bind_error, modify_error, modify_ok, pure_error, and_false, exists_false, or_false,
    false_or] at hrun
  obtain hd | ⟨vResurrect, s₁, hd, hrun⟩ := hrun
  · rw [hd] at hdis ⊢
    exact hdis
  · rw [hd] at hdis ⊢
    have hcon := told_connectLoop P env vConnect [] s₁
    obtain hc | ⟨vDelete, s₂, hc, _, _, rfl, hcommit⟩ := hrun
    · rw [hc] at hcon
      exact hdis.trans hcon
    · rw [hc] at hcon
      have hsame : SameWallets (s₂.withTxdb (s₂.txdb.writeHashBestChain n)) s' :=
        (sameWallets_txnCommit _).error hcommit
      exact (hdis.trans hcon).trans_same hsame

theorem told_reorganize {n pb : Uint256} {e : Reject} (hb : s.pindexBest = some pb)
    (hrun : reorganize P env n s = .error e s') :
    Told P env (match findFork s pb n with
      | none => []
      | some f => match disconnectLoop P env (s.mapBlockIndex.forest.below pb f) [] s with
        | .error _ _ => disconnectNotices P env (s.mapBlockIndex.forest.below pb f) s
        | .ok _ s₁ => disconnectNotices P env (s.mapBlockIndex.forest.below pb f) s ++
            connectNotices P env (s.mapBlockIndex.forest.below n f).reverse s₁) s s' := by
  simp only [reorganize, bind_error, get_error, get_ok, false_or] at hrun
  obtain ⟨_, s, ⟨rfl, rfl⟩, hrun⟩ := hrun
  simp only [hb] at hrun
  cases hf : findFork s pb n with
  | none =>
    simp only [hf, throw_error] at hrun
    rw [hrun.2]
    exact Node.told_nil.mpr rfl
  | some f =>
    simp only [hf, bind_error] at hrun
    obtain hsw | ⟨⟨vResurrect, vDelete⟩, s₁, -, hst⟩ := hrun
    · exact told_switchBranch hsw
    · obtain ⟨_, _, _, hok⟩ := settleBranch_run P env (s.mapBlockIndex.forest.below pb f)
        (s.mapBlockIndex.forest.below n f).reverse vResurrect vDelete s₁
      exact absurd (hok.symm.trans hst) (by simp)

/-- **What a refused call tells the wallets.** -/
theorem told_setBestChain {e : Reject} (ht : AtTip s t) (hhas : s.mapBlockIndex.Has h)
    (hrun : setBestChain P env block h s = .error e s') : Told P env (refusedNotices P env block h s) s s' := by
  simp only [setBestChain, modifyTxdb, bind_error, modify_error, modify_ok, false_or] at hrun
  obtain ⟨_, _, rfl, hmv | ⟨_, s₁, hmv, hinst⟩⟩ := hrun
  · simp only [moveChain, bind_error, get_error, get_ok, false_or] at hmv
    obtain ⟨_, _, ⟨rfl, rfl⟩, hmv⟩ := hmv
    rw [if_neg fun hg => ht.genesis hg.1] at hmv
    rw [refusedNotices]
    split at hmv
    next hprev =>
      rw [if_pos hprev]
      obtain ⟨-, e', hin⟩ := withError_error.mp hmv
      exact told_setBestChainInner (s := s.withTxdb s.txdb.txnBegin) hin
    next hprev =>
      rw [if_neg hprev]
      simp only [switchChain, bind_error, get_error, get_ok, false_or] at hmv
      obtain ⟨_, _, ⟨rfl, rfl⟩, hmv⟩ := hmv
      cases hpost : (s.withTxdb s.txdb.txnBegin).best.bind
          fun best => postpone best.nChainTrust ((s.withTxdb s.txdb.txnBegin).mapBlockIndex.branch h) [] with
      | none =>
        simp only [hpost, throw_error] at hmv
        rw [hmv.2]
        exact Node.told_nil.mpr rfl
      | some r =>
        obtain ⟨i, secondary⟩ := r
        simp only [hpost, bind_error, attempt_error, attempt_ok, false_or] at hmv
        obtain ⟨_, s₂, ⟨rfl, u, hre⟩ | ⟨rfl, e', hre⟩, hmv⟩ := hmv
        · rw [if_pos rfl] at hmv
          -- the postponed blocks are never refused
          have hg : Node.Steady (s.withTxdb s.txdb.txnBegin) s₂ := (keeps_reorganize i).ok hre
          obtain ⟨best, hbest, -⟩ := ht.best
          rw [show (s.withTxdb s.txdb.txnBegin).best = some best from hbest, Option.bind_some] at hpost
          have hhas₂ := fun k hk => hg.tree.has (BlockTree.has_of_path (postpone_spec hhas hpost).1 k hk)
          obtain ⟨s₃, hrun'⟩ := connectSecondary_total P env hhas₂
          exact absurd (hrun'.symm.trans hmv) (by simp)
        · simp only [Bool.false_eq_true, if_false, bind_error, modifyTxdb, modify_error, modify_ok, throw_error,
            false_or] at hmv
          obtain ⟨_, _, rfl, -, rfl⟩ := hmv
          have htold := told_reorganize (s := s.withTxdb s.txdb.txnBegin) ht.pindexBest hre
          have hbest : (s.withTxdb s.txdb.txnBegin).pindexBest = some t := ht.pindexBest
          simp only [hbest, Option.bind_some]
          cases hf : findFork (s.withTxdb s.txdb.txnBegin) t i with
          | none =>
            rw [hf] at htold
            exact htold
          | some f =>
            rw [hf] at htold
            exact htold
  · -- the record of the new block is still there
    obtain ⟨b, hb⟩ := Option.ne_none_iff_exists'.mp hhas
    have hg : Node.Steady (s.withTxdb s.txdb.txnBegin) s₁ := (keeps_moveChain block h).ok hmv
    obtain ⟨b', hb', -⟩ := hg.tree h b hb
    simp only [installBest, bind_error, modify_error, and_false, exists_false, or_false] at hinst
    exact (deref_error.mp hinst).elim fun hn => absurd hb' (by simp [hn])

/-! ## Whether everything is as before -/

/-- The transaction index, the stored best hash, the `pnext` links, the pool,
and the transactions of the wallets with their spent flags are the same. -/
structure Restored (s s' : Node) : Prop where
  index : s'.txdb.readTxIndex = s.txdb.readTxIndex
  best : s'.txdb.readHashBestChain = s.txdb.readHashBestChain
  pnext : ∀ h, (s'.mapBlockIndex.find h).bind CBlockIndex.pnext = (s.mapBlockIndex.find h).bind CBlockIndex.pnext
  mempool : s'.mempool = s.mempool
  wallets : s'.wallets.map CWallet.content = s.wallets.map CWallet.content

theorem Node.Undone.pnext {S : Uint256 → Prop} (hu : Undone S s s') (h : Uint256) :
    (s'.mapBlockIndex.find h).bind CBlockIndex.pnext = (s.mapBlockIndex.find h).bind CBlockIndex.pnext := by
  cases hb : s.mapBlockIndex.find h with
  | none => rw [hu.inside.new h hb]
  | some b =>
    obtain ⟨m, n, hb'⟩ := hu.inside.tree h b hb
    rw [hb']
    rfl

namespace Sample

/-- A block of the main chain, and two of a side chain, the second of which
pays itself a coin too much. -/
def badSwitch : List Call :=
  [.record (chainBlock 1), .best (chainBlock 1), .record (sideBlock 1 COIN), .record (sideBlock 2 1)]

theorem reach_badSwitch : Reach (params true) (fun _ => True) (fun _ _ _ _ => True) (play (params true) badSwitch (fresh true)) :=
  reach_play (c := fun _ _ => true) (fun _ _ _ => trivial) (fun _ _ _ _ => trivial) reach_fresh (by decide +kernel)

end Sample

end Pinkcoin
