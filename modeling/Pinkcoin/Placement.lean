/-
Where a node is after any calls at all. `SetBestChain` may stop half-way
through the postponed blocks, and the node then holds a block for the best
whose branch the database has not followed to its end. What still holds: the
index and the disk belong together, and the `pnext` pointers lead along the
chain to the best block.
-/
import Pinkcoin.ChainRuns

namespace Pinkcoin

open StateError
open Node (Stored Steady AtTip Tip Undone Inside Loose)

variable {P : Params} {T : CTransaction → Prop} {env : Env} {s s' : Node} {h t : Uint256} {block : CBlock}

/-! ## The pointers after SetBestChain -/

theorem Node.AtTip.has (ht : AtTip s t) : s.mapBlockIndex.Has t := by
  obtain ⟨b, hb, -⟩ := ht.nBestHeight
  exact BlockTree.has_of_find hb

theorem within_inner {p : Uint256} {u : Unit} (hm : s.mapBlockIndex.MarksWithin p)
    (hp : s.mapBlockIndex.forest.parent h = some p) (hrun : setBestChainInner P env block h s = .ok u s') :
    s'.txdb.batch = none ∧ s'.mapBlockIndex.MarksWithin h := by
  obtain ⟨b, b', s₁, hb, hconn, -, rfl⟩ := setBestChainInner_ok.mp hrun
  have hi : Inside (· ≠ h) s s₁ := (keeps_connectBlock block b (by simpa using BlockTree.find_hash hb)).ok hconn
  have hm₁ := hi.marksWithin hm (BlockTree.has_of_parent hp).2
  exact ⟨rfl, hm₁.push (hi.grows.tree.parent_mono h p hp)⟩

theorem within_reorganize {n : Uint256} {u : Unit} (hm : s.mapBlockIndex.MarksWithin t) (hh : s.mapBlockIndex.Has t)
    (hb : s.pindexBest = some t) (hrun : reorganize P env n s = .ok u s') :
    s'.txdb.batch = none ∧ s'.mapBlockIndex.MarksWithin n := by
  obtain ⟨pb, f, vResurrect, vDelete, s₃, _, hpb, hfork, hswitch, hsettle, rfl⟩ := reorganize_ok.mp hrun
  obtain rfl : t = pb := by simpa [hb] using hpb
  obtain ⟨s₁, s₂, hdis, hconn, -, rfl⟩ := switchBranch_ok.mp hswitch
  obtain ⟨hft, hfn, -⟩ := Forest.meet_spec hfork
  obtain ⟨hrises, hhead⟩ := Forest.rises_below hft
  obtain ⟨hpath, hlast⟩ := Forest.path_below hfn
  have hi : Inside (fun _ => False) s s₂ :=
    ((keeps_disconnectLoop _ []).ok hdis).trans ((keeps_connectLoop _ [] (by simp)).ok hconn)
  have hmarks := BlockTree.MarksWithin.relink (by rw [hhead]; exact hi.marksWithin hm hh)
    (hrises.mono hi.grows.tree.parent_mono) (hpath.mono hi.grows.tree.parent_mono)
  rw [hlast] at hmarks
  obtain ⟨s₄, -, hloose, hrun'⟩ := settleBranch_run P env (s.mapBlockIndex.forest.below t f)
    (s.mapBlockIndex.forest.below n f).reverse vResurrect vDelete (s₂.withTxdb (s₂.txdb.writeHashBestChain n).commit)
  obtain ⟨-, rfl⟩ := EStateM.Result.ok.inj (hsettle.symm.trans hrun')
  rw [hloose]
  exact ⟨rfl, hmarks⟩

theorem batch_connectSecondary {secondary : List Uint256} {u : Unit} (hb : s.txdb.batch = none)
    (hrun : connectSecondary P env secondary s = .ok u s') : s'.txdb.batch = none := by
  induction secondary generalizing s with
  | nil =>
    simp only [connectSecondary, pure_ok] at hrun
    rw [← hrun.2]
    exact hb
  | cons k rest ih =>
    simp only [connectSecondary, bind_ok, get_ok] at hrun
    obtain ⟨_, s, ⟨rfl, rfl⟩, hrun⟩ := hrun
    cases hfind : s.mapBlockIndex.find k with
    | none => simp [hfind] at hrun
    | some pindex =>
      cases hread : s.readIndexed env P pindex with
      | error e =>
        simp only [hfind, hread, pure_ok] at hrun
        rw [← hrun.2]
        exact hb
      | ok block =>
        simp only [hfind, hread, bind_ok, modifyTxdb, modify_ok, attempt_ok] at hrun
        obtain ⟨_, _, rfl, _, s₁, ⟨rfl, _, hin⟩ | ⟨rfl, _, hin⟩, hrest⟩ := hrun
        · rw [if_pos rfl] at hrest
          obtain ⟨_, _, _, -, -, -, rfl⟩ := setBestChainInner_ok.mp hin
          exact ih rfl hrest
        · simp only [Bool.false_eq_true, if_false, pure_ok] at hrest
          rw [← hrest.2, (setBestChainInner_error hb hin).txdb]
          exact hb

theorem within_connectSecondary {secondary : List Uint256} {u : Unit} (hb : s.txdb.batch = none)
    (hm : s.mapBlockIndex.MarksWithin t) (hh : s.mapBlockIndex.Has t) (hp : s.mapBlockIndex.forest.Path t secondary)
    (hrun : connectSecondary P env secondary s = .ok u s') :
    s'.txdb.batch = none ∧ s'.mapBlockIndex.MarksWithin (secondary.getLastD t) := by
  induction secondary generalizing s t with
  | nil =>
    simp only [connectSecondary, pure_ok] at hrun
    rw [← hrun.2]
    exact ⟨hb, hm⟩
  | cons k rest ih =>
    have hstop : s.mapBlockIndex.MarksWithin ((k :: rest).getLastD t) := hm.mono hp.mem_chain
    obtain ⟨pindex, hfind, -⟩ := BlockTree.parent_some.mp hp.1
    simp only [connectSecondary, bind_ok, get_ok] at hrun
    obtain ⟨_, s, ⟨rfl, rfl⟩, hrun⟩ := hrun
    cases hread : s.readIndexed env P pindex with
    | error e =>
      simp only [hfind, hread, pure_ok] at hrun
      rw [← hrun.2]
      exact ⟨hb, hstop⟩
    | ok block =>
      simp only [hfind, hread, bind_ok, modifyTxdb, modify_ok, attempt_ok] at hrun
      obtain ⟨_, _, rfl, _, s₁, ⟨rfl, _, hin⟩ | ⟨rfl, _, hin⟩, hrest⟩ := hrun
      · rw [if_pos rfl] at hrest
        obtain ⟨hb₁, hm₁⟩ := within_inner (s := s.withTxdb s.txdb.txnBegin) hm hp.1 hin
        have hg : Steady (s.withTxdb s.txdb.txnBegin) s₁ := (keeps_setBestChainInner block k).ok hin
        rw [List.getLastD_cons]
        exact ih hb₁ hm₁ (hg.tree.has (BlockTree.has_of_find hfind)) (hp.2.mono hg.tree.parent_mono) hrest
      · -- the block is not attached, and the loop ends
        simp only [Bool.false_eq_true, if_false, pure_ok] at hrest
        rw [← hrest.2]
        have hu := setBestChainInner_error hb hin
        have hg := hu.inside.grows.tree
        refine ⟨by rw [hu.txdb, hb], ?_⟩
        exact (hu.inside.marksWithin hm hh).mono (hp.mono hg.parent_mono).mem_chain

/-- Wherever the chain is moved, the pointers lead along it. -/
theorem Moved.within {s₁ : Node} (ht : AtTip s t) (hm : s.mapBlockIndex.MarksWithin t)
    (hparent : s.mapBlockIndex.forest.parent h = some block.hashPrevBlock) (hmoved : Moved P env block h t s s₁) :
    s₁.txdb.batch = none ∧ s₁.mapBlockIndex.MarksWithin h := by
  cases hmoved with
  | extend hprev hrun =>
    rw [hprev] at hparent
    exact within_inner (s := s.withTxdb s.txdb.txnBegin) hm hparent hrun
  | switch hprev best i secondary s₂ hbest hpost hre hrest =>
    obtain ⟨hpath, hlast⟩ := postpone_spec (BlockTree.has_of_parent hparent).1 hpost
    have hg : Steady (s.withTxdb s.txdb.txnBegin) s₂ := (keeps_reorganize i).ok hre
    obtain ⟨hb₂, hm₂⟩ := within_reorganize (s := s.withTxdb s.txdb.txnBegin) hm ht.has ht.pindexBest hre
    have hi : s.mapBlockIndex.Has i :=
      BlockTree.has_of_mem_chain (BlockTree.has_of_parent hparent).1 (by rw [← hlast]; exact hpath.mem_chain)
    rw [← hlast]
    exact within_connectSecondary hb₂ hm₂ (hg.tree.has hi) (hpath.mono hg.tree.parent_mono) hrest

/-! ## A node at its best block -/

/-- `SetBestChain` closes the batch it opens. -/
theorem Moved.batch {s₁ : Node} (hmoved : Moved P env block h t s s₁) : s₁.txdb.batch = none := by
  cases hmoved with
  | extend hprev hrun =>
    obtain ⟨_, _, _, -, -, -, rfl⟩ := setBestChainInner_ok.mp hrun
    rfl
  | switch hprev best i secondary s₂ hbest hpost hre hrest =>
    obtain ⟨pb, f, vResurrect, vDelete, s₃, _, -, -, hswitch, hsettle, rfl⟩ := reorganize_ok.mp hre
    obtain ⟨_, s₄, -, -, -, rfl⟩ := switchBranch_ok.mp hswitch
    obtain ⟨s₅, -, hloose, hrun⟩ := settleBranch_run P env _ _ vResurrect vDelete _
    obtain ⟨-, rfl⟩ := EStateM.Result.ok.inj (hsettle.symm.trans hrun)
    refine batch_connectSecondary ?_ hrest
    rw [hloose]
    rfl

namespace Node

/-- The node is at `t`, the pointers lead towards it, and index and disk
belong together. -/
structure Placed (P : Params) (T : CTransaction → Prop) (s : Node) (t : Uint256) : Prop extends AtTip s t where
  stored : Stored P T s
  marks : s.mapBlockIndex.MarksWithin t

theorem Tip.placed (ht : Tip P T s t) : Placed P T s t := ⟨ht.toAtTip, ht.follows.stored, ht.follows.marks.within⟩

/-- A change of the best chain keeps the index and the disk together. -/
theorem Steady.stored (h : Steady s s') (hs : Stored P T s) : Stored P T s' := by
  refine hs.of_cores (fun k b' hb' => ?_) h.disk (h.genesis (by simp [hs.genesis]))
  cases hb : s.mapBlockIndex.find k with
  | none => simp [h.new k hb] at hb'
  | some b =>
    obtain ⟨b'', hb'', hcore⟩ := h.tree k b hb
    obtain rfl := Option.some.inj (hb''.symm.trans hb')
    exact ⟨b, rfl, hcore⟩

namespace Placed

variable (hp : Placed P T s t)

include hp

theorem of_aside (ha : Aside s s') : Placed P T s' t := by
  refine ⟨ha.atTip hp.toAtTip, hp.stored.of_cores (fun k b hb => ⟨b, ?_, rfl⟩) ?_ ?_, ?_⟩
  · rw [ha.rest] at hb
    exact hb
  · rw [ha.rest]
  · rw [ha.rest]
  · rw [ha.rest]
    exact hp.marks

theorem of_undone (hu : Undone (· ∈ s.mapBlockIndex.chain t) s s') : Placed P T s' t :=
  ⟨hp.toAtTip.of_undone hu, hp.stored.of_inside hu.inside, hu.inside.marksWithin hp.marks hp.has⟩

/-- When `SetBestChain` returns true the node is at the requested block. -/
theorem setBestChain_ok {u : Unit} (hhash : block.getHash P = h)
    (hparent : s.mapBlockIndex.forest.parent h = some block.hashPrevBlock)
    (hrun : Pinkcoin.setBestChain P env block h s = .ok u s') : Placed P T s' h := by
  have hsteady : Steady s s' := (keeps_setBestChain block h).ok hrun
  obtain ⟨s₁, b, hmoved, hb, rfl⟩ := Pinkcoin.setBestChain_ok hp.toAtTip hrun
  obtain ⟨hbatch, hmarks⟩ := hmoved.within hp.toAtTip hp.marks hparent
  have hgenesis := hsteady.genesis hp.genesis
  exact ⟨⟨hbatch, by rw [hgenesis]; exact hp.genesis, rfl, hhash, b, hb, rfl⟩, hsteady.stored hp.stored, hmarks⟩

end Placed

end Node

open Node (Placed)

theorem Recorded.placed (hp : Placed P T s t)
    (hr : Recorded P block s.disk.nextFile s.disk.nextPos (s.appended block) s')
    (hprev : ∃ bp, s.mapBlockIndex.find block.hashPrevBlock = some bp ∧ block.numberedAs (bp.nHeight + 1))
    (hT : ∀ tx ∈ block.vtx, T tx) : Placed P T s' t := by
  have htree : s.mapBlockIndex.Grows s'.mapBlockIndex := hr.grows.tree
  refine ⟨hr.atTip hp.toAtTip, hr.stored hp.stored hprev hT, fun k b' hb' q hq => ?_⟩
  rw [htree.chain_eq hp.has]
  rcases hr.find hb' with hb | ⟨-, -, -, -, hpnext, -⟩
  · obtain ⟨hmem, hqp⟩ := hp.marks k b' hb q hq
    exact ⟨hmem, htree.parent_mono q k hqp⟩
  · simp [hpnext] at hq

/-! ## After any calls -/

/-- One call of any kind leaves the node at a best block, with the index and
the disk together. -/
theorem Step.atTip {C : Env → CBlock → Uint256 → Node → Prop} (ht : AtTip s t) (hs : Stored P T s)
    (h : Step P T C s s') : (∃ t', AtTip s' t') ∧ Stored P T s' := by
  have haside : ∀ {s'}, Aside s s' → (∃ t', AtTip s' t') ∧ Stored P T s' := fun ha =>
    ⟨⟨t, ha.atTip ht⟩, hs.of_cores (fun k b hb => ⟨b, by rw [ha.rest] at hb; exact hb, rfl⟩) (by rw [ha.rest])
      (by rw [ha.rest])⟩
  cases h with
  | record env block hashProof hchecks hTx =>
    rw [store_run]
    have hr : Recorded P block s.disk.nextFile s.disk.nextPos (s.appended block) (endState
        (block.insertBlockIndex P env s.disk.nextFile s.disk.nextPos hashProof (s.appended block))) :=
      recorded_insertBlockIndex block _ _ hashProof ht.batch
    exact ⟨⟨t, hr.atTip ht⟩, hr.stored hs (acceptBlockChecks_place hchecks).2 hTx⟩
  | setBestChain env block h hblock hmain hC =>
    have hsteady : Steady s (endState (Pinkcoin.setBestChain P env block h s)) := keeps_setBestChain block h s
    refine ⟨?_, hsteady.stored hs⟩
    cases hrun : Pinkcoin.setBestChain P env block h s with
    | ok u s' =>
      rw [hrun] at hsteady
      have hgenesis := hsteady.genesis ht.genesis
      obtain ⟨s₁, b, hmoved, hb, rfl⟩ := setBestChain_ok ht hrun
      exact ⟨h, hmoved.batch, by rw [endState_ok] at hgenesis ⊢; rw [hgenesis]; exact ht.genesis, rfl,
        hs.getHash_eq hblock, b, hb, rfl⟩
    | error e s' =>
      obtain ⟨b, hfind, -⟩ := Option.bind_eq_some_iff.mp hblock
      have hu : Undone (fun _ => False) s s' :=
        setBestChain_undone ht (BlockTree.has_of_find hfind) (fun _ hk => hk.elim) (fun _ hk => hk) hrun
      exact ⟨t, ht.of_undone hu⟩
  | accept env tx => exact haside (Aside.of_loose (keeps_acceptToMemoryPool tx s))
  | remove tx fRecursive =>
    exact haside (Aside.of_loose (rfl : Loose s { s with mempool := s.mempool.remove P tx fRecursive }))
  | checkpoint env h => exact haside (aside_writeSyncCheckpoint h s)
  | note hPending hInvalid => exact haside ⟨rfl, fun hb => ⟨hb, fun _ _ _ => rfl⟩⟩
  | wallets ws => exact haside (Aside.of_loose (rfl : Loose s { s with wallets := ws }))

theorem Reach.atTip {C : Env → CBlock → Uint256 → Node → Prop} (h : Reach P T C s) :
    (∃ t, AtTip s t) ∧ Stored P T s := by
  induction h with
  | start h => exact ⟨⟨_, (loadBlockIndex_ok (T := T) h).1.toAtTip⟩, (loadBlockIndex_ok h).1.follows.stored⟩
  | step _ h ih =>
    obtain ⟨⟨t, ht⟩, hs⟩ := ih
    exact h.atTip ht hs

end Pinkcoin
