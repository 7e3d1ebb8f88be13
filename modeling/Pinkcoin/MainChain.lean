/-
What `SetBestChain` does to the pointers and to the database. The `pnext`
pointers mark one chain (`MarksTo`), and the database follows one
(`Follows`): each block that is connected moves both one block on, each one
that is disconnected one block back, and a branch that fails leaves them as
they were. Blocks that are postponed are committed one at a time, so the
loop over them may stop half-way.
-/
import Pinkcoin.ChainState

namespace Pinkcoin

open StateError

/-! ## The pointers of the main chain -/

namespace BlockTree

variable {t : BlockTree}

/-- The `pnext` pointers lead along the chain to `tip`, and nowhere else. -/
def MarksTo (t : BlockTree) (tip : Uint256) : Prop :=
  ∀ h b, t.find h = some b → ∀ q, b.pnext = some q ↔ q ∈ t.chain tip ∧ t.forest.parent q = some h

/-- The `pnext` pointers lead along the chain to `tip`, but maybe not to its
end. -/
def MarksWithin (t : BlockTree) (tip : Uint256) : Prop :=
  ∀ h b, t.find h = some b → ∀ q, b.pnext = some q → q ∈ t.chain tip ∧ t.forest.parent q = some h

theorem MarksTo.within {tip : Uint256} (hm : t.MarksTo tip) : t.MarksWithin tip := fun h b hb q hq => (hm h b hb q).mp hq

theorem MarksWithin.mono {k tip : Uint256} (hm : t.MarksWithin k) (hk : k ∈ t.chain tip) : t.MarksWithin tip := by
  intro h b hb q hq
  obtain ⟨hmem, hparent⟩ := hm h b hb q hq
  exact ⟨Forest.mem_chain_trans hk hmem, hparent⟩

theorem has_of_path {p : Uint256} {l : List Uint256} (hp : t.forest.Path p l) : ∀ k ∈ l, t.Has k := by
  induction l generalizing p with
  | nil => simp
  | cons x l ih =>
    rw [List.forall_mem_cons]
    exact ⟨(has_of_parent hp.1).1, ih hp.2⟩

theorem setPrevNext_of_parent {h p : Uint256} (hp : t.forest.parent h = some p) (pnext : Option Uint256) :
    setPrevNext t h pnext = t.setPnext p pnext := by
  rw [setPrevNext, show (t.find h).bind CBlockIndex.pprev = some p from hp]

@[simp] theorem forest_setPrevNext (h : Uint256) (pnext : Option Uint256) : (setPrevNext t h pnext).forest = t.forest := by
  unfold setPrevNext
  split
  · rfl
  · exact forest_adjust

/-- A block is put on top of the marked chain. -/
theorem MarksWithin.push {h p : Uint256} (hm : t.MarksWithin p) (hp : t.forest.parent h = some p) :
    (setPrevNext t h (some h)).MarksWithin h := by
  intro k b' hb' q hq
  rw [chain, forest_setPrevNext, Forest.chain_of_parent hp]
  rw [setPrevNext_of_parent hp, find_setPnext] at hb'
  by_cases hk : k = p
  · rw [if_pos hk] at hb'
    obtain ⟨b, -, rfl⟩ := Option.map_eq_some_iff.mp hb'
    obtain rfl : h = q := by simpa using hq
    exact ⟨by simp, hk ▸ hp⟩
  · rw [if_neg hk] at hb'
    obtain ⟨hmem, hqp⟩ := hm k b' hb' q hq
    exact ⟨List.mem_cons_of_mem _ hmem, hqp⟩

theorem MarksTo.push {h p : Uint256} (hm : t.MarksTo p) (hp : t.forest.parent h = some p) :
    (setPrevNext t h (some h)).MarksTo h := by
  intro k b' hb' q
  refine ⟨hm.within.push hp k b' hb' q, ?_⟩
  rw [chain, forest_setPrevNext, Forest.chain_of_parent hp]
  rw [setPrevNext_of_parent hp, find_setPnext] at hb'
  rintro ⟨hq, hqp⟩
  by_cases hk : k = p
  · rw [if_pos hk] at hb'
    obtain ⟨b, -, rfl⟩ := Option.map_eq_some_iff.mp hb'
    rcases List.mem_cons.mp hq with rfl | hq
    · rfl
    · have := Forest.rank_le hq
      have := t.forest.rank_parent hqp
      rw [hk] at this
      omega
  · rw [if_neg hk] at hb'
    rcases List.mem_cons.mp hq with rfl | hq
    · rw [hp, Option.some.injEq] at hqp
      exact absurd hqp.symm hk
    · exact (hm k b' hb' q).mpr ⟨hq, hqp⟩

/-- The last block of the marked chain is taken off. -/
theorem MarksWithin.pop {h p : Uint256} (hm : t.MarksWithin h) (hp : t.forest.parent h = some p) :
    (setPrevNext t h none).MarksWithin p := by
  intro k b' hb' q hq
  rw [chain, forest_setPrevNext]
  rw [setPrevNext_of_parent hp, find_setPnext] at hb'
  by_cases hk : k = p
  · rw [if_pos hk] at hb'
    obtain ⟨b, -, rfl⟩ := Option.map_eq_some_iff.mp hb'
    simp at hq
  · rw [if_neg hk] at hb'
    obtain ⟨hmem, hqp⟩ := hm k b' hb' q hq
    rw [chain, Forest.chain_of_parent hp] at hmem
    rcases List.mem_cons.mp hmem with rfl | hmem
    · rw [hp, Option.some.injEq] at hqp
      exact absurd hqp.symm hk
    · exact ⟨hmem, hqp⟩

theorem MarksTo.pop {h p : Uint256} (hm : t.MarksTo h) (hp : t.forest.parent h = some p) :
    (setPrevNext t h none).MarksTo p := by
  intro k b' hb' q
  refine ⟨hm.within.pop hp k b' hb' q, ?_⟩
  rw [chain, forest_setPrevNext]
  rw [setPrevNext_of_parent hp, find_setPnext] at hb'
  rintro ⟨hq, hqp⟩
  by_cases hk : k = p
  · have := Forest.rank_le hq
    have := t.forest.rank_parent hqp
    rw [hk] at this
    omega
  · rw [if_neg hk] at hb'
    exact (hm k b' hb' q).mpr ⟨Forest.mem_chain_of_parent hp hq, hqp⟩

/-- What a step keeps that takes a block off, all the way down to a fork. -/
theorem keeps_clear {M : BlockTree → Uint256 → Prop}
    (hpop : ∀ {t h p}, M t h → t.forest.parent h = some p → M (setPrevNext t h none) p)
    {vDisconnect : List Uint256} {f : Uint256} (hr : t.forest.Rises vDisconnect f) (hm : M t (vDisconnect.headD f)) :
    M (vDisconnect.foldl (fun t h => setPrevNext t h none) t) f ∧
      (vDisconnect.foldl (fun t h => setPrevNext t h none) t).forest = t.forest := by
  induction vDisconnect generalizing t with
  | nil => exact ⟨hm, rfl⟩
  | cons h vDisconnect ih =>
    obtain ⟨hp, hr⟩ := hr
    obtain ⟨hm', hf⟩ := ih (t := setPrevNext t h none) (by rw [forest_setPrevNext]; exact hr) (hpop hm hp)
    exact ⟨hm', by rw [List.foldl_cons, hf, forest_setPrevNext]⟩

/-- What a step keeps that puts a block on top, all the way up a path. -/
theorem keeps_mark {M : BlockTree → Uint256 → Prop}
    (hpush : ∀ {t h p}, M t p → t.forest.parent h = some p → M (setPrevNext t h (some h)) h)
    {vConnect : List Uint256} {f : Uint256} (hp : t.forest.Path f vConnect) (hm : M t f) :
    M (vConnect.foldl (fun t h => setPrevNext t h (some h)) t) (vConnect.getLastD f) := by
  induction vConnect generalizing t f with
  | nil => exact hm
  | cons h vConnect ih =>
    rw [List.getLastD_cons]
    exact ih (t := setPrevNext t h (some h)) (by rw [forest_setPrevNext]; exact hp.2) (hpush hm hp.1)

/-- After a reorganization the pointers mark the new branch. -/
theorem MarksTo.relink {vDisconnect vConnect : List Uint256} {f : Uint256} (hm : t.MarksTo (vDisconnect.headD f))
    (hr : t.forest.Rises vDisconnect f) (hp : t.forest.Path f vConnect) :
    (relink vDisconnect vConnect t).MarksTo (vConnect.getLastD f) := by
  obtain ⟨hm', hf⟩ := keeps_clear MarksTo.pop hr hm
  exact keeps_mark MarksTo.push (by rw [hf]; exact hp) hm'

theorem MarksWithin.relink {vDisconnect vConnect : List Uint256} {f : Uint256} (hm : t.MarksWithin (vDisconnect.headD f))
    (hr : t.forest.Rises vDisconnect f) (hp : t.forest.Path f vConnect) :
    (Pinkcoin.relink vDisconnect vConnect t).MarksWithin (vConnect.getLastD f) := by
  obtain ⟨hm', hf⟩ := keeps_clear MarksWithin.pop hr hm
  exact keeps_mark MarksWithin.push (by rw [hf]; exact hp) hm'

/-- The trees differ in their `pnext` pointers only. -/
def SameButPnext (t t' : BlockTree) : Prop := ∀ h, ∃ v, t'.find h = (t.find h).map fun b => { b with pnext := v }

theorem SameButPnext.refl : SameButPnext t t := by
  intro h
  cases hb : t.find h with
  | none => exact ⟨none, rfl⟩
  | some b => exact ⟨b.pnext, rfl⟩

theorem SameButPnext.trans {t' t'' : BlockTree} (h : SameButPnext t t') (h' : SameButPnext t' t'') : SameButPnext t t'' := by
  intro k
  obtain ⟨v, hv⟩ := h k
  obtain ⟨v', hv'⟩ := h' k
  exact ⟨v', by rw [hv', hv, Option.map_map]; rfl⟩

theorem sameButPnext_setPrevNext (h : Uint256) (pnext : Option Uint256) : SameButPnext t (setPrevNext t h pnext) := by
  unfold setPrevNext
  split
  next => exact .refl
  next p hp =>
    intro k
    rw [find_setPnext]
    by_cases hk : k = p
    · exact ⟨pnext, by rw [if_pos hk]⟩
    · rw [if_neg hk]
      exact SameButPnext.refl k

theorem sameButPnext_foldl (l : List Uint256) (pnext : Uint256 → Option Uint256) :
    SameButPnext t (l.foldl (fun t h => setPrevNext t h (pnext h)) t) := by
  induction l generalizing t with
  | nil => exact .refl
  | cons h l ih => exact (sameButPnext_setPrevNext h (pnext h)).trans ih

theorem sameButPnext_relink (vDisconnect vConnect : List Uint256) :
    SameButPnext t (Pinkcoin.relink vDisconnect vConnect t) :=
  (sameButPnext_foldl vDisconnect fun _ => none).trans (sameButPnext_foldl vConnect some)

theorem SameButPnext.grows {t' : BlockTree} (h : SameButPnext t t') : Grows t t' := by
  intro k b hb
  obtain ⟨v, hv⟩ := h k
  exact ⟨{ b with pnext := v }, by rw [hv, hb]; rfl, rfl⟩

theorem SameButPnext.back {t' : BlockTree} (h : SameButPnext t t') {k : Uint256} {b' : CBlockIndex}
    (hb' : t'.find k = some b') : ∃ b v, t.find k = some b ∧ b' = { b with pnext := v } := by
  obtain ⟨v, hv⟩ := h k
  rw [hv, Option.map_eq_some_iff] at hb'
  obtain ⟨b, hb, rfl⟩ := hb'
  exact ⟨b, v, hb, rfl⟩

/-- With the pointers within the chain to `pindexBest`, a block with
`IsInMainChain` is on it. -/
theorem MarksWithin.mem_chain {s : Node} {tip : Uint256} (hm : s.mapBlockIndex.MarksWithin tip)
    (hb : s.pindexBest = some tip) {h : Uint256} (hmain : s.isInMainChain h) : h ∈ s.mapBlockIndex.chain tip := by
  rcases hmain with hnext | hbest
  · obtain ⟨q, hq⟩ := Option.isSome_iff_exists.mp hnext
    obtain ⟨b, hfind, hq⟩ := Option.bind_eq_some_iff.mp hq
    obtain ⟨hmem, hqp⟩ := hm h b hfind q hq
    exact Forest.parent_mem_chain hmem hqp
  · obtain rfl := Option.some.inj (hb.symm.trans hbest)
    exact Forest.self_mem_chain _

/-- With the pointers along the chain to `pindexBest`, `IsInMainChain` means
to be on it. -/
theorem MarksTo.isInMainChain {s : Node} {tip : Uint256} (hm : s.mapBlockIndex.MarksTo tip) (hb : s.pindexBest = some tip)
    {h : Uint256} (hh : s.mapBlockIndex.Has h) : s.isInMainChain h ↔ h ∈ s.mapBlockIndex.chain tip := by
  obtain ⟨b, hfind⟩ := Option.ne_none_iff_exists'.mp hh
  refine ⟨hm.within.mem_chain hb, fun hmem => ?_⟩
  rw [Node.isInMainChain, hfind, hb, Option.bind_some, Option.some.injEq, Option.isSome_iff_exists]
  by_cases hne : h = tip
  · exact .inr hne.symm
  · obtain ⟨q, hq, hqp⟩ := Forest.exists_child hmem hne
    exact .inl ⟨q, (hm h b hfind q).mpr ⟨hq, hqp⟩⟩

end BlockTree

/-! ## What a batch leaves behind -/

/-- The transactions read as they did before the best hash was committed. -/
@[simp] theorem book_commit_best (txdb : CTxDB) (h : Uint256) :
    CTxDB.book (BatchStore.Store.commit (txdb.writeHashBestChain h)) = txdb.book := by
  funext k
  simp only [CTxDB.book, CTxDB.readTxIndex, BatchStore.read_commit]
  exact congrArg _ (CTxDB.readTxIndex_writeHashBestChain h k)

@[simp] theorem best_commit_best (txdb : CTxDB) (h : Uint256) :
    CTxDB.readHashBestChain (BatchStore.Store.commit (txdb.writeHashBestChain h)) = some h := by
  rw [CTxDB.readHashBestChain, BatchStore.read_commit]
  exact CTxDB.readHashBestChain_writeHashBestChain h

theorem txnCommit_ok {env : Env} {e : Reject} {s s' : Node} {u : Unit} :
    txnCommit env e s = .ok u s' ↔ env.commitOk s.txdb.ops ∧ s' = s.withTxdb s.txdb.commit := by
  simp only [txnCommit, bind_ok, get_ok, set_ok, rejectIf_ok]
  by_cases h : env.commitOk s.txdb.ops <;> simp [Node.commit, h]

theorem txnCommit_error {env : Env} {e e' : Reject} {s s' : Node} (h : txnCommit env e s = .error e' s') :
    s' = s.withTxdb s.txdb.txnAbort := by
  simp only [txnCommit, bind_error, get_error, get_ok, set_error, set_ok, rejectIf_error] at h
  by_cases hc : env.commitOk s.txdb.ops
  · simp [Node.commit, hc] at h
  · exact (by simpa [Node.commit, hc] using h : e' = e ∧ s' = s.withTxdb s.txdb.txnAbort).2

namespace Node

/-- After a batch is dropped the node differs by what the batch does not
hold: the wallets, and the supply of records that are not in `S`. -/
structure Undone (S : Uint256 → Prop) (s s' : Node) : Prop where
  inside : Inside S s s'
  txdb : s'.txdb = s.txdb

variable {P : Params} {T : CTransaction → Prop} {env : Env} {S : Uint256 → Prop} {s s₁ s' : Node}

/-- The steps inside a batch move no pointer. -/
theorem Inside.marksTo {tip : Uint256} (hi : Inside S s s') (hm : s.mapBlockIndex.MarksTo tip)
    (hh : s.mapBlockIndex.Has tip) : s'.mapBlockIndex.MarksTo tip := by
  intro h b' hb' q
  have hchain := hi.grows.tree.chain_eq hh
  have hq : ∀ k, q ∈ s.mapBlockIndex.chain tip →
      (s'.mapBlockIndex.forest.parent q = some k ↔ s.mapBlockIndex.forest.parent q = some k) := fun k hq => by
    rw [hi.grows.tree.parent_eq (BlockTree.has_of_mem_chain hh hq)]
  cases hb : s.mapBlockIndex.find h with
  | none => simp [hi.new h hb] at hb'
  | some b =>
    obtain ⟨m, n, hb''⟩ := hi.tree h b hb
    obtain rfl := Option.some.inj (hb''.symm.trans hb')
    rw [hchain]
    exact (hm h b hb q).trans (and_congr_right fun hmem => (hq h hmem).symm)

theorem Inside.marksWithin {tip : Uint256} (hi : Inside S s s') (hm : s.mapBlockIndex.MarksWithin tip)
    (hh : s.mapBlockIndex.Has tip) : s'.mapBlockIndex.MarksWithin tip := by
  intro h b' hb' q hq
  rw [hi.grows.tree.chain_eq hh]
  cases hb : s.mapBlockIndex.find h with
  | none => simp [hi.new h hb] at hb'
  | some b =>
    obtain ⟨m, n, hb''⟩ := hi.tree h b hb
    obtain rfl := Option.some.inj (hb''.symm.trans hb')
    obtain ⟨hmem, hqp⟩ := hm h b hb q hq
    exact ⟨hmem, hi.grows.tree.parent_mono q h hqp⟩

theorem Inside.open_base (hi : Inside S (s.withTxdb s.txdb.txnBegin) s₁) : BatchStore.Open s.txdb.base s₁.txdb :=
  hi.txdb.batch s.txdb.base ⟨rfl, rfl⟩

/-- The steps inside a batch are undone by closing it over the old base. -/
theorem undone_of_inside (hb : s.txdb.batch = none) (hi : Inside S (s.withTxdb s.txdb.txnBegin) s₁) {db : CTxDB}
    (hdb : db.base = s.txdb.base) : Undone S s (s₁.withTxdb db.txnAbort) := by
  have htxdb : db.txnAbort = s.txdb := by
    rw [CTxDB.txnAbort, BatchStore.Store.abort, hdb]
    exact congrArg (BatchStore.Store.mk s.txdb.base) hb.symm
  refine ⟨⟨?_, hi.tree, hi.new, hi.kept, ?_⟩, htxdb⟩
  · rw [hi.rest]
    rfl
  · rw [Node.withTxdb_txdb, htxdb]
    exact .refl

end Node

open Node (Inside Undone)

variable {P : Params} {T : CTransaction → Prop} {env : Env} {S : Uint256 → Prop} {s s' : Node}

/-! ## One block attached -/

theorem attachBlock_ok {block : CBlock} {h : Uint256} {u : Unit} :
    attachBlock P env block h s = .ok u s' ↔ ∃ pindex b' s₁, s.mapBlockIndex.find h = some pindex ∧
      block.connectBlock P env pindex false s = .ok b' s₁ ∧
      s' = s₁.withTxdb (s₁.txdb.writeHashBestChain (block.getHash P)) := by
  simp only [attachBlock, modifyTxdb, bind_ok, deref_ok, modify_ok]
  constructor
  · rintro ⟨pindex, _, ⟨hf, rfl⟩, b', s₁, hc, rfl⟩
    exact ⟨pindex, b', s₁, hf, hc, rfl⟩
  · rintro ⟨pindex, b', s₁, hf, hc, rfl⟩
    exact ⟨pindex, s, ⟨hf, rfl⟩, b', s₁, hc, rfl⟩

theorem attachBlock_error {block : CBlock} {h : Uint256} {e : Reject}
    (hrun : attachBlock P env block h s = .error e s') : Inside (· ≠ h) s s' := by
  simp only [attachBlock, modifyTxdb, bind_error, deref_ok, modify_error] at hrun
  rcases hrun with hd | ⟨pindex, _, ⟨hf, rfl⟩, hc | ⟨_, _, _, hm⟩⟩
  · exact (keeps_deref h).error hd
  · exact (keeps_connectBlock block pindex (by simpa using BlockTree.find_hash hf)).error hc
  · exact hm.elim

/-- What attaching a block does: it is connected, the batch is committed with
its hash, its predecessor points to it, and its transactions leave the pool. -/
theorem setBestChainInner_ok {block : CBlock} {h : Uint256} {u : Unit} :
    setBestChainInner P env block h s = .ok u s' ↔ ∃ pindex b' s₁, s.mapBlockIndex.find h = some pindex ∧
      block.connectBlock P env pindex false s = .ok b' s₁ ∧
      env.commitOk (s₁.txdb.writeHashBestChain (block.getHash P)).ops ∧
      s' = { s₁ with
        txdb := (s₁.txdb.writeHashBestChain (block.getHash P)).commit
        mapBlockIndex := setPrevNext s₁.mapBlockIndex h (some h)
        mempool := block.vtx.foldl (fun pool tx => pool.remove P tx false) s₁.mempool } := by
  simp only [setBestChainInner, bind_ok, attempt_ok]
  constructor
  · rintro ⟨_, s₂, ⟨rfl, _, ha⟩ | ⟨rfl, _⟩, hrest⟩
    · obtain ⟨pindex, b', s₁, hf, hc, rfl⟩ := attachBlock_ok.mp ha
      simp only [if_pos, bind_ok, txnCommit_ok, modify_ok] at hrest
      obtain ⟨_, _, ⟨hok, rfl⟩, rfl⟩ := hrest
      exact ⟨pindex, b', s₁, hf, hc, hok, rfl⟩
    · simp at hrest
  · rintro ⟨pindex, b', s₁, hf, hc, hok, rfl⟩
    refine ⟨true, _, .inl ⟨rfl, (), attachBlock_ok.mpr ⟨pindex, b', s₁, hf, hc, rfl⟩⟩, ?_⟩
    simp only [if_pos, bind_ok, txnCommit_ok, modify_ok]
    exact ⟨(), _, ⟨hok, rfl⟩, rfl⟩

theorem setBestChainInner_error {block : CBlock} {h : Uint256} {e : Reject} (hb : s.txdb.batch = none)
    (hrun : setBestChainInner P env block h (s.withTxdb s.txdb.txnBegin) = .error e s') : Undone (· ≠ h) s s' := by
  simp only [setBestChainInner, bind_error, attempt_error, attempt_ok, false_or] at hrun
  obtain ⟨_, s₂, ⟨rfl, _, ha⟩ | ⟨rfl, _, ha⟩, hrest⟩ := hrun
  · obtain ⟨pindex, b', s₁, hf, hc, rfl⟩ := attachBlock_ok.mp ha
    simp only [if_pos, bind_error, modify_error, and_false, exists_false, or_false] at hrest
    have hi := (keeps_connectBlock (S := (· ≠ h)) block pindex (by simpa using BlockTree.find_hash hf)).ok hc
    rw [txnCommit_error hrest]
    exact Node.undone_of_inside hb hi (hi.open_base.write _ _).1
  · simp only [Bool.false_eq_true, if_false, bind_error, modifyTxdb, modify_error, modify_ok, throw_error, false_or] at hrest
    obtain ⟨_, _, rfl, -, rfl⟩ := hrest
    have hi := attachBlock_error ha
    exact Node.undone_of_inside hb hi hi.open_base.1

/-! ## A reorganization -/

theorem switchBranch_ok {vDisconnect vConnect : List Uint256} {n : Uint256} {vResurrect vDelete : List CTransaction} :
    switchBranch P env vDisconnect vConnect n s = .ok (vResurrect, vDelete) s' ↔ ∃ s₁ s₂,
      disconnectLoop P env vDisconnect [] s = .ok vResurrect s₁ ∧ connectLoop P env vConnect [] s₁ = .ok vDelete s₂ ∧
      env.commitOk (s₂.txdb.writeHashBestChain n).ops ∧ s' = s₂.withTxdb (s₂.txdb.writeHashBestChain n).commit := by
  simp only [switchBranch, modifyTxdb, bind_ok, modify_ok, txnCommit_ok, pure_ok, Prod.mk.injEq]
  constructor
  · rintro ⟨_, s₁, hd, _, s₂, hc, _, _, rfl, _, _, ⟨hok, rfl⟩, ⟨rfl, rfl⟩, rfl⟩
    exact ⟨s₁, s₂, hd, hc, hok, rfl⟩
  · rintro ⟨s₁, s₂, hd, hc, hok, rfl⟩
    exact ⟨vResurrect, s₁, hd, vDelete, s₂, hc, (), _, rfl, (), _, ⟨hok, rfl⟩, ⟨rfl, rfl⟩, rfl⟩

theorem switchBranch_error {vDisconnect vConnect : List Uint256} {n : Uint256} {e : Reject}
    (hS : ∀ h ∈ vConnect, ¬ S h) (hb : s.txdb.batch = none)
    (hrun : switchBranch P env vDisconnect vConnect n (s.withTxdb s.txdb.txnBegin) = .error e s') :
    Undone S s (s'.withTxdb s'.txdb.txnAbort) := by
  simp only [switchBranch, modifyTxdb, bind_error, modify_error, modify_ok, pure_error] at hrun
  rcases hrun with hd | ⟨vResurrect, s₁, hd, hc | ⟨vDelete, s₂, hc, h | ⟨_, _, rfl, ht | ⟨_, _, _, h⟩⟩⟩⟩
  · have hi := (keeps_disconnectLoop (S := S) vDisconnect []).error hd
    exact Node.undone_of_inside hb hi hi.open_base.1
  · have hi := ((keeps_disconnectLoop (S := S) vDisconnect []).ok hd).trans ((keeps_connectLoop vConnect [] hS).error hc)
    exact Node.undone_of_inside hb hi hi.open_base.1
  · exact h.elim
  · have hi := ((keeps_disconnectLoop (S := S) vDisconnect []).ok hd).trans ((keeps_connectLoop vConnect [] hS).ok hc)
    rw [txnCommit_error ht]
    exact Node.undone_of_inside hb hi (hi.open_base.write _ _).1
  · exact h.elim

namespace Node

/-- Only the pool and the wallets differ. -/
def Loose (s s' : Node) : Prop := s' = { s with mempool := s'.mempool, wallets := s'.wallets }

theorem Loose.refl : Loose s s := rfl

theorem Loose.trans {s'' : Node} (h : Loose s s') (h' : Loose s' s'') : Loose s s'' := by
  rw [Loose, h', h]

instance : Std.Refl Loose := ⟨fun _ => .refl⟩
instance : IsTrans Node Loose := ⟨fun _ _ _ h h' => h.trans h'⟩

end Node

open Node (Loose)

theorem acceptToMemoryPool_of_error {s : Node} {tx : CTransaction} {e : AcceptError} (h : acceptChecks P env s tx = .error e) :
    acceptToMemoryPool P env tx s = .error e.reject s := by
  simp only [acceptToMemoryPool, bind, EStateM.bind, get_run, h]
  rfl

theorem acceptToMemoryPool_of_ok {s : Node} {tx : CTransaction} {u : Unit} (h : acceptChecks P env s tx = .ok u) :
    acceptToMemoryPool P env tx s =
      syncWithWallets P env tx none true true { s with mempool := s.mempool.addUnchecked (tx.getHash P) tx } := by
  simp only [acceptToMemoryPool, bind, EStateM.bind, get_run, h]
  rfl

theorem keeps_acceptToMemoryPool (tx : CTransaction) : Keeps Loose (acceptToMemoryPool P env tx) := by
  refine keeps_bind keeps_get fun s => ?_
  cases acceptChecks P env s tx with
  | error e => exact keeps_throw _
  | ok u => exact keeps_bind (keeps_modify fun _ => rfl) fun _ => keeps_modify fun _ => rfl

/-- The transactions to resurrect, offered to the pool one by one. -/
def resurrect (P : Params) (env : Env) (vResurrect : List CTransaction) : NodeM Unit :=
  forM vResurrect fun tx => do
    let _ ← attempt (acceptToMemoryPool P env tx)
    pure ()

variable (P env) in
theorem resurrect_run (vResurrect : List CTransaction) (s : Node) :
    ∃ s', resurrect P env vResurrect s = .ok () s' ∧ Loose s s' := by
  obtain ⟨s', hs'⟩ := exists_forM_ok (f := fun tx => do
    let _ ← attempt (acceptToMemoryPool P env tx)
    pure ()) (fun tx s => by
      obtain ⟨b, s', hs'⟩ := exists_attempt_ok (acceptToMemoryPool P env tx) s
      exact ⟨s', bind_ok.mpr ⟨b, s', hs', rfl⟩⟩) vResurrect s
  refine ⟨s', hs', (?_ : Keeps Loose (resurrect P env vResurrect)).ok hs'⟩
  exact keeps_forM fun tx _ => keeps_bind (keeps_attempt (keeps_acceptToMemoryPool tx)) fun _ => keeps_pure _

variable (P env) in
/-- What `Reorganize` does after its commit: the pointers move, the
resurrected transactions are offered to the pool, and those of the new branch
leave it with what conflicts with them. It does not fail. -/
theorem settleBranch_run (vDisconnect vConnect : List Uint256) (vResurrect vDelete : List CTransaction) (s : Node) :
    ∃ s₁, resurrect P env vResurrect { s with mapBlockIndex := relink vDisconnect vConnect s.mapBlockIndex } = .ok () s₁ ∧
      Loose { s with mapBlockIndex := relink vDisconnect vConnect s.mapBlockIndex } s₁ ∧
      settleBranch P env vDisconnect vConnect vResurrect vDelete s =
        .ok () { s₁ with mempool := vDelete.foldl (fun pool tx => dropFromPool P tx pool) s₁.mempool } := by
  obtain ⟨s₁, hs₁, hl⟩ := resurrect_run P env vResurrect
    { s with mapBlockIndex := relink vDisconnect vConnect s.mapBlockIndex }
  refine ⟨s₁, hs₁, hl, ?_⟩
  simp only [settleBranch, bind_ok, modify_ok]
  exact ⟨(), _, rfl, (), s₁, hs₁, rfl⟩

theorem reorganize_ok {n : Uint256} {u : Unit} :
    reorganize P env n s = .ok u s' ↔ ∃ pb f vResurrect vDelete s₁ s₂, s.pindexBest = some pb ∧ findFork s pb n = some f ∧
      switchBranch P env (s.mapBlockIndex.forest.below pb f) (s.mapBlockIndex.forest.below n f).reverse n s =
        .ok (vResurrect, vDelete) s₁ ∧
      settleBranch P env (s.mapBlockIndex.forest.below pb f) (s.mapBlockIndex.forest.below n f).reverse
        vResurrect vDelete s₁ = .ok () s₂ ∧ s' = s₂ := by
  simp only [reorganize, bind_ok, get_ok]
  constructor
  · rintro ⟨_, s, ⟨rfl, rfl⟩, h⟩
    cases hb : s.pindexBest with
    | none => simp [hb] at h
    | some pb =>
      simp only [hb] at h
      cases hf : findFork s pb n with
      | none => simp [hf] at h
      | some f =>
        simp only [hf, bind_ok] at h
        obtain ⟨⟨vResurrect, vDelete⟩, s₁, hsw, hst⟩ := h
        exact ⟨pb, f, vResurrect, vDelete, s₁, s', rfl, hf, hsw, hst, rfl⟩
  · rintro ⟨pb, f, vResurrect, vDelete, s₁, s₂, hb, hf, hsw, hst, rfl⟩
    refine ⟨s, s, ⟨rfl, rfl⟩, ?_⟩
    simp only [hb, hf, bind_ok]
    exact ⟨(vResurrect, vDelete), s₁, hsw, hst⟩

theorem reorganize_error {n : Uint256} {e : Reject} (hb : s.txdb.batch = none)
    (hS : ∀ pb f, s.pindexBest = some pb → findFork s pb n = some f → ∀ h ∈ s.mapBlockIndex.forest.below n f, ¬ S h)
    (hrun : reorganize P env n (s.withTxdb s.txdb.txnBegin) = .error e s') :
    Undone S s (s'.withTxdb s'.txdb.txnAbort) := by
  simp only [reorganize, bind_error, get_error, get_ok, false_or] at hrun
  obtain ⟨_, _, ⟨rfl, rfl⟩, hrun⟩ := hrun
  have hrefl : Inside S (s.withTxdb s.txdb.txnBegin) (s.withTxdb s.txdb.txnBegin) := .refl
  cases hpb : s.pindexBest with
  | none =>
    simp only [Node.withTxdb_pindexBest, hpb, throw_error] at hrun
    rw [hrun.2]
    exact Node.undone_of_inside hb hrefl rfl
  | some pb =>
    simp only [Node.withTxdb_pindexBest, hpb] at hrun
    cases hf : findFork s pb n with
    | none =>
      simp only [show findFork (s.withTxdb s.txdb.txnBegin) pb n = none from hf, throw_error] at hrun
      rw [hrun.2]
      exact Node.undone_of_inside hb hrefl rfl
    | some f =>
      simp only [show findFork (s.withTxdb s.txdb.txnBegin) pb n = some f from hf, bind_error] at hrun
      rcases hrun with hsw | ⟨⟨vResurrect, vDelete⟩, s₁, -, hst⟩
      · exact switchBranch_error (fun h hh => hS pb f hpb hf h (List.mem_reverse.mp hh)) hb hsw
      · obtain ⟨_, _, _, hok⟩ := settleBranch_run P env (s.mapBlockIndex.forest.below pb f)
          (s.mapBlockIndex.forest.below n f).reverse vResurrect vDelete s₁
        exact absurd (hok.symm.trans hst) (by simp)

/-! ## What SetBestChain leaves alone -/

namespace Node

/-- What a change of the best chain leaves alone, however it ends: the block
files, the records' cores, the genesis block, and all that has to do with
stake and checkpoints. -/
structure Steady (s s' : Node) : Prop where
  rest : s' = { s with
    txdb := s'.txdb
    mapBlockIndex := s'.mapBlockIndex
    pindexGenesisBlock := s'.pindexGenesisBlock
    pindexBest := s'.pindexBest
    hashBestChain := s'.hashBestChain
    nBestHeight := s'.nBestHeight
    nBestChainTrust := s'.nBestChainTrust
    mempool := s'.mempool
    wallets := s'.wallets }
  tree : s.mapBlockIndex.Grows s'.mapBlockIndex
  new : ∀ h, s.mapBlockIndex.find h = none → s'.mapBlockIndex.find h = none
  genesis : s.pindexGenesisBlock ≠ none → s'.pindexGenesisBlock = s.pindexGenesisBlock
  sync : BatchStore.Untouched .hashSyncCheckpoint s.txdb s'.txdb

theorem Steady.refl : Steady s s := ⟨rfl, .refl, fun _ h => h, fun _ => rfl, .refl⟩

theorem Steady.trans {s'' : Node} (h : Steady s s') (h' : Steady s' s'') : Steady s s'' :=
  ⟨by rw [h'.rest, h.rest], h.tree.trans h'.tree, fun k hk => h'.new k (h.new k hk),
    fun hg => (h'.genesis (by rw [h.genesis hg]; exact hg)).trans (h.genesis hg), h.sync.trans h'.sync⟩

instance : Std.Refl Steady := ⟨fun _ => .refl⟩
instance : IsTrans Node Steady := ⟨fun _ _ _ h h' => h.trans h'⟩

theorem Steady.disk (h : Steady s s') : s'.disk = s.disk := by rw [h.rest]

theorem Inside.steady (h : Inside S s s') : Steady s s' :=
  ⟨by rw [h.rest], h.grows.tree, h.new, fun _ => by rw [h.rest], h.txdb.sync⟩

theorem Loose.steady (h : Loose s s') : Steady s s' := by
  rw [h]
  exact ⟨rfl, .refl, fun _ h => h, fun _ => rfl, .refl⟩

theorem steady_withTxdb {db : CTxDB} (h : BatchStore.Untouched .hashSyncCheckpoint s.txdb db) :
    Steady s (s.withTxdb db) := ⟨rfl, .refl, fun _ h => h, fun _ => rfl, h⟩

/-- New pointers, and a new pool. -/
theorem steady_pnext {tree : BlockTree} (h : BlockTree.SameButPnext s.mapBlockIndex tree) (mempool : CTxMemPool) :
    Steady s { s with mapBlockIndex := tree, mempool := mempool } := by
  refine ⟨rfl, h.grows, fun k hk => ?_, fun _ => rfl, .refl⟩
  obtain ⟨v, hv⟩ := h k
  rw [hv, hk, Option.map_none]

end Node

open Node (Steady)

theorem keeps_steady_txdb {f : CTxDB → CTxDB} (h : ∀ db, BatchStore.Untouched .hashSyncCheckpoint db (f db)) :
    Keeps Steady (modifyTxdb f) := keeps_modify fun s => Node.steady_withTxdb (h s.txdb)

theorem keeps_txnCommit (e : Reject) : Keeps Steady (txnCommit env e) := by
  intro s
  cases h : txnCommit env e s with
  | ok u s' =>
    obtain ⟨-, rfl⟩ := txnCommit_ok.mp h
    exact Node.steady_withTxdb .commit
  | error e' s' =>
    rw [endState_error, txnCommit_error h]
    exact Node.steady_withTxdb .abort

theorem keeps_attachBlock (block : CBlock) (h : Uint256) : Keeps Steady (attachBlock P env block h) := by
  refine keeps_bind_of ((keeps_deref (S := fun _ => False) h).mono fun _ _ => Inside.steady) fun s pindex t _ => ?_
  have hkeep : Keeps Steady (do
      let _ ← block.connectBlock P env pindex false
      modifyTxdb fun txdb => txdb.writeHashBestChain (block.getHash P)) :=
    keeps_bind ((keeps_connectBlock (S := fun _ => False) block pindex (by simp)).mono fun _ _ => Inside.steady)
      fun _ => keeps_steady_txdb fun db => (CTxDB.quiet_writeHashBestChain _).sync
  exact hkeep t

theorem keeps_setBestChainInner (block : CBlock) (h : Uint256) : Keeps Steady (setBestChainInner P env block h) := by
  refine keeps_bind (keeps_attempt (keeps_attachBlock block h)) fun fConnected => ?_
  refine keeps_ite (keeps_bind (keeps_txnCommit _) fun _ => ?_) ?_
  · exact keeps_modify fun s => Node.steady_pnext (BlockTree.sameButPnext_setPrevNext _ _) _
  · exact keeps_bind (keeps_steady_txdb fun _ => .abort) fun _ => keeps_throw _

theorem keeps_switchBranch (vDisconnect vConnect : List Uint256) (n : Uint256) :
    Keeps Steady (switchBranch P env vDisconnect vConnect n) :=
  keeps_bind ((keeps_disconnectLoop (S := fun _ => False) vDisconnect []).mono fun _ _ => Inside.steady) fun _ =>
    keeps_bind ((keeps_connectLoop (S := fun _ => False) vConnect [] (by simp)).mono fun _ _ => Inside.steady) fun _ =>
      keeps_bind (keeps_steady_txdb fun _ => (CTxDB.quiet_writeHashBestChain _).sync) fun _ =>
        keeps_bind (keeps_txnCommit _) fun _ => keeps_pure _

theorem keeps_settleBranch (vDisconnect vConnect : List Uint256) (vResurrect vDelete : List CTransaction) :
    Keeps Steady (settleBranch P env vDisconnect vConnect vResurrect vDelete) := by
  intro s
  obtain ⟨s₁, -, hloose, hrun⟩ := settleBranch_run P env vDisconnect vConnect vResurrect vDelete s
  rw [hrun]
  have hpnext := Node.steady_pnext (s := s) (BlockTree.sameButPnext_relink vDisconnect vConnect) s.mempool
  exact (hpnext.trans hloose.steady).trans (Node.steady_pnext .refl _)

theorem keeps_reorganize (n : Uint256) : Keeps Steady (reorganize P env n) := by
  refine keeps_bind keeps_get fun s => ?_
  split
  · exact keeps_throw _
  · split
    · exact keeps_throw _
    · exact keeps_bind (keeps_switchBranch _ _ _) fun _ => keeps_settleBranch _ _ _ _

theorem keeps_connectSecondary (secondary : List Uint256) : Keeps Steady (connectSecondary P env secondary) := by
  induction secondary with
  | nil => exact keeps_pure _
  | cons h rest ih =>
    refine keeps_bind keeps_get fun s => ?_
    split
    · exact keeps_throw _
    · split
      · exact keeps_pure _
      · exact keeps_bind (keeps_steady_txdb fun _ => .begin) fun _ =>
          keeps_bind (keeps_attempt (keeps_setBestChainInner _ _)) fun _ => keeps_ite ih (keeps_pure _)

theorem keeps_switchChain (h : Uint256) : Keeps Steady (switchChain P env h) := by
  refine keeps_bind keeps_get fun s => ?_
  split
  · exact keeps_throw _
  · refine keeps_bind (keeps_attempt (keeps_reorganize _)) fun _ => keeps_ite (keeps_connectSecondary _) ?_
    exact keeps_bind (keeps_steady_txdb fun _ => .abort) fun _ => keeps_throw _

/-- The genesis block is set where there is none. -/
theorem steady_setGenesis {hash h : Uint256} {e : Reject} (hg : s.pindexGenesisBlock = none) :
    Steady s (endState ((do
      modifyTxdb fun txdb => txdb.writeHashBestChain hash
      txnCommit env e
      modify fun s => { s with pindexGenesisBlock := some h } : NodeM Unit) s)) := by
  have hwrite : BatchStore.Untouched .hashSyncCheckpoint s.txdb (s.txdb.writeHashBestChain hash) :=
    (CTxDB.quiet_writeHashBestChain hash).sync
  cases hrun : (do
      modifyTxdb fun txdb => txdb.writeHashBestChain hash
      txnCommit env e
      modify fun s => { s with pindexGenesisBlock := some h } : NodeM Unit) s with
  | ok u s' =>
    simp only [modifyTxdb, bind_ok, modify_ok, txnCommit_ok] at hrun
    obtain ⟨_, _, rfl, _, _, ⟨-, rfl⟩, rfl⟩ := hrun
    exact ⟨rfl, .refl, fun _ h => h, fun hne => absurd hg hne, hwrite.trans .commit⟩
  | error e' s' =>
    simp only [modifyTxdb, bind_error, modify_error, modify_ok, and_false, exists_false, or_false, false_or] at hrun
    obtain ⟨_, _, rfl, hcommit⟩ := hrun
    rw [endState_error, txnCommit_error hcommit]
    exact Node.steady_withTxdb (hwrite.trans .abort)

theorem keeps_moveChain (block : CBlock) (h : Uint256) : Keeps Steady (moveChain P env block h) := by
  refine keeps_bind_of keeps_get fun s s₁ t hget => ?_
  obtain ⟨rfl, rfl⟩ := get_ok.mp hget
  split
  next hg => exact steady_setGenesis hg.1
  next => exact keeps_ite (keeps_withError _ (keeps_setBestChainInner _ _)) (keeps_switchChain h) _

theorem keeps_setBestChain (block : CBlock) (h : Uint256) : Keeps Steady (setBestChain P env block h) := by
  refine keeps_bind (keeps_steady_txdb fun _ => .begin) fun _ => keeps_bind (keeps_moveChain block h) fun _ => ?_
  refine keeps_bind ((keeps_deref (S := fun _ => False) h).mono fun _ _ => Inside.steady) fun _ => ?_
  exact keeps_modify fun _ => ⟨rfl, .refl, fun _ h => h, fun _ => rfl, .refl⟩

/-! ## What SetBestChain does -/

/-- The node is at `t`: the block is in the index, no batch is open, and `t` is
what the node holds for its best block. -/
structure Node.AtTip (s : Node) (t : Uint256) : Prop where
  batch : s.txdb.batch = none
  genesis : s.pindexGenesisBlock ≠ none
  pindexBest : s.pindexBest = some t
  hashBestChain : s.hashBestChain = t
  nBestHeight : ∃ b, s.mapBlockIndex.find t = some b ∧ s.nBestHeight = b.nHeight

open Node (AtTip)

theorem Node.AtTip.best {t : Uint256} (ht : AtTip s t) : ∃ b, s.best = some b ∧ s.mapBlockIndex.find t = some b := by
  obtain ⟨b, hb, -⟩ := ht.nBestHeight
  exact ⟨b, by simp [Node.best, ht.pindexBest, hb], hb⟩

/-- How the node comes from one block to another: the block is attached to
the best one, or the chain is reorganized to the first block of the new
branch with enough trust, and the blocks after it are attached in turn. -/
inductive Moved (P : Params) (env : Env) (block : CBlock) (h t : Uint256) (s s' : Node) : Prop
  | extend (hprev : block.hashPrevBlock = t)
      (hrun : setBestChainInner P env block h (s.withTxdb s.txdb.txnBegin) = .ok () s')
  | switch (hprev : block.hashPrevBlock ≠ t) (best : CBlockIndex) (i : Uint256) (secondary : List Uint256) (s₁ : Node)
      (hbest : s.best = some best) (hpost : postpone best.nChainTrust (s.mapBlockIndex.branch h) [] = some (i, secondary))
      (hrun : reorganize P env i (s.withTxdb s.txdb.txnBegin) = .ok () s₁)
      (hrest : connectSecondary P env secondary s₁ = .ok () s')

variable {block : CBlock} {h t : Uint256}

theorem moveChain_ok {u : Unit} (ht : AtTip s t)
    (hrun : moveChain P env block h (s.withTxdb s.txdb.txnBegin) = .ok u s') : Moved P env block h t s s' := by
  simp only [moveChain, bind_ok, get_ok] at hrun
  obtain ⟨_, _, ⟨rfl, rfl⟩, hrun⟩ := hrun
  rw [if_neg fun hg => ht.genesis hg.1] at hrun
  split at hrun
  next hext =>
    rw [withError_ok] at hrun
    exact .extend (hext.trans ht.hashBestChain) hrun
  next hext =>
    simp only [switchChain, bind_ok, get_ok] at hrun
    obtain ⟨_, _, ⟨rfl, rfl⟩, hrun⟩ := hrun
    obtain ⟨best, hbest, -⟩ := ht.best
    rw [show (s.withTxdb s.txdb.txnBegin).best = some best from hbest, Option.bind_some] at hrun
    cases hpost : postpone best.nChainTrust (s.mapBlockIndex.branch h) [] with
    | none => simp [hpost] at hrun
    | some r =>
      obtain ⟨i, secondary⟩ := r
      simp only [Node.withTxdb_mapBlockIndex, hpost, bind_ok, attempt_ok] at hrun
      obtain ⟨_, s₁, ⟨rfl, _, hre⟩ | ⟨rfl, -⟩, hrun⟩ := hrun
      · rw [if_pos rfl] at hrun
        exact .switch (fun he => hext (he.trans ht.hashBestChain.symm)) best i secondary s₁ hbest hpost hre hrun
      · simp [modifyTxdb] at hrun

/-- When `SetBestChain` returns true the node has moved, and holds the
requested block for the best. -/
theorem setBestChain_ok {u : Unit} (ht : AtTip s t) (hrun : setBestChain P env block h s = .ok u s') :
    ∃ s₁ b, Moved P env block h t s s₁ ∧ s₁.mapBlockIndex.find h = some b ∧ s' = { s₁ with
      hashBestChain := block.getHash P
      pindexBest := some h
      nBestHeight := b.nHeight
      nBestChainTrust := b.nChainTrust } := by
  simp only [setBestChain, installBest, modifyTxdb, bind_ok, modify_ok, deref_ok] at hrun
  obtain ⟨_, _, rfl, _, _, hmv, b, s₁, ⟨hb, rfl⟩, rfl⟩ := hrun
  exact ⟨s₁, b, moveChain_ok ht hmv, hb, rfl⟩

variable (P env) in
/-- The loop over the postponed blocks stops, but does not fail. -/
theorem connectSecondary_total {secondary : List Uint256} (hs : ∀ k ∈ secondary, s.mapBlockIndex.Has k) :
    ∃ s', connectSecondary P env secondary s = .ok () s' := by
  induction secondary generalizing s with
  | nil => exact ⟨s, rfl⟩
  | cons k rest ih =>
    obtain ⟨pindex, hfind⟩ := Option.ne_none_iff_exists'.mp (hs k (by simp))
    simp only [connectSecondary, bind_ok, get_ok]
    cases hread : s.readIndexed env P pindex with
    | error e => exact ⟨s, s, s, ⟨rfl, rfl⟩, by simp [hfind, hread]⟩
    | ok block =>
      obtain ⟨fOk, s₁, hatt⟩ := exists_attempt_ok (setBestChainInner P env block k) (s.withTxdb s.txdb.txnBegin)
      have hg : Steady (s.withTxdb s.txdb.txnBegin) s₁ := (keeps_attempt (keeps_setBestChainInner block k)).ok hatt
      have hrest : ∃ s', (if fOk then connectSecondary P env rest else pure ()) s₁ = .ok () s' := by
        split
        · exact ih fun l hl => hg.tree.has (hs l (by simp [hl]))
        · exact ⟨s₁, rfl⟩
      obtain ⟨s', hs'⟩ := hrest
      refine ⟨s', s, s, ⟨rfl, rfl⟩, ?_⟩
      simp only [hfind, hread, bind_ok, modifyTxdb, modify_ok]
      exact ⟨(), _, rfl, fOk, s₁, hatt, hs'⟩

theorem postpone_ne_none (nBestTrust : Uint256) (b : CBlockIndex) (rest : List CBlockIndex) (secondary : List Uint256) :
    postpone nBestTrust (b :: rest) secondary ≠ none := by
  induction rest generalizing b secondary with
  | nil => simp [postpone]
  | cons c rest ih =>
    rw [postpone]
    split
    · exact ih c _
    · simp

/-- The postponed blocks lead from the intermediate block to the requested one. -/
theorem postpone_path {tree : BlockTree} {nBestTrust : Uint256} {x i : Uint256} {secondary l : List Uint256}
    (hx : tree.Has x) (hp : tree.forest.Path x secondary) (h : postpone nBestTrust (tree.branch x) secondary = some (i, l)) :
    tree.forest.Path i l ∧ l.getLastD i = secondary.getLastD x := by
  induction x using Forest.chain_induction (F := tree.forest) generalizing secondary with
  | root x hpar =>
    obtain ⟨b, hb⟩ := Option.ne_none_iff_exists'.mp hx
    rw [BlockTree.parent_eq hb] at hpar
    simp only [BlockTree.branch_of_no_pprev hb hpar, postpone, Option.some.injEq, Prod.mk.injEq] at h
    obtain ⟨rfl, rfl⟩ := h
    rw [BlockTree.find_hash hb]
    exact ⟨hp, rfl⟩
  | step x p hpar ih =>
    obtain ⟨b, hb, hbp⟩ := BlockTree.parent_some.mp hpar
    obtain ⟨bp, hfp, -⟩ := tree.pprev_ok hb hbp
    obtain ⟨rest, hrest⟩ := BlockTree.branch_eq_cons hfp
    rw [BlockTree.branch_of_pprev hb hbp, hrest, postpone, BlockTree.find_hash hb, ← hrest] at h
    split at h
    next =>
      have hpath : tree.forest.Path p (x :: secondary) := ⟨hpar, hp⟩
      have hstep := ih (BlockTree.has_of_find hfp) hpath h
      rwa [List.getLastD_cons] at hstep
    next =>
      simp only [Option.some.injEq, Prod.mk.injEq] at h
      obtain ⟨rfl, rfl⟩ := h
      exact ⟨hp, rfl⟩

theorem postpone_spec {nBestTrust : Uint256} {i : Uint256} {l : List Uint256} (hh : s.mapBlockIndex.Has h)
    (hpost : postpone nBestTrust (s.mapBlockIndex.branch h) [] = some (i, l)) :
    s.mapBlockIndex.forest.Path i l ∧ l.getLastD i = h :=
  postpone_path hh (show s.mapBlockIndex.forest.Path h [] from trivial) hpost

/-- When `SetBestChain` returns false it leaves all but the wallets and the
supply of some records, which are not those of the chain. -/
theorem setBestChain_undone {e : Reject} (ht : AtTip s t) (hhas : s.mapBlockIndex.Has h)
    (hS : ∀ k, S k → k ∈ s.mapBlockIndex.chain t) (hext : block.hashPrevBlock = t → ¬ S h)
    (hrun : setBestChain P env block h s = .error e s') : Undone S s s' := by
  simp only [setBestChain, modifyTxdb, bind_error, modify_error, modify_ok, false_or] at hrun
  obtain ⟨_, _, rfl, hmv | ⟨_, s₁, hmv, hinst⟩⟩ := hrun
  · simp only [moveChain, bind_error, get_error, get_ok, false_or] at hmv
    obtain ⟨_, _, ⟨rfl, rfl⟩, hmv⟩ := hmv
    rw [if_neg fun hg => ht.genesis hg.1] at hmv
    split at hmv
    next hprev =>
      obtain ⟨-, e', hin⟩ := withError_error.mp hmv
      have hu := setBestChainInner_error ht.batch hin
      exact ⟨hu.inside.mono fun k hk he => hext (Eq.trans hprev ht.hashBestChain) (he ▸ hk), hu.txdb⟩
    next hprev =>
      simp only [switchChain, bind_error, get_error, get_ok, false_or] at hmv
      obtain ⟨_, _, ⟨rfl, rfl⟩, hmv⟩ := hmv
      obtain ⟨best, hbest, -⟩ := ht.best
      rw [show (s.withTxdb s.txdb.txnBegin).best = some best from hbest, Option.bind_some] at hmv
      cases hpost : postpone best.nChainTrust (s.mapBlockIndex.branch h) [] with
      | none =>
        obtain ⟨b, hb⟩ := Option.ne_none_iff_exists'.mp hhas
        obtain ⟨rest, hrest⟩ := BlockTree.branch_eq_cons hb
        exact absurd (hrest ▸ hpost) (postpone_ne_none _ _ _ _)
      | some r =>
        obtain ⟨i, secondary⟩ := r
        simp only [Node.withTxdb_mapBlockIndex, hpost, bind_error, attempt_error, attempt_ok, false_or] at hmv
        obtain ⟨_, s₂, ⟨rfl, u, hre⟩ | ⟨rfl, e', hre⟩, hmv⟩ := hmv
        · rw [if_pos rfl] at hmv
          have hg : Steady (s.withTxdb s.txdb.txnBegin) s₂ := (keeps_reorganize i).ok hre
          have hhas₂ := fun k hk => hg.tree.has (BlockTree.has_of_path (postpone_spec hhas hpost).1 k hk)
          obtain ⟨s₃, hrun'⟩ := connectSecondary_total P env hhas₂
          exact absurd (hrun'.symm.trans hmv) (by simp)
        · simp only [Bool.false_eq_true, if_false, bind_error, modifyTxdb, modify_error, modify_ok, throw_error,
            false_or] at hmv
          obtain ⟨_, _, rfl, -, rfl⟩ := hmv
          -- the blocks that were connected are not on the old chain
          refine reorganize_error ht.batch (fun pb f hpb hfork k hk hkS => ?_) hre
          have hkt := hS k hkS
          obtain rfl : t = pb := by simpa [ht.pindexBest] using hpb
          obtain ⟨hft, hfi, hall⟩ := Forest.meet_spec hfork
          obtain ⟨hki, hkf⟩ := (Forest.mem_below hfi).mp hk
          exact hkf (hall k hkt hki)
  · -- the record of the new block is still there
    obtain ⟨b, hb⟩ := Option.ne_none_iff_exists'.mp hhas
    have hg : Steady (s.withTxdb s.txdb.txnBegin) s₁ := (keeps_moveChain block h).ok hmv
    obtain ⟨b', hb', -⟩ := hg.tree h b hb
    simp only [installBest, bind_error, modify_error, and_false, exists_false, or_false] at hinst
    exact (deref_error.mp hinst).elim fun hn => absurd hb' (by simp [hn])

theorem setBestChain_error {e : Reject} (ht : AtTip s t) (hparent : s.mapBlockIndex.forest.parent h = some block.hashPrevBlock)
    (hrun : setBestChain P env block h s = .error e s') : Undone (· ∈ s.mapBlockIndex.chain t) s s' := by
  refine setBestChain_undone ht (BlockTree.has_of_parent hparent).1 (fun _ hk => hk) (fun hprev hk => ?_) hrun
  rw [hprev] at hparent
  exact Forest.notMem_chain_parent hparent hk

end Pinkcoin
