/-
When the trust of a block can be computed: `GetModTrust` reads the best
block's predecessor and walks back up to 3071 blocks from the block's own
without looking whether they are there.
-/
import Pinkcoin.ChainRuns
import Pinkcoin.TreeFrames

namespace Pinkcoin

open StateError

/-! ## A tree of accepted blocks -/

namespace BlockTree

/-- The first block is at height 0 and has the time of the genesis block, and
every other one is later than the median of the eleven before it. -/
structure Dated (t : BlockTree) : Prop where
  root : ∀ h b, t.find h = some b → b.pprev = none → b.nHeight = 0 ∧ b.nTime = genesisTx.nTime
  later : ∀ h b p, t.find h = some b → b.pprev = some p → getMedianTimePast (t.branch p) < b.nTime

variable {t t' : BlockTree}

theorem core_nTime {b b' : CBlockIndex} (h : b'.core = b.core) : b'.nTime = b.nTime := (congrArg CBlockIndex.nTime h :)

/-- What is computed along a branch from times alone does not change. -/
theorem Grows.times_eq (h : Grows t t') {k : Uint256} (hk : t.Has k) :
    (t'.branch k).map CBlockIndex.nTime = (t.branch k).map CBlockIndex.nTime := by
  have hfind : ∀ y ∈ t.chain k, (t'.find y).map CBlockIndex.nTime = (t.find y).map CBlockIndex.nTime := by
    intro y hy
    obtain ⟨b, hb⟩ := Option.ne_none_iff_exists'.mp (has_of_mem_chain hk hy)
    obtain ⟨b', hb', hcore⟩ := h y b hb
    rw [hb, hb', Option.map_some, Option.map_some]
    exact congrArg some (core_nTime hcore)
  rw [branch, branch, h.chain_eq hk, List.map_filterMap, List.map_filterMap]
  exact List.filterMap_congr fun y hy => hfind y hy

theorem getMedianTimePast_congr {l l' : List CBlockIndex} (h : l.map CBlockIndex.nTime = l'.map CBlockIndex.nTime) :
    getMedianTimePast l = getMedianTimePast l' := by
  unfold getMedianTimePast
  rw [List.map_take, List.map_take, h]

/-- A tree that grows by blocks later than the median stays such a tree. -/
theorem Dated.grows (h : Dated t) (hgrows : Grows t t') (hnew : ∀ k b, t'.find k = some b → t.find k = none →
    ∃ p, b.pprev = some p ∧ t.Has p ∧ getMedianTimePast (t.branch p) < b.nTime) : Dated t' := by
  have hold : ∀ k b b', t.find k = some b → t'.find k = some b' → b'.core = b.core := by
    intro k b b' hb hb'
    obtain ⟨c, hc, hcore⟩ := hgrows k b hb
    rw [hb'] at hc
    obtain rfl := Option.some.inj hc
    exact hcore
  constructor
  · intro k b' hb' hroot
    cases hb : t.find k with
    | none =>
      obtain ⟨p, hp, -⟩ := hnew k b' hb' hb
      rw [hroot] at hp
      cases hp
    | some b =>
      have hcore := hold k b b' hb hb'
      rw [core_nHeight hcore, core_nTime hcore]
      exact h.root k b hb (by rw [← core_pprev hcore]; exact hroot)
  · intro k b' p hb' hp
    cases hb : t.find k with
    | none =>
      obtain ⟨p', hp', hhas, hlater⟩ := hnew k b' hb' hb
      rw [hp] at hp'
      obtain rfl := Option.some.inj hp'
      rw [getMedianTimePast_congr (hgrows.times_eq hhas)]
      exact hlater
    | some b =>
      have hcore := hold k b b' hb hb'
      rw [core_pprev hcore] at hp
      obtain ⟨bp, hbp, -⟩ := t.pprev_ok hb hp
      rw [getMedianTimePast_congr (hgrows.times_eq (has_of_find hbp)), core_nTime hcore]
      exact h.later k b p hb hp

/-- The median of times from `nTime` on is from `nTime` on. -/
theorem le_getMedianTimePast {nTime : Nat} {b : CBlockIndex} {rest : List CBlockIndex}
    (h : ∀ c ∈ (b :: rest).take 11, nTime ≤ c.nTime) : nTime ≤ getMedianTimePast (b :: rest) := by
  unfold getMedianTimePast
  obtain ⟨pmedian, hpmedian⟩ :
      ∃ l, (((b :: rest).take 11).map CBlockIndex.nTime).insertionSort (· ≤ ·) = l := ⟨_, rfl⟩
  have hmem : ∀ x ∈ pmedian, nTime ≤ x := by
    intro x hx
    rw [← hpmedian, List.mem_insertionSort, List.mem_map] at hx
    obtain ⟨c, hc, rfl⟩ := hx
    exact h c hc
  have hlength : pmedian.length ≠ 0 := by
    rw [← hpmedian, List.length_insertionSort, List.length_map, List.length_take, List.length_cons]
    omega
  simp only [hpmedian]
  rw [List.getElem?_eq_getElem (by omega), Option.getD_some]
  exact hmem _ (List.getElem_mem _)

/-- **No block is older than the genesis block.** -/
theorem Dated.le_nTime (h : Dated t) {k : Uint256} : ∀ b ∈ t.branch k, genesisTx.nTime ≤ b.nTime := by
  induction k using Forest.chain_induction (F := t.forest) with
  | root x hx =>
    intro b hb
    cases hfind : t.find x with
    | none =>
      rw [branch, chain, Forest.chain_of_root hx, List.filterMap_cons_none hfind, List.filterMap_nil] at hb
      cases hb
    | some c =>
      have hpprev : c.pprev = none := by rw [← parent_eq hfind, hx]
      rw [branch_of_no_pprev hfind hpprev, List.mem_singleton] at hb
      rw [hb, (h.root x c hfind hpprev).2]
  | step x p hx ih =>
    intro b hb
    obtain ⟨c, hc, hpprev⟩ := parent_some.mp hx
    rw [branch_of_pprev hc hpprev, List.mem_cons] at hb
    rcases hb with rfl | hb
    · have hlater := h.later x b p hc hpprev
      obtain ⟨bp, hbp, -⟩ := t.pprev_ok hc hpprev
      obtain ⟨rest, hrest⟩ := branch_eq_cons (t := t) hbp
      rw [hrest] at hlater ih
      have hle := le_getMedianTimePast fun c hc => ih c (List.mem_of_mem_take hc)
      omega
    · exact ih b hb

end BlockTree

/-! ## Every node's tree -/

section

variable {P : Params} {T : CTransaction → Prop} {C : Env → CBlock → Uint256 → Node → Prop} {env : Env} {s s' : Node}

theorem trustedIndex_nTime {nFile nBlockPos : Nat} {block : CBlock} {b : CBlockIndex} {kept : StakeTrust}
    (h : block.trustedIndex P s nFile nBlockPos = some (b, kept)) : b.nTime = block.nTime := by
  unfold CBlock.trustedIndex at h
  simp only [Option.bind_eq_bind, Option.bind_eq_some_iff, Option.some.injEq, Prod.mk.injEq] at h
  obtain ⟨⟨nBlockTrust, kept'⟩, -, rfl, -⟩ := h
  unfold BlockTree.link
  split <;> rfl

/-- How recording a block changes the tree. -/
theorem tree_insertBlockIndex (P : Params) (env : Env) (s : Node) (block : CBlock) (nFile nBlockPos : Nat)
    (hashProof : Uint256) :
    (endState (block.insertBlockIndex P env nFile nBlockPos hashProof s)).mapBlockIndex = s.mapBlockIndex ∨
      s.mapBlockIndex.find (block.getHash P) = none ∧ ∃ b : CBlockIndex, b.nTime = block.nTime ∧
        (endState (block.insertBlockIndex P env nFile nBlockPos hashProof s)).mapBlockIndex =
          s.mapBlockIndex.add (block.getHash P) block.hashPrevBlock b := by
  cases hrun : block.insertBlockIndex P env nFile nBlockPos hashProof s with
  | ok u s' =>
    obtain ⟨b, kept, m, hnew, htrust, rfl⟩ := insertBlockIndex_ok hrun
    exact .inr ⟨hnew, block.finished P hashProof m b, (trustedIndex_nTime htrust :), rfl⟩
  | error e s' =>
    rcases insertBlockIndex_error hrun with rfl | ⟨b, kept, htrust, rfl | ⟨hnew, m, rfl⟩⟩
    · exact .inl rfl
    · exact .inl rfl
    · exact .inr ⟨hnew, block.finished P hashProof m b, (trustedIndex_nTime htrust :), rfl⟩

/-- What the checks of `AcceptBlock` say about the time of the block. -/
theorem acceptBlockChecks_later {block : CBlock} {hashProof : Uint256} (h : block.acceptBlockChecks P env s = .ok hashProof) :
    s.mapBlockIndex.Has block.hashPrevBlock ∧
      getMedianTimePast (s.mapBlockIndex.branch block.hashPrevBlock) < block.nTime := by
  unfold CBlock.acceptBlockChecks at h
  simp only [except_bind_ok, except_rejectIf_ok] at h
  obtain ⟨_, -, _, -, h⟩ := h
  cases hprev : s.mapBlockIndex.find block.hashPrevBlock with
  | none => simp [hprev] at h
  | some bp =>
    simp only [hprev, except_bind_ok, except_rejectIf_ok] at h
    obtain ⟨_, -, _, htime, -⟩ := h
    refine ⟨BlockTree.has_of_find hprev, ?_⟩
    by_contra hnot
    exact htime (.inl (by omega))

theorem Node.Still.dated (h : Node.Still s s') (hdated : s.mapBlockIndex.Dated) : s'.mapBlockIndex.Dated := by
  refine hdated.grows h.tree fun k b hb hnone => ?_
  rw [h.new k hnone] at hb
  cases hb

/-- One call keeps the tree so. -/
theorem Step.dated (h : Step P T C s s') (hdated : s.mapBlockIndex.Dated) : s'.mapBlockIndex.Dated := by
  cases h with
  | record env block hashProof hchecks hT =>
    obtain ⟨hhas, hlater⟩ := acceptBlockChecks_later hchecks
    rw [store_run]
    rcases tree_insertBlockIndex P env (s.appended block) block s.disk.nextFile s.disk.nextPos
      hashProof with htree | ⟨hnew, b, htime, htree⟩
    · rw [htree]
      exact hdated
    · rw [htree]
      refine hdated.grows BlockTree.grows_add fun k c hc hnone => ?_
      obtain ⟨bp, hbp⟩ := Option.ne_none_iff_exists'.mp hhas
      have hbp' : (s.appended block).mapBlockIndex.find block.hashPrevBlock = some bp := hbp
      rw [BlockTree.find_add hnew] at hc
      by_cases hk : k = block.getHash P
      · rw [if_pos hk, Option.some.injEq, BlockTree.link, hbp'] at hc
        refine ⟨block.hashPrevBlock, by rw [← hc], hhas, ?_⟩
        rw [← hc]
        exact htime ▸ hlater
      · rw [if_neg hk] at hc
        have hc' : s.mapBlockIndex.find k = some c := hc
        rw [hnone] at hc'
        cases hc'
  | setBestChain env block h hblock hmain hC => exact (still_setBestChain block h s).dated hdated
  | accept env tx => exact Node.Still.dated (.of_steady (keeps_acceptToMemoryPool tx s).steady) hdated
  | remove tx fRecursive => exact hdated
  | checkpoint env h => exact (still_writeSyncCheckpoint h s).dated hdated
  | note hPending hInvalid => exact hdated
  | wallets ws => exact hdated

/-- A new node has the genesis block only. -/
theorem dated_loadBlockIndex {wallets : List CWallet} {u : Unit} (h : loadBlockIndex P env (Node.empty wallets) = .ok u s) :
    s.mapBlockIndex.Dated := by
  simp only [loadBlockIndex, loadGenesis, bind_ok, lift_ok, rejectIf_ok, withError_ok, CBlock.addToBlockIndex, deref_ok,
    get_ok] at h
  obtain ⟨_, s₁, ⟨_, _, ⟨-, rfl⟩, _, _, ⟨-, rfl⟩, ⟨nFile, nBlockPos⟩, s₂, hwrite, _, s₃, ⟨_, _, hins, g, _, ⟨-, rfl⟩, _, s₄,
    ⟨rfl, rfl⟩, hset⟩, hsync⟩, _, s₅, hmaster, _, s₆, hcommit, hreset⟩ := h
  have htree : s₂.mapBlockIndex = BlockTree.empty := by
    obtain ⟨-, rfl⟩ : (nFile, nBlockPos) = _ ∧ s₂ = (Node.empty wallets).appended (genesisBlock P) := by
      cases hwrite
      exact ⟨rfl, rfl⟩
    rfl
  have hgenesis : s₄.mapBlockIndex.Dated := by
    obtain ⟨b, kept, m, hnew, htrust, rfl⟩ := insertBlockIndex_ok hins
    have hfind : ∀ k, (s₂.mapBlockIndex.add ((genesisBlock P).getHash P) (genesisBlock P).hashPrevBlock
        ((genesisBlock P).finished P hashGenesisBlockMain m b)).find k = if k = (genesisBlock P).getHash P then
          some (BlockTree.empty.link ((genesisBlock P).getHash P) 0 ((genesisBlock P).finished P hashGenesisBlockMain m b)) else none := by
      intro k
      rw [BlockTree.find_add hnew, htree]
      rfl
    constructor
    · intro k c hc hroot
      have hc' := (hfind k).symm.trans hc
      split at hc'
      · obtain rfl := Option.some.inj hc'
        exact ⟨rfl, (trustedIndex_nTime htrust :)⟩
      · cases hc'
    · intro k c p hc hp
      have hc' := (hfind k).symm.trans hc
      split at hc'
      · obtain rfl := Option.some.inj hc'
        cases hp
      · cases hc'
  have hstill : Node.Still s₄ s := by
    have hbest : Node.Still s₄ s₃ := by
      split at hset
      · exact (still_setBestChain _ _).ok hset
      · exact (keeps_pure (R := Node.Still) ()).ok hset
    have hcheckpoint : Node.Still s₃ s₁ := (still_writeSyncCheckpoint _).ok hsync
    have hmodify : Keeps Node.Still (modifyTxdb fun txdb => txdb.txnBegin.writeCheckpointPubKey strMasterPubKey) :=
      keeps_modify fun _ => .of_tree rfl
    have hkey : Node.Still s₁ s₅ := hmodify.ok hmaster
    have hcommit' : Node.Still s₅ s₆ := (still_txnCommit _).ok hcommit
    have hreset' : Node.Still s₆ s := by
      split at hreset
      · exact (keeps_withError _ still_resetSyncCheckpoint).ok hreset
      · exact (keeps_pure (R := Node.Still) ()).ok hreset
    exact (((hbest.trans hcheckpoint).trans hkey).trans hcommit').trans hreset'
  exact hstill.dated hgenesis

/-- **Every reachable tree is one of accepted blocks.** -/
theorem dated_of_reach (h : Reach P T C s) : s.mapBlockIndex.Dated := by
  induction h with
  | start h => exact dated_loadBlockIndex h
  | step _ h ih => exact h.dated ih

end

/-! ## The reads of GetBlockTrust -/

/-- Heights fall by one along a branch, down to 0. -/
def Falls : List CBlockIndex → Prop
  | [] => False
  | [b] => b.nHeight = 0
  | b :: prev :: rest => b.nHeight = prev.nHeight + 1 ∧ Falls (prev :: rest)

/-- Each first block is at height 0. -/
def BlockTree.Grounded (t : BlockTree) : Prop := ∀ h b, t.find h = some b → b.pprev = none → b.nHeight = 0

theorem BlockTree.Dated.grounded {t : BlockTree} (h : t.Dated) : t.Grounded := fun k b hb hroot => (h.root k b hb hroot).1

theorem BlockTree.Grounded.falls {t : BlockTree} (h : t.Grounded) {k : Uint256} : t.Has k → Falls (t.branch k) := by
  induction k using Forest.chain_induction (F := t.forest) with
  | root x hx =>
    intro hhas
    obtain ⟨c, hc⟩ := Option.ne_none_iff_exists'.mp hhas
    have hpprev : c.pprev = none := by rw [← parent_eq hc, hx]
    rw [branch_of_no_pprev hc hpprev]
    exact h x c hc hpprev
  | step x p hx ih =>
    intro _
    obtain ⟨c, hc, hpprev⟩ := parent_some.mp hx
    obtain ⟨bp, hbp, hheight⟩ := t.pprev_ok hc hpprev
    have hrest := ih (has_of_find hbp)
    obtain ⟨rest, hbranch⟩ := branch_eq_cons (t := t) hbp
    rw [branch_of_pprev hc hpprev]
    rw [hbranch] at hrest ⊢
    exact ⟨hheight, hrest⟩

theorem Falls.length : ∀ {b : CBlockIndex} {rest : List CBlockIndex}, Falls (b :: rest) →
    (b :: rest).length = b.nHeight + 1
  | b, [], h => by
    have hzero : b.nHeight = 0 := h
    rw [hzero, List.length_singleton]
  | b, prev :: rest, h => by
    have hlength := Falls.length h.2
    rw [List.length_cons, hlength, h.1]

theorem div_mul_succ {n : Nat} (h : ¬ (n + 1) % 1024 = 0) : (n + 1) / 1024 * 1024 = n / 1024 * 1024 := by omega

/-- The walk back to a height that is a multiple of 1024 ends. -/
theorem Falls.dropWhile : ∀ {b : CBlockIndex} {rest : List CBlockIndex}, Falls (b :: rest) →
    ∃ c rest', (b :: rest).dropWhile (fun b => decide (b.nHeight % 1024 ≠ 0)) = c :: rest' ∧ Falls (c :: rest') ∧
      c.nHeight = b.nHeight / 1024 * 1024
  | b, rest, h => by
    by_cases hmultiple : b.nHeight % 1024 = 0
    · refine ⟨b, rest, ?_, h, by omega⟩
      rw [List.dropWhile_cons_of_neg (by simp [hmultiple])]
    · cases rest with
      | nil =>
        have hzero : b.nHeight = 0 := h
        omega
      | cons prev rest =>
        obtain ⟨c, rest', hdrop, hfalls, hheight⟩ := Falls.dropWhile h.2
        refine ⟨c, rest', ?_, hfalls, ?_⟩
        · rw [List.dropWhile_cons_of_pos (by simp [hmultiple])]
          exact hdrop
        · rw [hheight, h.1, div_mul_succ (by rw [← h.1]; exact hmultiple)]

/-- **The window of the base stake trust** is there from height 2048 on. -/
theorem newStakeTrust_isSome_iff {b : CBlockIndex} {rest : List CBlockIndex} (h : Falls (b :: rest)) :
    (newStakeTrust (b :: rest)).isSome ↔ 2048 ≤ b.nHeight := by
  obtain ⟨c, rest', hdrop, hfalls, hheight⟩ := h.dropWhile
  unfold newStakeTrust
  rw [hdrop]
  dsimp only
  rw [hfalls.length]
  split
  · simp only [Option.isSome_none, Bool.false_eq_true, false_iff]
    omega
  · simp only [Option.isSome_some, true_iff]
    omega

/-- The kept base stake trust is used again. -/
def StakeTrust.Current (kept : StakeTrust) (nHeight : Nat) : Prop :=
  kept.nBaseStakeTrust ≠ 0 ∧ nHeight ≤ kept.nBaseStakeTrustHeight + 1024

theorem nextStakeTrust_isSome_iff {b : CBlockIndex} {rest : List CBlockIndex} (kept : StakeTrust) (h : Falls (b :: rest)) :
    (nextStakeTrust kept (b :: rest)).isSome ↔ kept.Current b.nHeight ∨ 2048 ≤ b.nHeight := by
  have hnew := newStakeTrust_isSome_iff h
  unfold nextStakeTrust StakeTrust.Current
  by_cases hzero : kept.nBaseStakeTrust = 0
  · rw [if_pos hzero, hnew]
    simp [hzero]
  · rw [if_neg hzero, List.head?_cons, Option.bind_eq_bind, Option.bind_some]
    by_cases hlater : kept.nBaseStakeTrustHeight + 1024 < b.nHeight
    · rw [if_pos hlater, hnew]
      simp [hzero]
      omega
    · rw [if_neg hlater]
      simp [hzero]
      omega

/-! ## Division -/

/-- `BN_div`: the exception for a zero divisor is `none`. -/
def CBigNum.div? (a b : CBigNum) : Option CBigNum := if b = 0 then none else some (a.tdiv b)

/-- The divisions of `GetBlockTrust`. -/
def trustDivisions (nTime nBits : Nat) (fLate : Bool) (bnStakeTrust : CBigNum) : Option Uint256 := do
  let bnTarget := CBigNum.setCompact nBits
  if bnTarget ≤ 0 then pure 0
  else if nTimeV221 < nTime then
    let bnTargetTest := if fLate then bnTarget * 10 else bnTarget
    let nTrustRet ← CBigNum.div? (2 ^ 256) (bnTargetTest + 1)
    if bnStakeTrust ≠ 0 then
      let nStakeTrustRet ← CBigNum.div? (2 ^ 256) bnStakeTrust
      pure (addTrust (CBigNum.getuint256 nTrustRet) (CBigNum.getuint256 nStakeTrustRet))
    else pure (CBigNum.getuint256 nTrustRet)
  else
    let nTrustRet ← CBigNum.div? (2 ^ 256) (bnTarget + 1)
    pure (CBigNum.getuint256 nTrustRet)

/-- **No divisor is zero.** -/
theorem trustDivisions_eq (nTime nBits : Nat) (fLate : Bool) (bnStakeTrust : CBigNum) :
    trustDivisions nTime nBits fLate bnStakeTrust = some (trustOf nTime nBits fLate bnStakeTrust) := by
  unfold trustDivisions trustOf
  dsimp only
  by_cases hpos : CBigNum.setCompact nBits ≤ 0
  · rw [if_pos hpos, if_pos hpos]
    rfl
  · rw [if_neg hpos, if_neg hpos]
    have hpos' : (0 : Int) < CBigNum.setCompact nBits := not_le.mp hpos
    have htarget : CBigNum.setCompact nBits + 1 ≠ 0 := ne_of_gt (Int.add_pos hpos' Int.one_pos)
    by_cases hnew : nTimeV221 < nTime
    · rw [if_pos hnew, if_pos hnew]
      have htest : (if fLate then CBigNum.setCompact nBits * 10 else CBigNum.setCompact nBits) + 1 ≠ 0 := by
        cases fLate with
        | true =>
          rw [if_pos rfl]
          exact ne_of_gt (Int.add_pos (Int.mul_pos hpos' (by decide)) Int.one_pos)
        | false =>
          rw [if_neg (by decide)]
          exact htarget
      rw [CBigNum.div?, if_neg htest, Option.bind_eq_bind, Option.bind_some]
      by_cases hstake : bnStakeTrust ≠ 0
      · rw [if_pos hstake, if_pos hstake, CBigNum.div?, if_neg hstake]
        rfl
      · rw [if_neg hstake, if_neg hstake]
        rfl
    · rw [if_neg hnew, if_neg hnew, CBigNum.div?, if_neg htarget]
      rfl

/-- `GetBlockTrust` with its divisions. -/
def readBlockTrust (best base : List CBlockIndex) (kept : StakeTrust) (pindex : CBlockIndex) (isNew : Bool) :
    Option (Uint256 × StakeTrust) :=
  if CBigNum.setCompact pindex.nBits ≤ 0 ∨ ¬ nTimeV221 < pindex.nTime then do
    let nTrust ← trustDivisions pindex.nTime pindex.nBits false 0
    some (nTrust, kept)
  else do
    let fLate ← isLateBlock best base pindex.nTime isNew
    if pindex.fProofOfStake then
      let kept ← nextStakeTrust kept base
      let nTrust ← trustDivisions pindex.nTime pindex.nBits fLate kept.nBaseStakeTrust
      some (nTrust, kept)
    else
      let nTrust ← trustDivisions pindex.nTime pindex.nBits fLate 0
      some (nTrust, kept)

theorem readBlockTrust_eq (best base : List CBlockIndex) (kept : StakeTrust) (pindex : CBlockIndex) (isNew : Bool) :
    readBlockTrust best base kept pindex isNew = getBlockTrust best base kept pindex isNew := by
  unfold readBlockTrust getBlockTrust
  simp only [trustDivisions_eq, Option.bind_eq_bind, Option.bind_some]

/-! ## When the trust can be computed -/

section

variable (t : BlockTree) (pindexBest : Option Uint256) (pprev : Uint256) (kept : StakeTrust) (pindex : CBlockIndex)
  (isNew : Bool)

/-- `GetBlockTrust` reads what is there: nothing of the tree for a block up to
version 2.2.1.0 or with no target; else, for a new block, the predecessor of
the best block, and for a proof-of-stake block a window that begins at height
2048, unless a base stake trust is kept that is not 1024 blocks old. -/
def TrustReads : Prop :=
  CBigNum.setCompact pindex.nBits ≤ 0 ∨ ¬ nTimeV221 < pindex.nTime ∨
    ((isNew → ∀ best ∈ pindexBest.bind t.find, 0 < best.nHeight) ∧
      (pindex.fProofOfStake → ∀ base ∈ t.find pprev, kept.Current base.nHeight ∨ 2048 ≤ base.nHeight))

variable {t pindexBest pprev kept pindex isNew}

theorem isLateBlock_isSome_iff (hgrounded : t.Grounded) (hbest : ∀ h ∈ pindexBest, t.Has h) (hprev : t.Has pprev)
    (nBlockTime : Nat) (isNew : Bool) :
    (isLateBlock (pindexBest.elim [] t.branch) (t.branch pprev) nBlockTime isNew).isSome ↔
      (isNew → ∀ best ∈ pindexBest.bind t.find, 0 < best.nHeight) := by
  unfold isLateBlock
  cases isNew with
  | false => simp
  | true =>
    obtain ⟨base, hbase⟩ := Option.ne_none_iff_exists'.mp hprev
    obtain ⟨baseRest, hbaseBranch⟩ := BlockTree.branch_eq_cons hbase
    cases pindexBest with
    | none => simp
    | some h =>
      obtain ⟨best, hfind⟩ := Option.ne_none_iff_exists'.mp (hbest h rfl)
      obtain ⟨rest, hbranch⟩ := BlockTree.branch_eq_cons hfind
      have hlength := (hbranch ▸ hgrounded.falls (hbest h rfl)).length
      rw [Option.elim_some, hbranch, hbaseBranch]
      simp only [if_true, List.head?_cons, Option.bind_eq_bind, Option.bind_some, hfind, Option.mem_def, Option.some.injEq,
        forall_eq', forall_const]
      cases rest with
      | nil =>
        rw [List.length_singleton] at hlength
        simp only [List.head?_nil, Option.bind_none, Option.isSome_none, Bool.false_eq_true, false_iff]
        omega
      | cons bestPrev rest =>
        rw [List.length_cons, List.length_cons] at hlength
        simp only [List.head?_cons, Option.bind_some, Option.isSome_some, true_iff]
        omega

variable (t pindexBest pprev kept pindex)

/-- A block is late: more than ten minutes older than the best block, on top of
a block lower than the best block's predecessor. -/
def LateFork (nTime : Nat) : Prop :=
  ∃ best ∈ pindexBest.bind t.find, ∃ bestPrev ∈ best.pprev.bind t.find, ∃ base ∈ t.find pprev,
    (nTime : Int) < best.nTime - 600 ∧ base.nHeight < bestPrev.nHeight

instance (nTime : Nat) : Decidable (LateFork t pindexBest pprev nTime) :=
  inferInstanceAs (Decidable (∃ best ∈ pindexBest.bind t.find, ∃ bestPrev ∈ best.pprev.bind t.find,
    ∃ base ∈ t.find pprev, _ ∧ _))

/-- The trust of a target. -/
def ownTrust (bnTarget : CBigNum) : Uint256 := CBigNum.getuint256 (((2 : Int) ^ 256).tdiv (bnTarget + 1))

/-- The trust of the base stake trust, where there is one. -/
def stakeTrustOf (bnStakeTrust : CBigNum) : Uint256 :=
  if bnStakeTrust ≠ 0 then CBigNum.getuint256 (((2 : Int) ^ 256).tdiv bnStakeTrust) else 0

/-- `GetBlockTrust(true)` takes the target of a late block ten times larger than
`GetBlockTrust(false)` does, and agrees with it in every other case. -/
def Discounts : Prop :=
  getBlockTrust (pindexBest.elim [] t.branch) (t.branch pprev) kept pindex true =
    (getBlockTrust (pindexBest.elim [] t.branch) (t.branch pprev) kept pindex false).map fun r =>
      (if LateFork t pindexBest pprev pindex.nTime ∧ 0 < CBigNum.setCompact pindex.nBits then
        addTrust (ownTrust (CBigNum.setCompact pindex.nBits * 10))
          (stakeTrustOf (if pindex.fProofOfStake then r.2.nBaseStakeTrust else 0))
      else r.1, r.2)

variable {t pindexBest pprev kept pindex}

theorem trustOf_eq {nTime nBits : Nat} (hnew : nTimeV221 < nTime) (hpos : 0 < CBigNum.setCompact nBits) (fLate : Bool)
    (bnStakeTrust : CBigNum) : trustOf nTime nBits fLate bnStakeTrust =
      addTrust (ownTrust (if fLate then CBigNum.setCompact nBits * 10 else CBigNum.setCompact nBits))
        (stakeTrustOf bnStakeTrust) := by
  unfold trustOf stakeTrustOf
  dsimp only
  rw [if_neg (not_le.mpr hpos), if_pos hnew]
  by_cases hstake : bnStakeTrust ≠ 0
  · rw [if_pos hstake, if_pos hstake, ownTrust]
  · rw [if_neg hstake, if_neg hstake, ownTrust, addTrust, Nat.add_zero, CBigNum.getuint256, Nat.mod_mod]

/-- The test for a late block is the one of integers. -/
theorem isLateBlock_eq (hdated : t.Dated) (hprev : t.Has pprev) {h p : Uint256} {best : CBlockIndex}
    (hbest : t.find h = some best) (hpprev : best.pprev = some p) (hrange : best.nTime < 2 ^ 32) (nBlockTime : Nat) :
    isLateBlock (t.branch h) (t.branch pprev) nBlockTime true = some (decide (LateFork t (some h) pprev nBlockTime)) := by
  obtain ⟨base, hbase⟩ := Option.ne_none_iff_exists'.mp hprev
  obtain ⟨baseRest, hbaseBranch⟩ := BlockTree.branch_eq_cons hbase
  obtain ⟨bestPrev, hbestPrev, -⟩ := t.pprev_ok hbest hpprev
  have hbestPrev' : t.find p = some bestPrev := hbestPrev
  obtain ⟨rest, hrest⟩ := BlockTree.branch_eq_cons hbestPrev'
  have hold : 1486329989 ≤ best.nTime := hdated.le_nTime (k := h) best (by
    rw [BlockTree.branch_of_pprev hbest hpprev]
    exact List.mem_cons_self)
  have hminus : (best.nTime + 2 ^ 32 - 600) % 2 ^ 32 = best.nTime - 600 := by
    rw [show best.nTime + 2 ^ 32 - 600 = best.nTime - 600 + 2 ^ 32 by omega, Nat.add_mod_right, Nat.mod_eq_of_lt (by omega)]
  unfold isLateBlock
  rw [if_pos rfl, BlockTree.branch_of_pprev hbest hpprev, hrest, hbaseBranch]
  simp only [List.head?_cons, Option.bind_eq_bind, Option.bind_some, Option.some.injEq, decide_eq_decide]
  simp only [LateFork, Option.bind_some, hbest, hpprev, hbestPrev', hbase, Option.mem_def, Option.some.injEq,
    exists_eq_left', hminus]
  constructor
  · intro ⟨hheight, htime⟩
    exact ⟨by omega, hheight⟩
  · intro ⟨htime, hheight⟩
    exact ⟨hheight, by omega⟩

/-- The base stake trust a block is given, if its window is there. -/
def givenStakeTrust (base : List CBlockIndex) (kept : StakeTrust) (pindex : CBlockIndex) : Option StakeTrust :=
  if pindex.fProofOfStake then nextStakeTrust kept base else some kept

theorem getBlockTrust_of_pos {best base : List CBlockIndex} (hpos : 0 < CBigNum.setCompact pindex.nBits)
    (hnew : nTimeV221 < pindex.nTime) (isNew : Bool) :
    getBlockTrust best base kept pindex isNew = (isLateBlock best base pindex.nTime isNew).bind fun fLate =>
      (givenStakeTrust base kept pindex).map fun r =>
        (trustOf pindex.nTime pindex.nBits fLate (if pindex.fProofOfStake then r.nBaseStakeTrust else 0), r) := by
  have hown : ¬ (CBigNum.setCompact pindex.nBits ≤ 0 ∨ ¬ nTimeV221 < pindex.nTime) := by
    rw [not_or, not_not]
    exact ⟨not_le.mpr hpos, hnew⟩
  rw [getBlockTrust, if_neg hown, givenStakeTrust]
  by_cases hstake : pindex.fProofOfStake
  · simp only [hstake, if_true, Option.bind_eq_bind, Option.map_eq_bind]
    rfl
  · simp [hstake]

/-- Where the best block's predecessor is not read, or is there, the discount
is given. -/
theorem discounts_of_late (hpos : 0 < CBigNum.setCompact pindex.nBits) (hnew : nTimeV221 < pindex.nTime)
    (hlate : isLateBlock (pindexBest.elim [] t.branch) (t.branch pprev) pindex.nTime true =
      some (decide (LateFork t pindexBest pprev pindex.nTime))) : Discounts t pindexBest pprev kept pindex := by
  unfold Discounts
  rw [getBlockTrust_of_pos hpos hnew, getBlockTrust_of_pos hpos hnew, hlate, Option.bind_some]
  simp only [isLateBlock, Bool.false_eq_true, if_false, Option.bind_some, Option.map_map]
  refine congrArg₂ Option.map (funext fun r => ?_) rfl
  simp only [Function.comp_apply, hpos, and_true, Prod.mk.injEq]
  by_cases hfork : LateFork t pindexBest pprev pindex.nTime
  · rw [if_pos hfork, trustOf_eq hnew hpos, decide_eq_true hfork, if_pos rfl]
  · rw [if_neg hfork, decide_eq_false hfork]

end

/-! ## The first block after the genesis block -/

namespace Sample

/-- A tree with one block, at time `nTime`. -/
def lone (nTime : Nat) : BlockTree :=
  BlockTree.empty.add 7 0 { CBlockIndex.ofBlock 0 0 (genesisBlock (params true)) with nTime := nTime }

/-- The record of a block after version 2.2.1.0. -/
def modern (fProofOfStake : Bool) : CBlockIndex :=
  { CBlockIndex.ofBlock 0 0 (chainBlock 1) with
    pprev := some 7, nHeight := 1, nTime := nTimeV221 + 600, fProofOfStake := fProofOfStake }

theorem find_lone {nTime : Nat} {k : Uint256} {b : CBlockIndex} (h : (lone nTime).find k = some b) :
    k = 7 ∧ b.pprev = none ∧ b.nHeight = 0 ∧ b.nTime = nTime := by
  rw [lone, BlockTree.find_add rfl] at h
  split at h
  next heq =>
    obtain rfl := Option.some.inj h
    exact ⟨heq, rfl, rfl, rfl⟩
  next => cases h

theorem grounded_lone (nTime : Nat) : (lone nTime).Grounded := fun _ _ h _ => (find_lone h).2.2.1

theorem dated_lone : (lone genesisTx.nTime).Dated := by
  constructor
  · intro k b h _
    exact (find_lone h).2.2
  · intro k b p h hp
    rw [(find_lone h).2.1] at hp
    cases hp

end Sample

end Pinkcoin
