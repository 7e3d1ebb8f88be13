/-
What `ProcessBlock` keeps of the blocks without predecessors: which calls
leave the three containers agreeing with one another and with the block
index.
-/
import Pinkcoin.ProcessBlock
import Pinkcoin.TreeFrames
import Pinkcoin.Lib.Runs

namespace Pinkcoin

open StateError Runs

/-! ## Which blocks get into the index -/

/-- No block gets into the block index but one of `S`. -/
def Node.Adds (S : Uint256 → Prop) (s s' : Node) : Prop :=
  ∀ hash, ¬ S hash → s.mapBlockIndex.find hash = none → s'.mapBlockIndex.find hash = none

namespace Node.Adds

variable {S : Uint256 → Prop} {s s' s'' : Node}

theorem refl : Adds S s s := fun _ _ h => h

theorem trans (h : Adds S s s') (h' : Adds S s' s'') : Adds S s s'' := fun hash hS hnone => h' hash hS (h hash hS hnone)

instance : Std.Refl (Adds S) := ⟨fun _ => .refl⟩
instance : IsTrans Node (Adds S) := ⟨fun _ _ _ h h' => h.trans h'⟩

theorem of_still (h : Node.Still s s') : Adds S s s' := fun hash _ hnone => h.new hash hnone

end Node.Adds

open Node (Adds)

section

variable {S : Uint256 → Prop} {P : Params} {env : Env}

theorem BlockTree.find_add_ne {t : BlockTree} {hash hash' hashPrev : Uint256} {b : CBlockIndex} (hne : hash' ≠ hash)
    (hnone : t.find hash' = none) : (t.add hash hashPrev b).find hash' = none := by
  by_cases hnew : t.find hash = none
  · rw [BlockTree.find_add hnew, if_neg hne, hnone]
  · rw [BlockTree.add, dif_neg hnew, hnone]

theorem adds_insertBlockIndex (nFile nBlockPos : Nat) (hashProof : Uint256) (block : CBlock) :
    Keeps (Adds (· = block.getHash P)) (block.insertBlockIndex P env nFile nBlockPos hashProof) := by
  refine keeps_bind keeps_get fun s => keeps_bind (keeps_rejectIf _ _) fun _ => ?_
  split
  · exact keeps_throw _
  · refine keeps_bind (keeps_modify fun _ => .of_still (.of_tree rfl)) fun _ => ?_
    refine keeps_bind (keeps_withError _ (keeps_lift _)) fun modifier => ?_
    refine keeps_bind (keeps_modify fun s => ?_) fun _ => (still_txnCommit _).mono fun _ _ => .of_still
    exact fun hash hne hnone => BlockTree.find_add_ne hne hnone

theorem adds_writeToDisk (block : CBlock) : Keeps (Adds S) block.writeToDisk := fun _ => .of_still (.of_tree rfl)

/-- **`AcceptBlock` adds the block to the index and no other.** -/
theorem adds_acceptBlock (block : CBlock) : Keeps (Adds (· = block.getHash P)) (block.acceptBlock P env) := by
  refine keeps_bind keeps_get fun s => keeps_bind (keeps_lift _) fun hashProof => ?_
  refine keeps_bind (adds_writeToDisk block) fun place => ?_
  refine keeps_bind (keeps_withError _ ?_) fun _ =>
    keeps_bind (keeps_attempt (still_acceptPendingSyncCheckpoint.mono fun _ _ => .of_still)) fun _ => keeps_pure _
  refine keeps_bind (adds_insertBlockIndex _ _ _ block) fun _ =>
    keeps_bind ((still_deref _).mono fun _ _ => .of_still) fun _ => keeps_bind keeps_get fun _ => ?_
  exact keeps_ite ((still_setBestChain _ _).mono fun _ _ => .of_still) (keeps_pure _)

end

/-! ## Order in what is kept -/

/-- A run ended with a value. -/
def succeeded (result : EStateM.Result Reject Node Unit) : Bool :=
  match result with
  | .ok _ _ => true
  | .error _ _ => false

/-- No kept block has its predecessor in the index, the containers by hash and
by predecessor hold the same blocks, and the proofs of stake are those of the
kept blocks. -/
structure Orderly (P : Params) (r : Receiver) : Prop where
  keyed : ∀ hash block, r.orphans.mapOrphanBlocks.lookup hash = some block → block.getHash P = hash
  parents : ∀ hash block, r.orphans.mapOrphanBlocks.lookup hash = some block →
    ¬ r.node.mapBlockIndex.Has block.hashPrevBlock
  same : ∀ hashPrev block, (hashPrev, block) ∈ r.orphans.mapOrphanBlocksByPrev ↔
    hashPrev = block.hashPrevBlock ∧ r.orphans.mapOrphanBlocks.lookup (block.getHash P) = some block
  once : r.orphans.mapOrphanBlocksByPrev.Nodup
  stakes : ∀ proof, proof ∈ r.orphans.setStakeSeenOrphan ↔
    ∃ hash block, r.orphans.mapOrphanBlocks.lookup hash = some block ∧ block.isProofOfStake ∧ block.getProofOfStake = proof

/-- No two kept blocks have one proof of stake. -/
def Unshared (o : OrphanBlocks) : Prop :=
  ∀ hash hash' block block', o.mapOrphanBlocks.lookup hash = some block → o.mapOrphanBlocks.lookup hash' = some block' →
    block.isProofOfStake → block'.isProofOfStake → block.getProofOfStake = block'.getProofOfStake → hash = hash'

/-- Order but for the blocks that wait for one of the work queue. -/
structure Pending (P : Params) (vWorkQueue : List Uint256) (r : Receiver) : Prop where
  keyed : ∀ hash block, r.orphans.mapOrphanBlocks.lookup hash = some block → block.getHash P = hash
  parents : ∀ hash block, r.orphans.mapOrphanBlocks.lookup hash = some block →
    r.node.mapBlockIndex.Has block.hashPrevBlock → block.hashPrevBlock ∈ vWorkQueue
  same : ∀ hashPrev block, (hashPrev, block) ∈ r.orphans.mapOrphanBlocksByPrev ↔
    hashPrev = block.hashPrevBlock ∧ r.orphans.mapOrphanBlocks.lookup (block.getHash P) = some block
  once : r.orphans.mapOrphanBlocksByPrev.Nodup
  stakes : ∀ proof, proof ∈ r.orphans.setStakeSeenOrphan ↔
    ∃ hash block, r.orphans.mapOrphanBlocks.lookup hash = some block ∧ block.isProofOfStake ∧ block.getProofOfStake = proof
  unshared : Unshared r.orphans

theorem pending_nil_iff {P : Params} {r : Receiver} : Pending P [] r ↔ Orderly P r ∧ Unshared r.orphans := by
  constructor
  · intro h
    refine ⟨⟨h.keyed, fun hash block hkept hhas => ?_, h.same, h.once, h.stakes⟩, h.unshared⟩
    have hmem := h.parents hash block hkept hhas
    cases hmem
  · intro ⟨h, hunshared⟩
    exact ⟨h.keyed, fun hash block hkept hhas => absurd hhas (h.parents hash block hkept), h.same, h.once, h.stakes,
      hunshared⟩

/-! ## When a pass leaves order -/

section

variable (P : Params) (env : Uint256 → Env)

/-- `AcceptBlock` accepts the block, or leaves it out of the index, or no kept
block waits for it. -/
def Settled (o : OrphanBlocks) (hash : Uint256) (result : EStateM.Result Reject Node Unit) : Prop :=
  succeeded result = true ∨ ¬ (endState result).mapBlockIndex.Has hash ∨ ¬ o.Waited hash

instance (o : OrphanBlocks) (hash : Uint256) (result : EStateM.Result Reject Node Unit) : Decidable (Settled o hash result) :=
  inferInstanceAs (Decidable (_ ∨ _ ∨ _))

/-- So it is for each block of the inner loop. -/
def TakesSettle : List CBlock → Receiver → Prop
  | [], _ => True
  | orphan :: rest, r =>
    Settled r.orphans (orphan.getHash P) (orphan.acceptBlock P (env (orphan.getHash P)) r.node) ∧
      TakesSettle rest (takeOrphan P env orphan r).1

/-- So it is for each block of the pass. -/
def WorkSettles : Nat → List Uint256 → Receiver → Prop
  | 0, _, _ => True
  | _, [], _ => True
  | fuel + 1, hashPrev :: vWorkQueue, r =>
    TakesSettle P env (r.orphans.waiting hashPrev) r ∧
      WorkSettles fuel (vWorkQueue ++ (takeOrphans P env (r.orphans.waiting hashPrev) r).2)
        { (takeOrphans P env (r.orphans.waiting hashPrev) r).1 with
          orphans := (takeOrphans P env (r.orphans.waiting hashPrev) r).1.orphans.forget hashPrev }

end

instance decidableTakesSettle (P : Params) (env : Uint256 → Env) :
    ∀ (children : List CBlock) (r : Receiver), Decidable (TakesSettle P env children r)
  | [], _ => isTrue trivial
  | orphan :: rest, r =>
    have := decidableTakesSettle P env rest (takeOrphan P env orphan r).1
    inferInstanceAs (Decidable (_ ∧ _))

instance decidableWorkSettles (P : Params) (env : Uint256 → Env) :
    ∀ (fuel : Nat) (vWorkQueue : List Uint256) (r : Receiver), Decidable (WorkSettles P env fuel vWorkQueue r)
  | 0, _, _ => isTrue trivial
  | _ + 1, [], _ => isTrue trivial
  | fuel + 1, hashPrev :: vWorkQueue, r =>
    have := decidableWorkSettles P env fuel (vWorkQueue ++ (takeOrphans P env (r.orphans.waiting hashPrev) r).2)
      { (takeOrphans P env (r.orphans.waiting hashPrev) r).1 with
        orphans := (takeOrphans P env (r.orphans.waiting hashPrev) r).1.orphans.forget hashPrev }
    inferInstanceAs (Decidable (_ ∧ _))

/-! ## One turn of the work queue -/

section

variable {P : Params} {env : Uint256 → Env} {r : Receiver} {hashPrev : Uint256} {vWorkQueue : List Uint256}

theorem mem_waiting {o : OrphanBlocks} {block : CBlock} :
    block ∈ o.waiting hashPrev ↔ (hashPrev, block) ∈ o.mapOrphanBlocksByPrev := by
  simp only [OrphanBlocks.waiting, List.mem_map, List.mem_filter, decide_eq_true_eq]
  constructor
  · intro ⟨entry, ⟨hmem, hkey⟩, hblock⟩
    rw [← hkey, ← hblock]
    exact hmem
  · intro hmem
    exact ⟨(hashPrev, block), ⟨hmem, rfl⟩, rfl⟩

theorem takeOrphan_orphans (P : Params) (env : Uint256 → Env) (orphan : CBlock) (r : Receiver) :
    (takeOrphan P env orphan r).1.orphans = r.orphans.drop P orphan := by
  unfold takeOrphan
  split <;> rfl

theorem takeOrphan_node (orphan : CBlock) :
    (takeOrphan P env orphan r).1.node = endState (orphan.acceptBlock P (env (orphan.getHash P)) r.node) := by
  unfold takeOrphan
  split
  next hrun => rw [hrun, endState_ok]
  next hrun => rw [hrun, endState_error]

theorem takeOrphan_accepted (orphan : CBlock) :
    (takeOrphan P env orphan r).2 = succeeded (orphan.acceptBlock P (env (orphan.getHash P)) r.node) := by
  unfold takeOrphan
  split
  next hrun => rw [hrun, succeeded]
  next hrun => rw [hrun, succeeded]

/-- What a settled `AcceptBlock` brings into the index is accepted, or no kept
block waits for it. -/
theorem Settled.has {o : OrphanBlocks} {block : CBlock} {env : Env} {s : Node} {hash : Uint256}
    (h : Settled o (block.getHash P) (block.acceptBlock P env s))
    (hhas : (endState (block.acceptBlock P env s)).mapBlockIndex.Has hash) :
    s.mapBlockIndex.Has hash ∨ (hash = block.getHash P ∧ succeeded (block.acceptBlock P env s) = true) ∨
      ¬ o.Waited hash := by
  by_cases hold : s.mapBlockIndex.Has hash
  · exact .inl hold
  · have heq : hash = block.getHash P := by
      by_contra hne
      exact hhas (adds_acceptBlock (P := P) block s hash hne (not_not.mp hold))
    subst heq
    rcases h with haccepted | hout | hunwaited
    · exact .inr (.inl ⟨rfl, haccepted⟩)
    · exact absurd hhas hout
    · exact .inr (.inr hunwaited)

/-- What the inner loop does to the containers and to the index. -/
structure Taken (P : Params) (children : List CBlock) (r r' : Receiver) (pushed : List Uint256) : Prop where
  byPrev : r'.orphans.mapOrphanBlocksByPrev = r.orphans.mapOrphanBlocksByPrev
  lookup : ∀ hash, r'.orphans.mapOrphanBlocks.lookup hash =
    if hash ∈ children.map (CBlock.getHash P) then none else r.orphans.mapOrphanBlocks.lookup hash
  stakes : ∀ proof, proof ∈ r'.orphans.setStakeSeenOrphan ↔
    proof ∈ r.orphans.setStakeSeenOrphan ∧ proof ∉ children.map CBlock.getProofOfStake
  index : ∀ hash, r'.node.mapBlockIndex.Has hash → r.node.mapBlockIndex.Has hash ∨ hash ∈ pushed ∨ ¬ r.orphans.Waited hash
  length : pushed.length ≤ children.length

theorem taken_takeOrphans (children : List CBlock) : ∀ r, TakesSettle P env children r →
    Taken P children r (takeOrphans P env children r).1 (takeOrphans P env children r).2 := by
  induction children with
  | nil => exact fun r _ => ⟨rfl, fun _ => by simp [takeOrphans], fun _ => by simp [takeOrphans], fun _ h => .inl h, le_rfl⟩
  | cons orphan rest ih =>
    intro r hsettles
    obtain ⟨hfirst, hrest⟩ := hsettles
    have hlater := ih _ hrest
    have horphans := takeOrphan_orphans P env orphan r
    have hbyPrev : (takeOrphan P env orphan r).1.orphans.mapOrphanBlocksByPrev = r.orphans.mapOrphanBlocksByPrev := by
      rw [horphans]
      rfl
    refine ⟨hlater.byPrev.trans hbyPrev, fun hash => ?_, fun proof => ?_, fun hash hhas => ?_, ?_⟩
    · rw [takeOrphans, hlater.lookup, horphans, OrphanBlocks.drop, List.map_cons]
      by_cases heq : hash = orphan.getHash P
      · rw [heq, AList.lookup_erase, ite_self, if_pos (List.mem_cons_self)]
      · rw [AList.lookup_erase_ne heq]
        simp only [List.mem_cons, heq, false_or]
    · rw [takeOrphans, hlater.stakes, horphans, OrphanBlocks.drop, Finset.mem_erase, List.map_cons, List.mem_cons]
      tauto
    · have hunchanged : (takeOrphan P env orphan r).1.orphans.Waited hash ↔ r.orphans.Waited hash := by
        rw [OrphanBlocks.Waited, hbyPrev, OrphanBlocks.Waited]
      rw [takeOrphans]
      rcases hlater.index hash hhas with hbefore | hpushed | hunwaited
      · rw [takeOrphan_node] at hbefore
        rcases hfirst.has hbefore with hold | ⟨rfl, haccepted⟩ | hunwaited
        · exact .inl hold
        · refine .inr (.inl ?_)
          rw [takeOrphan_accepted, if_pos haccepted]
          exact List.mem_cons_self
        · exact .inr (.inr hunwaited)
      · refine .inr (.inl ?_)
        dsimp only
        split
        · exact List.mem_cons_of_mem _ hpushed
        · exact hpushed
      · exact .inr (.inr (hunchanged.not.mp hunwaited))
    · have hle := hlater.length
      rw [takeOrphans]
      dsimp only
      split
      · rw [List.length_cons, List.length_cons]
        omega
      · rw [List.length_cons]
        omega

/-- A proof of stake says that its block is a proof-of-stake one. -/
theorem isProofOfStake_of_getProofOfStake {block block' : CBlock} (hstake : block.isProofOfStake)
    (hproof : block'.getProofOfStake = block.getProofOfStake) : block'.isProofOfStake := by
  by_contra hwork
  have hcoinstake := hstake
  obtain ⟨tx, htx, ⟨txin, htxin, hnull⟩, -⟩ := hcoinstake
  rw [CBlock.getProofOfStake, if_neg hwork, CBlock.getProofOfStake, if_pos hstake, htx, Option.bind_some, htxin] at hproof
  have hprevout : COutPoint.null = txin.prevout := congrArg Prod.fst hproof
  exact hnull (hprevout ▸ by decide)

/-- A turn takes the blocks that wait for `hashPrev`, and no others. -/
theorem lookup_taken {r' : Receiver} {pushed : List Uint256} {hash : Uint256} {block : CBlock}
    (hpending : Pending P (hashPrev :: vWorkQueue) r) (htaken : Taken P (r.orphans.waiting hashPrev) r r' pushed) :
    r'.orphans.mapOrphanBlocks.lookup hash = some block ↔
      r.orphans.mapOrphanBlocks.lookup hash = some block ∧ block.hashPrevBlock ≠ hashPrev := by
  rw [htaken.lookup]
  constructor
  · intro hkept
    split at hkept
    next => cases hkept
    next hnot =>
      refine ⟨hkept, fun heq => hnot (List.mem_map.mpr ⟨block, ?_, hpending.keyed hash block hkept⟩)⟩
      rw [mem_waiting, hpending.same, hpending.keyed hash block hkept]
      exact ⟨heq.symm, hkept⟩
  · intro ⟨hkept, hne⟩
    rw [if_neg, hkept]
    intro hmem
    obtain ⟨child, hchild, hhash⟩ := List.mem_map.mp hmem
    rw [mem_waiting, hpending.same, hhash, hkept] at hchild
    exact hne (Option.some.inj hchild.2 ▸ hchild.1.symm)

/-- **One turn keeps order** but for the blocks that wait for what it pushes. -/
theorem pending_turn {r' : Receiver} {pushed : List Uint256} (hpending : Pending P (hashPrev :: vWorkQueue) r)
    (htaken : Taken P (r.orphans.waiting hashPrev) r r' pushed) :
    Pending P (vWorkQueue ++ pushed) { r' with orphans := r'.orphans.forget hashPrev } := by
  have hkept : ∀ hash block, r'.orphans.mapOrphanBlocks.lookup hash = some block ↔
      r.orphans.mapOrphanBlocks.lookup hash = some block ∧ block.hashPrevBlock ≠ hashPrev :=
    fun hash block => lookup_taken hpending htaken
  constructor
  case keyed =>
    intro hash block hlookup
    exact hpending.keyed hash block ((hkept hash block).mp hlookup).1
  case parents =>
    intro hash block hlookup hhas
    obtain ⟨hold, hne⟩ := (hkept hash block).mp hlookup
    rcases htaken.index _ hhas with hbefore | hpushed | hunwaited
    · rcases List.mem_cons.mp (hpending.parents hash block hold hbefore) with heq | hmem
      · exact absurd heq hne
      · exact List.mem_append_left _ hmem
    · exact List.mem_append_right _ hpushed
    · refine absurd ⟨(block.hashPrevBlock, block), (hpending.same _ _).mpr ⟨rfl, ?_⟩, rfl⟩ hunwaited
      rw [hpending.keyed hash block hold]
      exact hold
  case same =>
    intro prev block
    show (prev, block) ∈ r'.orphans.mapOrphanBlocksByPrev.filter _ ↔ prev = _ ∧ r'.orphans.mapOrphanBlocks.lookup _ = _
    rw [hkept, htaken.byPrev, List.mem_filter, hpending.same, decide_eq_true_eq]
    constructor
    · intro ⟨⟨heq, hold⟩, hne⟩
      exact ⟨heq, hold, heq ▸ hne⟩
    · intro ⟨heq, hold, hne⟩
      exact ⟨⟨heq, hold⟩, heq ▸ hne⟩
  case once =>
    show (r'.orphans.mapOrphanBlocksByPrev.filter _).Nodup
    rw [htaken.byPrev]
    exact hpending.once.filter _
  case stakes =>
    intro proof
    show proof ∈ r'.orphans.setStakeSeenOrphan ↔ _
    rw [htaken.stakes, hpending.stakes]
    constructor
    · intro ⟨⟨hash, block, hold, hstake, hproof⟩, hnot⟩
      refine ⟨hash, block, (hkept hash block).mpr ⟨hold, fun heq => hnot ?_⟩, hstake, hproof⟩
      refine List.mem_map.mpr ⟨block, mem_waiting.mpr ((hpending.same _ _).mpr ⟨heq.symm, ?_⟩), hproof⟩
      rw [hpending.keyed hash block hold]
      exact hold
    · intro ⟨hash, block, hlookup, hstake, hproof⟩
      obtain ⟨hold, hne⟩ := (hkept hash block).mp hlookup
      refine ⟨⟨hash, block, hold, hstake, hproof⟩, fun hmem => ?_⟩
      obtain ⟨child, hchild, hsame⟩ := List.mem_map.mp hmem
      obtain ⟨hprev, hchildKept⟩ := (hpending.same _ _).mp (mem_waiting.mp hchild)
      have hproofs : child.getProofOfStake = block.getProofOfStake := hsame.trans hproof.symm
      have heq := hpending.unshared _ _ child block hchildKept hold (isProofOfStake_of_getProofOfStake hstake hproofs)
        hstake hproofs
      rw [heq, hold] at hchildKept
      exact hne (Option.some.inj hchildKept ▸ hprev.symm)
  case unshared =>
    intro hash hash' block block' hlookup hlookup' hstake hstake' hproof
    exact hpending.unshared hash hash' block block' ((hkept _ _).mp hlookup).1 ((hkept _ _).mp hlookup').1 hstake hstake' hproof

/-- A turn pushes no more than it takes. -/
theorem length_turn {r' : Receiver} {pushed : List Uint256} (htaken : Taken P (r.orphans.waiting hashPrev) r r' pushed) :
    pushed.length + (r'.orphans.forget hashPrev).mapOrphanBlocksByPrev.length ≤ r.orphans.mapOrphanBlocksByPrev.length := by
  have hsplit := List.length_eq_length_filter_add (fun entry : Uint256 × CBlock => decide (entry.1 = hashPrev))
    (l := r.orphans.mapOrphanBlocksByPrev)
  have hle := htaken.length
  rw [OrphanBlocks.waiting, List.length_map] at hle
  have hrest : (r'.orphans.forget hashPrev).mapOrphanBlocksByPrev =
      r.orphans.mapOrphanBlocksByPrev.filter fun entry => !decide (entry.1 = hashPrev) := by
    rw [OrphanBlocks.forget, htaken.byPrev]
    exact List.filter_congr fun entry _ => by simp
  rw [hrest]
  omega

/-- **The work queue ends in order.** -/
theorem pending_workLoop (fuel : Nat) : ∀ (vWorkQueue : List Uint256) (r : Receiver),
    vWorkQueue.length + r.orphans.mapOrphanBlocksByPrev.length ≤ fuel → Pending P vWorkQueue r →
    WorkSettles P env fuel vWorkQueue r → Pending P [] (workLoop P env fuel vWorkQueue r) := by
  induction fuel with
  | zero =>
    intro vWorkQueue r hfuel hpending _
    have hnil : vWorkQueue = [] := List.length_eq_zero_iff.mp (by omega)
    subst hnil
    exact hpending
  | succ fuel ih =>
    intro vWorkQueue r hfuel hpending hsettles
    cases vWorkQueue with
    | nil => exact hpending
    | cons hashPrev vWorkQueue =>
      obtain ⟨htakes, hrest⟩ := hsettles
      have htaken := taken_takeOrphans _ r htakes
      have hlength := length_turn htaken
      refine ih _ _ ?_ (pending_turn hpending htaken) hrest
      show (vWorkQueue ++ _).length +
        ((takeOrphans P env (r.orphans.waiting hashPrev) r).1.orphans.forget hashPrev).mapOrphanBlocksByPrev.length ≤ fuel
      rw [List.length_append]
      rw [List.length_cons] at hfuel
      omega

end

/-! ## ProcessBlock -/

section

variable {P : Params} {env : Uint256 → Env} {r : Receiver} {block : CBlock} {send : Option (Env × Bool)}

/-- When `ProcessBlock` leaves order: it does not keep a block whose proof of
stake a kept one has, and each block that it hands to `AcceptBlock` is
accepted, or stays out of the index, or no kept block waits for it. -/
structure CBlock.Settles (P : Params) (env : Uint256 → Env) (block : CBlock) (r : Receiver) : Prop where
  unshared : ¬ r.node.mapBlockIndex.Has block.hashPrevBlock → block.orphanChecks P r = .ok () → block.isProofOfStake →
    block.getProofOfStake ∉ r.orphans.setStakeSeenOrphan
  accepts : block.lateChecks P (env (block.getHash P)) r = .ok () →
    Settled r.orphans (block.getHash P) (block.acceptBlock P (env (block.getHash P)) r.node)
  works : block.lateChecks P (env (block.getHash P)) r = .ok () →
    succeeded (block.acceptBlock P (env (block.getHash P)) r.node) = true →
    WorkSettles P env (r.orphans.mapOrphanBlocksByPrev.length + 1) [block.getHash P]
      { r with node := endState (block.acceptBlock P (env (block.getHash P)) r.node) }

/-- What remains of a call when the kept blocks are accepted changes no container
and brings no block into the index. -/
theorem rest_processBlock (P : Params) (send : Option (Env × Bool)) (r : Receiver) : ∃ s, Adds (fun _ => False) r.node s ∧
    endState ((match send with
      | none => pure ()
      | some (envSend, fSigned) => do
        let _ ← attempt (onNode (sendSyncCheckpoint P envSend fSigned))
        pure () : ReceiverM Unit) r) = { r with node := s } := by
  cases send with
  | none => exact ⟨r.node, .refl, rfl⟩
  | some pair =>
    obtain ⟨envSend, fSigned⟩ := pair
    have hkeeps : Keeps (Adds fun _ => False) (sendSyncCheckpoint P envSend fSigned) := by
      refine keeps_bind keeps_get fun s => ?_
      split
      · exact keeps_throw _
      · exact (still_processSyncCheckpoint _ _).mono fun _ _ => .of_still
    refine ⟨endState (sendSyncCheckpoint P envSend fSigned r.node), hkeeps r.node, ?_⟩
    simp only [bind, EStateM.bind, attempt, onNode]
    cases sendSyncCheckpoint P envSend fSigned r.node with
    | ok a s => rfl
    | error e s => rfl

/-- The four ways a call ends. -/
theorem processBlock_cases (P : Params) (env : Uint256 → Env) (send : Option (Env × Bool)) (block : CBlock) (r : Receiver) :
    endState (block.processBlock P env send r) = r ∨
      (block.processChecks P (env (block.getHash P)) r = .ok () ∧
        ((¬ r.node.mapBlockIndex.Has block.hashPrevBlock ∧ block.orphanChecks P r = .ok () ∧
            endState (block.processBlock P env send r) = { r with orphans := r.orphans.add P block }) ∨
          (block.lateChecks P (env (block.getHash P)) r = .ok () ∧
            ((succeeded (block.acceptBlock P (env (block.getHash P)) r.node) = false ∧
                endState (block.processBlock P env send r) =
                  { r with node := endState (block.acceptBlock P (env (block.getHash P)) r.node) }) ∨
              (succeeded (block.acceptBlock P (env (block.getHash P)) r.node) = true ∧
                ∃ r' s, r' = acceptWaiting P env (block.getHash P)
                    { r with node := endState (block.acceptBlock P (env (block.getHash P)) r.node) } ∧
                  Adds (fun _ => False) r'.node s ∧
                  endState (block.processBlock P env send r) = { r' with node := s }))))) := by
  cases hchecks : block.processChecks P (env (block.getHash P)) r with
  | error e =>
    refine .inl ?_
    simp only [CBlock.processBlock, bind, EStateM.bind, get_run, lift, hchecks,
      endState_error]
  | ok u =>
    by_cases hprev : r.node.mapBlockIndex.Has block.hashPrevBlock
    · cases hlate : block.lateChecks P (env (block.getHash P)) r with
      | error e =>
        refine .inl ?_
        simp only [CBlock.processBlock, bind, EStateM.bind, get_run, lift, hchecks,
          hprev, not_true_eq_false, if_false, hlate, endState_error]
      | ok u' =>
        refine .inr ⟨rfl, .inr ⟨rfl, ?_⟩⟩
        cases haccept : block.acceptBlock P (env (block.getHash P)) r.node with
        | error e s =>
          refine .inl ⟨rfl, ?_⟩
          simp only [CBlock.processBlock, bind, EStateM.bind, get_run, lift, hchecks,
            hprev, not_true_eq_false, if_false, hlate, withError, onNode, haccept, endState_error]
        | ok u'' s =>
          refine .inr ⟨rfl, ?_⟩
          obtain ⟨s', hadds, hend⟩ := rest_processBlock P send
            (acceptWaiting P env (block.getHash P) { r with node := s })
          refine ⟨_, s', rfl, hadds, ?_⟩
          refine Eq.trans ?_ hend
          simp only [CBlock.processBlock, bind, EStateM.bind, get_run, lift, hchecks,
            hprev, not_true_eq_false, if_false, hlate, withError, onNode, haccept, modify_run] <;> rfl
    · cases horphan : block.orphanChecks P r with
      | error e =>
        refine .inl ?_
        simp only [CBlock.processBlock, bind, EStateM.bind, get_run, lift, hchecks,
          hprev, not_false_eq_true, if_true, horphan, endState_error]
      | ok u' =>
        refine .inr ⟨rfl, .inl ⟨hprev, rfl, ?_⟩⟩
        simp only [CBlock.processBlock, bind, EStateM.bind, get_run, lift, hchecks,
          hprev, not_false_eq_true, if_true, horphan, modify_run,
          endState_ok]

/-- Order depends on which blocks the index has. -/
theorem Pending.mono {vWorkQueue : List Uint256} {s : Node} (h : Pending P vWorkQueue r)
    (hindex : ∀ hash, s.mapBlockIndex.Has hash → r.node.mapBlockIndex.Has hash) :
    Pending P vWorkQueue { r with node := s } :=
  ⟨h.keyed, fun hash block hkept hhas => h.parents hash block hkept (hindex _ hhas), h.same, h.once, h.stakes, h.unshared⟩

theorem Adds.has {s s' : Node} {hash : Uint256} (h : Adds (fun _ => False) s s') (hhas : s'.mapBlockIndex.Has hash) :
    s.mapBlockIndex.Has hash := fun hnone => hhas (h hash not_false hnone)

/-- A block that is new to the containers is kept. -/
theorem pending_add (h : Pending P [] r) (hnew : r.orphans.mapOrphanBlocks.lookup (block.getHash P) = none)
    (hprev : ¬ r.node.mapBlockIndex.Has block.hashPrevBlock)
    (hunshared : block.isProofOfStake → block.getProofOfStake ∉ r.orphans.setStakeSeenOrphan) :
    Pending P [] { r with orphans := r.orphans.add P block } := by
  have hlookup : ∀ hash block', (r.orphans.mapOrphanBlocks.insert (block.getHash P) block).lookup hash = some block' ↔
      (hash = block.getHash P ∧ block' = block) ∨ r.orphans.mapOrphanBlocks.lookup hash = some block' := by
    intro hash block'
    by_cases heq : hash = block.getHash P
    · rw [heq, AList.lookup_insert, hnew]
      simp [eq_comm]
    · rw [AList.lookup_insert_ne heq]
      simp [heq]
  constructor
  case keyed =>
    intro hash block' hkept
    rcases (hlookup hash block').mp hkept with ⟨rfl, rfl⟩ | hold
    · rfl
    · exact h.keyed hash block' hold
  case parents =>
    intro hash block' hkept hhas
    rcases (hlookup hash block').mp hkept with ⟨rfl, rfl⟩ | hold
    · exact absurd hhas hprev
    · exact h.parents hash block' hold hhas
  case same =>
    intro hashPrev block'
    show (hashPrev, block') ∈ r.orphans.mapOrphanBlocksByPrev ++ [(block.hashPrevBlock, block)] ↔
      hashPrev = _ ∧ (r.orphans.mapOrphanBlocks.insert (block.getHash P) block).lookup _ = _
    rw [List.mem_append, h.same, hlookup, List.mem_singleton, Prod.mk.injEq]
    constructor
    · rintro (⟨rfl, hold⟩ | ⟨rfl, rfl⟩)
      · exact ⟨rfl, .inr hold⟩
      · exact ⟨rfl, .inl ⟨rfl, rfl⟩⟩
    · rintro ⟨rfl, ⟨-, rfl⟩ | hold⟩
      · exact .inr ⟨rfl, rfl⟩
      · exact .inl ⟨rfl, hold⟩
  case once =>
    show (r.orphans.mapOrphanBlocksByPrev ++ [(block.hashPrevBlock, block)]).Nodup
    refine List.Nodup.append h.once (List.nodup_singleton _) ?_
    rw [List.disjoint_singleton]
    intro hmem
    have hold := ((h.same _ _).mp hmem).2
    rw [hnew] at hold
    cases hold
  case stakes =>
    intro proof
    show proof ∈ (if block.isProofOfStake then _ else _) ↔ ∃ hash block',
      (r.orphans.mapOrphanBlocks.insert (block.getHash P) block).lookup hash = some block' ∧ _ ∧ _
    have hset : proof ∈ (if block.isProofOfStake then insert block.getProofOfStake r.orphans.setStakeSeenOrphan
        else r.orphans.setStakeSeenOrphan) ↔
        (block.isProofOfStake ∧ proof = block.getProofOfStake) ∨ proof ∈ r.orphans.setStakeSeenOrphan := by
      by_cases hstake : block.isProofOfStake
      · simp [hstake]
      · simp [hstake]
    rw [hset, h.stakes]
    constructor
    · rintro (⟨hstake, rfl⟩ | ⟨hash, block', hold, hstake, hproof⟩)
      · exact ⟨_, block, (hlookup _ _).mpr (.inl ⟨rfl, rfl⟩), hstake, rfl⟩
      · exact ⟨hash, block', (hlookup _ _).mpr (.inr hold), hstake, hproof⟩
    · rintro ⟨hash, block', hkept, hstake, hproof⟩
      rcases (hlookup _ _).mp hkept with ⟨rfl, rfl⟩ | hold
      · exact .inl ⟨hstake, hproof.symm⟩
      · exact .inr ⟨hash, block', hold, hstake, hproof⟩
  case unshared =>
    intro hash hash' block₁ block₂ hkept hkept' hstake hstake' hproof
    rcases (hlookup _ _).mp hkept with ⟨rfl, rfl⟩ | hold
    · rcases (hlookup _ _).mp hkept' with ⟨rfl, rfl⟩ | hold'
      · rfl
      · exact absurd ((h.stakes _).mpr ⟨hash', block₂, hold', hstake', hproof.symm⟩) (hunshared hstake)
    · rcases (hlookup _ _).mp hkept' with ⟨rfl, rfl⟩ | hold'
      · exact absurd ((h.stakes _).mpr ⟨hash, block₁, hold, hstake, hproof⟩) (hunshared hstake')
      · exact h.unshared _ _ _ _ hold hold' hstake hstake' hproof

/-- A block that passed the checks is none of the kept ones. -/
theorem lookup_of_processChecks {env : Env} (hchecks : block.processChecks P env r = .ok ()) :
    r.orphans.mapOrphanBlocks.lookup (block.getHash P) = none := by
  simp only [CBlock.processChecks, except_bind_ok, except_rejectIf_ok] at hchecks
  obtain ⟨_, _, _, hnew, _⟩ := hchecks
  exact not_not.mp hnew

/-- **What `ProcessBlock` keeps.** -/
theorem pending_processBlock (h : Pending P [] r)
    (hsettles : block.processChecks P (env (block.getHash P)) r = .ok () → block.Settles P env r) :
    Pending P [] (endState (block.processBlock P env send r)) := by
  rcases processBlock_cases P env send block r with hend | ⟨hchecks, hways⟩
  · rw [hend]
    exact h
  · have hsettled := hsettles hchecks
    rcases hways with ⟨hprev, horphan, hend⟩ | ⟨hlate, ⟨hrefused, hend⟩ | ⟨haccepted, r', s, hr', hadds, hend⟩⟩
    · rw [hend]
      exact pending_add h (lookup_of_processChecks hchecks) hprev (hsettled.unshared hprev horphan)
    · rw [hend]
      have hpending : Pending P [] { r with node := endState (block.acceptBlock P (env (block.getHash P)) r.node) } := by
        refine ⟨h.keyed, fun hash block' hkept hhas => ?_, h.same, h.once, h.stakes, h.unshared⟩
        rcases (hsettled.accepts hlate).has hhas with hold | ⟨-, haccepted⟩ | hunwaited
        · exact h.parents hash block' hkept hold
        · rw [hrefused] at haccepted
          cases haccepted
        · refine absurd ⟨(block'.hashPrevBlock, block'), (h.same _ _).mpr ⟨rfl, ?_⟩, rfl⟩ hunwaited
          rw [h.keyed hash block' hkept]
          exact hkept
      exact hpending
    · rw [hend]
      have hstart : Pending P [block.getHash P]
          { r with node := endState (block.acceptBlock P (env (block.getHash P)) r.node) } := by
        refine ⟨h.keyed, fun hash block' hkept hhas => ?_, h.same, h.once, h.stakes, h.unshared⟩
        by_cases heq : block'.hashPrevBlock = block.getHash P
        · rw [heq]
          exact List.mem_singleton_self _
        · have hold := h.parents hash block' hkept fun hnone =>
            hhas (adds_acceptBlock (P := P) block r.node _ heq hnone)
          cases hold
      have hworked := pending_workLoop _ [block.getHash P] _ (by simp; omega) hstart
        (hsettled.works hlate haccepted)
      rw [hr'] at hadds ⊢
      exact hworked.mono fun hash hhas => Adds.has hadds hhas

end

/-! ## Runs -/

/-- A block comes, or a checkpoint message, or a loose transaction. -/
inductive BlockEvent
  | processBlock (env : Uint256 → Env) (send : Option (Env × Bool)) (pblock : CBlock)
  | processSyncCheckpoint (env : Env) (fSignatureOk : Bool) (hashCheckpoint : Uint256)
  | acceptToMemoryPool (env : Env) (tx : CTransaction)

namespace BlockEvent

variable (P : Params)

/-- The state after an event. -/
def run : BlockEvent → Receiver → Receiver
  | processBlock env send pblock, r => endState (pblock.processBlock P env send r)
  | processSyncCheckpoint env fSignatureOk hashCheckpoint, r =>
    { r with node := endState (Pinkcoin.processSyncCheckpoint P env fSignatureOk hashCheckpoint r.node) }
  | acceptToMemoryPool env tx, r => { r with node := endState (Pinkcoin.acceptToMemoryPool P env tx r.node) }

/-- When an event leaves order. -/
def Keeps : BlockEvent → Receiver → Prop
  | processBlock env _ pblock, r =>
    pblock.processChecks P (env (pblock.getHash P)) r = .ok () → pblock.Settles P env r
  | _, _ => True

variable {P}

theorem run_pending (event : BlockEvent) (r : Receiver) (h : Pending P [] r) (hkeeps : event.Keeps P r) :
    Pending P [] (event.run P r) := by
  cases event with
  | processBlock env send pblock => exact pending_processBlock h hkeeps
  | processSyncCheckpoint env fSignatureOk hashCheckpoint =>
    exact h.mono fun hash hhas => Adds.has (.of_still (still_processSyncCheckpoint _ _ r.node)) hhas
  | acceptToMemoryPool env tx =>
    have hadds : Adds (fun _ => False) r.node (endState (Pinkcoin.acceptToMemoryPool P env tx r.node)) :=
      .of_still (.of_steady (keeps_acceptToMemoryPool tx r.node).steady)
    exact h.mono fun hash hhas => Adds.has hadds hhas

/-- **In every run of a node that starts with no kept blocks, and whose calls
all leave order, what it keeps is in order after every call.** -/
theorem runs_orderly (P : Params) (s : Node) (events : List BlockEvent) (n : Nat)
    (hmeets : Meets (run P) (Keeps P) events ⟨s, .empty⟩) : Orderly P (play (run P) (events.take n) ⟨s, .empty⟩) := by
  have hempty : Pending P [] ⟨s, .empty⟩ := by
    refine ⟨fun _ _ h => ?_, fun _ _ h => ?_, fun _ _ => ?_, List.nodup_nil, fun _ => ?_, fun _ _ _ _ h => ?_⟩
    · cases h
    · cases h
    · simp [OrphanBlocks.empty]
    · simp [OrphanBlocks.empty]
    · cases h
  have hmeets' : Meets (run P) (Keeps P) (events.take n) ⟨s, .empty⟩ := by
    rw [← List.take_append_drop n events, meets_append] at hmeets
    exact hmeets.1
  exact (pending_nil_iff.mp (Meets.keeps run_pending hempty hmeets')).1

end BlockEvent

/-! ## A child before its parent -/

namespace Sample

/-- A first block that spends an output which does not exist. -/
def brokenBlock : CBlock :=
  mine true 101 hashGenesisBlockTestNet (start + 120)
    [coinbase 1 (start + 120) 0 [1], ⟨1, start + 100, [⟨⟨5, 0⟩, [], UINT_MAX⟩], [⟨COIN, [1]⟩], 0⟩]

theorem chainBlock_work (n : Nat) : ¬ (chainBlock n).isProofOfStake := by
  intro h
  obtain ⟨tx, htx, -⟩ := h
  cases htx

end Sample

namespace BlockEvent

/-- The second block comes first, and both are accepted when the first one comes. -/
theorem runs_orderly_sample :
    Orderly (Sample.params true) (play (run (Sample.params true))
      [.processBlock (fun _ => Sample.env) none (Sample.chainBlock 2),
        .processBlock (fun _ => Sample.env) none (Sample.chainBlock 1)] ⟨Sample.fresh true, .empty⟩) := by
  refine runs_orderly (Sample.params true) (Sample.fresh true)
    [.processBlock (fun _ => Sample.env) none (Sample.chainBlock 2),
      .processBlock (fun _ => Sample.env) none (Sample.chainBlock 1)] 2 ⟨fun _ => ?_, fun _ => ?_, trivial⟩
  · exact ⟨fun _ _ hstake => absurd hstake (Sample.chainBlock_work 2), fun _ => by decide +kernel,
      fun _ haccepted => absurd haccepted (by decide +kernel)⟩
  · exact ⟨fun _ _ hstake => absurd hstake (Sample.chainBlock_work 1), fun _ => by decide +kernel,
      fun _ _ => by decide +kernel⟩

/-- **A kept block can have its predecessor in the index**: the first block
cannot be connected, which `AcceptBlock` finds when it is in the index. The
second block waits for it from then on. -/
theorem kept_with_parent :
    ¬ Orderly (Sample.params true) (play (run (Sample.params true))
      [.processBlock (fun _ => Sample.env) none (Sample.chainBlock 2),
        .processBlock (fun _ => Sample.env) none Sample.brokenBlock] ⟨Sample.fresh true, .empty⟩) := by
  intro horderly
  refine horderly.parents 102 (Sample.chainBlock 2) (by decide +kernel) (by decide +kernel)

end BlockEvent

end Pinkcoin
