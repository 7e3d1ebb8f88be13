/-
The order in which `CreateNewBlock` takes the transactions of the pool. Each
one that may go into the block has its turn once, as soon as those it spends
and that are not on disk are in the block, and never without them.
-/
import Pinkcoin.MinerChecks

namespace Pinkcoin

open MinerState (takeTx collectLoop)

variable {P : Params} {env : Env} {m : MinerEnv} {s : Node} {branch : List CBlockIndex} {st st' : MinerState}
  {tx : CTransaction}

/-- The loop with the transactions that have their turn in it. -/
inductive Turns (P : Params) (env : Env) (m : MinerEnv) (s : Node) (branch : List CBlockIndex) :
    MinerState → List CTransaction → MinerState → Prop
  | done {st : MinerState} (hready : st.queue.ready = []) : Turns P env m s branch st [] st
  | turn {st st₁ st' : MinerState} {tx : CTransaction} {ready txs : List CTransaction}
      (hready : st.queue.ready = tx :: ready)
      (hturn : takeTx P env m s branch (st.pop (tx :: ready) (m.front st.fSortedByFee tx ready))
        ((tx :: ready).get (m.front st.fSortedByFee tx ready)) = some st₁)
      (hrest : Turns P env m s branch st₁ txs st') :
      Turns P env m s branch st ((tx :: ready).get (m.front st.fSortedByFee tx ready) :: txs) st'

/-- What a transaction waits for. -/
def CTransaction.dependsOn (env : Env) (s : Node) (tx : CTransaction) : Finset Uint256 := (waitInputs env s tx.vin ∅).1

/-- The hashes of the transactions in the block. -/
def MinerState.hashes (P : Params) (st : MinerState) : Finset Uint256 := (st.vtx.map (CTransaction.getHash P)).toFinset

def eligible (env : Env) (s : Node) (txs : List CTransaction) : List CTransaction :=
  txs.filter fun tx => decide (tx.isEligible env s)

/-- The queue of a state, after the turns of `taken`. -/
def Queued (P : Params) (env : Env) (s : Node) (taken : List CTransaction) (st : MinerState) : Prop :=
  ReadyQueue.Tracks (CTransaction.dependsOn env s) (eligible env s s.mempool.txs) (st.hashes P) taken st.queue

/-! ## What waits -/

/-- Without a missing input, a transaction waits for all that is not on disk. -/
theorem waitInputs_spec {vin : List CTxIn} {setDependsOn : Finset Uint256}
    (hinputs : ∀ txin ∈ vin, (s.readPrevout env txin.prevout).isSome ∨ (s.mempool.lookup txin.prevout.hash).isSome) :
    (waitInputs env s vin setDependsOn).2 = false ∧ ∀ hash, hash ∈ (waitInputs env s vin setDependsOn).1 ↔
      hash ∈ setDependsOn ∨ ∃ txin ∈ vin, (s.readPrevout env txin.prevout).isNone ∧ txin.prevout.hash = hash := by
  induction vin generalizing setDependsOn with
  | nil => simp [waitInputs]
  | cons txin vin ih =>
    have hrest := fun setDependsOn => @ih setDependsOn fun txin h => hinputs txin (List.mem_cons_of_mem _ h)
    rw [waitInputs]
    cases hdisk : s.readPrevout env txin.prevout with
    | some prev => simpa [hdisk] using hrest setDependsOn
    | none =>
      have hpool := (hinputs txin (List.mem_cons_self ..)).resolve_left (by simp [hdisk])
      rw [if_neg (by simp), if_neg (by simpa using Option.isSome_iff_ne_none.mp hpool)]
      refine ⟨(hrest _).1, fun hash => ?_⟩
      rw [(hrest _).2, Finset.mem_insert]
      simp only [List.mem_cons, exists_eq_or_imp, hdisk, Option.isNone_none, true_and, @eq_comm _ hash]
      tauto

theorem queued_start (hinputs : ∀ tx ∈ s.mempool.txs, tx.isEligible env s → ∀ txin ∈ tx.vin,
      (s.readPrevout env txin.prevout).isSome ∨ (s.mempool.lookup txin.prevout.hash).isSome) :
    Queued P env s [] (MinerState.start env m s) := by
  have hall : ∀ txs before : List CTransaction, (∀ tx ∈ txs, tx ∈ s.mempool.txs) → ∀ queue : TxQueue,
      ReadyQueue.Tracks (CTransaction.dependsOn env s) (eligible env s before) ∅ [] queue →
      ReadyQueue.Tracks (CTransaction.dependsOn env s) (eligible env s (before ++ txs)) ∅ []
        (txs.foldl (queueTx env s) queue) := by
    intro txs
    induction txs with
    | nil => simp
    | cons tx txs ih =>
      intro before hmem queue h
      rw [List.foldl_cons, List.append_cons]
      refine ih _ (fun u hu => hmem u (List.mem_cons_of_mem _ hu)) _ ?_
      unfold queueTx
      by_cases hel : tx.isEligible env s
      · have hnone := (@waitInputs_spec env s _ ∅ (hinputs tx (hmem tx (List.mem_cons_self ..)) hel)).1
        simpa [eligible, hel, hnone, CTransaction.dependsOn] using h.enter tx
      · simpa [eligible, hel] using h
  exact hall s.mempool.txs [] (fun _ h => h) _ ReadyQueue.tracks_empty

/-! ## One turn -/

/-- A turn ends, and what it adds releases what waits for it. -/
theorem Queued.takeTx {taken : List CTransaction} (h : Queued P env s taken st) (tx : CTransaction) :
    ∃ st', MinerState.takeTx P env m s branch st tx = some st' ∧ Queued P env s taken st' := by
  unfold MinerState.takeTx
  by_cases hfits : st.fits env m tx
  · rw [if_pos hfits]
    cases hadd : (st.resort m tx).addTx P env s branch tx with
    | error err => exact ⟨_, rfl, h⟩
    | ok st₁ =>
      obtain ⟨_, q, -, -, -, rfl⟩ := addTx_ok hadd
      obtain ⟨queue, hrun, hq⟩ := ReadyQueue.Tracks.finish h (tx.getHash P)
      have hdone : insert (tx.getHash P) (st.hashes P) =
          ((st.vtx ++ [tx]).map (CTransaction.getHash P)).toFinset := by simp [MinerState.hashes]
      refine ⟨_, Option.map_eq_some_iff.mpr ⟨queue, hrun, rfl⟩, ?_⟩
      rw [hdone] at hq
      exact hq
  · rw [if_neg hfits]
    exact ⟨st, rfl, h⟩

/-! ## The run -/

theorem Queued.collectLoop {fuel : Nat} {taken : List CTransaction} (h : Queued P env s taken st)
    (hfuel : (eligible env s s.mempool.txs).length ≤ fuel + taken.length) :
    ∃ st' txs, MinerState.collectLoop P env m s branch fuel st = some st' ∧ Turns P env m s branch st txs st' ∧
      st'.queue.ready = [] ∧ Queued P env s (taken ++ txs) st' := by
  induction fuel generalizing st taken with
  | zero =>
    have hlen := h.all.length_eq
    have hready : st.queue.ready = [] := by
      simp only [List.length_append] at hlen
      exact List.eq_nil_of_length_eq_zero (by omega)
    exact ⟨st, [], by simp [MinerState.collectLoop, hready], .done hready, hready, by simpa using h⟩
  | succ fuel ih =>
    cases hready : st.queue.ready with
    | nil => exact ⟨st, [], by simp [MinerState.collectLoop, hready], .done hready, hready, by simpa using h⟩
    | cons tx ready =>
      have hperm : st.queue.ready.Perm ((tx :: ready).get (m.front st.fSortedByFee tx ready) ::
          (tx :: ready).eraseIdx (m.front st.fSortedByFee tx ready)) := by
        rw [hready]
        exact (List.getElem_cons_eraseIdx_perm _).symm
      have hpop : Queued P env s (taken ++ [(tx :: ready).get (m.front st.fSortedByFee tx ready)])
          (st.pop (tx :: ready) (m.front st.fSortedByFee tx ready)) := h.take hperm
      obtain ⟨st₁, hturn, h₁⟩ := @Queued.takeTx P env m s branch _ _ hpop
        ((tx :: ready).get (m.front st.fSortedByFee tx ready))
      obtain ⟨st', txs, hrun, hturns, hend, h'⟩ := ih h₁ (by simp; omega)
      refine ⟨st', _, ?_, .turn hready hturn hturns, hend, by simpa using h'⟩
      rw [MinerState.collectLoop, hready]
      exact Option.bind_eq_some_iff.mpr ⟨st₁, hturn, hrun⟩

theorem nodup_txs (hkeyed : ∀ hash tx, s.mempool.lookup hash = some tx → tx.getHash P = hash) :
    s.mempool.txs.Nodup := by
  have hkeys : s.mempool.txs.map (CTransaction.getHash P) = s.mempool.mapTx.keys := by
    rw [CTxMemPool.txs, List.map_map, AList.keys]
    refine List.map_congr_left fun entry hentry => ?_
    exact hkeyed entry.1 entry.2 (AList.mem_lookup_iff.mpr hentry)
  refine List.Nodup.of_map (CTransaction.getHash P) ?_
  rw [hkeys]
  exact s.mempool.mapTx.keys_nodup

/-- **Each transaction has its turn once.** Where the inputs of the pool are on
disk or in the pool, the loop ends, and the transactions that have had their
turn are those that may go into the block and whose parents are in it. -/
theorem collect_turns (hkeyed : ∀ hash tx, s.mempool.lookup hash = some tx → tx.getHash P = hash)
    (hinputs : ∀ tx ∈ s.mempool.txs, tx.isEligible env s → ∀ txin ∈ tx.vin,
      (s.readPrevout env txin.prevout).isSome ∨ (s.mempool.lookup txin.prevout.hash).isSome) :
    ∃ st txs, collect P env m s branch = some st ∧ Turns P env m s branch (MinerState.start env m s) txs st ∧
      txs.Nodup ∧ ∀ tx, tx ∈ txs ↔ tx ∈ s.mempool.txs ∧ tx.isEligible env s ∧ ∀ txin ∈ tx.vin,
        (s.readPrevout env txin.prevout).isNone → ∃ u ∈ st.vtx, u.getHash P = txin.prevout.hash := by
  have hstart : Queued P env s [] (MinerState.start env m s) := queued_start hinputs
  obtain ⟨st, txs, hrun, hturns, hready, h⟩ := @Queued.collectLoop P env m s branch _ s.mempool.txs.length _ hstart
    (by simpa [eligible] using List.length_filter_le _ _)
  rw [List.nil_append] at h
  have hnodup := h.all.nodup_iff.mpr ((nodup_txs hkeyed).filter _)
  rw [hready, List.nil_append] at hnodup
  refine ⟨st, txs, hrun, hturns, hnodup.of_append_left, fun tx => ?_⟩
  have hmem := h.mem_iff tx
  rw [hready, List.nil_append, eligible, List.mem_filter, decide_eq_true_eq, and_assoc] at hmem
  refine hmem.trans (and_congr_right fun htx => and_congr_right fun hel => ?_)
  have hspec := (@waitInputs_spec env s _ ∅ (hinputs tx htx hel)).2
  rw [Finset.subset_iff]
  constructor
  · intro hsub txin hin hdisk
    have hdone := hsub ((hspec _).mpr (.inr ⟨txin, hin, hdisk, rfl⟩))
    simpa [MinerState.hashes] using hdone
  · intro hparents hash hwait
    obtain ⟨txin, hin, hdisk, rfl⟩ := ((hspec hash).mp hwait).resolve_left (by simp)
    simpa [MinerState.hashes] using hparents txin hin hdisk

namespace Sample

/-- Of the two transactions of the pool, one waits for the other. -/
theorem collect_turns_sample : (queuePool Sample.env pooled).waiters.length = 1 ∧
    ∃ st txs, collect (params true) Sample.env miner pooled [] = some st ∧
      Turns (params true) Sample.env miner pooled [] (MinerState.start Sample.env miner pooled) txs st ∧ txs.Nodup ∧
      ∀ tx, tx ∈ txs ↔ tx ∈ pooled.mempool.txs ∧ tx.isEligible Sample.env pooled ∧ ∀ txin ∈ tx.vin,
        (pooled.readPrevout Sample.env txin.prevout).isNone →
          ∃ u ∈ st.vtx, u.getHash (params true) = txin.prevout.hash :=
  ⟨by decide +kernel, collect_turns poolReady_pooled.keyed (by decide +kernel)⟩

end Sample

end Pinkcoin
