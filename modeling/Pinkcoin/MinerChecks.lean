/-
What `CreateNewBlock` collects, `ConnectBlock` connects. The records of the
block's own transactions stand for the memory pool while it is made and for
the block once it is on disk, so the two read the same transactions and spend
the same outputs, and where one of the checks differs it is the stricter that
is made first.
-/
import Mathlib.Data.List.TakeWhile
import Pinkcoin.Lib.TwoRuns
import Pinkcoin.Miner
import Pinkcoin.JustCheck
import Pinkcoin.PoolFacts

namespace Pinkcoin

open StateError TwoRuns

/-! ## Records that stand for the same transaction -/

/-- The node that makes a block on top of a branch, and the one that connects
it, with its record, its coinbase, and where that lies. -/
structure Sides where
  P : Params
  env : Env
  env' : Env
  s : Node
  s' : Node
  branch : List CBlockIndex
  pindex : CBlockIndex
  coinbase : CTransaction
  nTxPos : Nat

/-- The records from the block back. -/
abbrev Sides.branch' (v : Sides) : List CBlockIndex := v.s'.branchOf v.pindex

/-- Where a transaction of the block lies. -/
abbrev Sides.posAt (v : Sides) (nTxPos : Nat) : CDiskTxPos := ⟨v.pindex.nFile, v.pindex.nBlockPos, nTxPos⟩

section Sides

variable (v : Sides)

/-- The record on the right has the same outputs spent, the transaction of the
left one is found at its position, and is mature where it was. -/
structure Stands (hash : Uint256) (e e' : CTxIndex) : Prop where
  spent : e.vSpent.map Option.isSome = e'.vSpent.map Option.isSome
  read : ∀ tx, v.s.txAt v.env hash e.pos = some tx → v.s'.txAt v.env' hash e'.pos = some tx ∧
    (tx.isCoinBase ∨ tx.isCoinStake → CTransaction.isImmature v.P v.branch' e' → CTransaction.isImmature v.P v.branch e)

/-- What is found on the left is found on the right. -/
def QueueStands (queue queue' : Map Uint256 CTxIndex) : Prop :=
  ∀ hash e, (queue.lookup hash).or (v.s.txdb.readTxIndex hash) = some e →
    ∃ e', (queue'.lookup hash).or (v.s'.txdb.readTxIndex hash) = some e' ∧ Stands v hash e e'

/-- A previous transaction with its record on both sides. -/
structure PrevStands (hash : Uint256) (prev prev' : CTxIndex × CTransaction) : Prop where
  record : Stands v hash prev.1 prev'.1
  found : v.s.txAt v.env hash prev.1.pos = some prev.2
  tx : prev.2 = prev'.2

def InputsStand (inputs inputs' : MapPrevTx) : Prop :=
  ∀ hash, Option.Rel (PrevStands v hash) (inputs.lookup hash) (inputs'.lookup hash)

end Sides

variable {P : Params} {env env' : Env} {s s' : Node} {branch : List CBlockIndex} {v : Sides} {hash : Uint256}
  {e e' : CTxIndex} {queue queue' : Map Uint256 CTxIndex} {inputs inputs' : MapPrevTx} {tx : CTransaction}
  {txin : CTxIn} {pos pos' : CDiskTxPos}

namespace Stands

theorem length (h : Stands v hash e e') : e.vSpent.length = e'.vSpent.length := by
  have hlen := congrArg List.length h.spent
  simpa using hlen

theorem isSpent (h : Stands v hash e e') (n : Nat) :
    (∃ spent ∈ e'.vSpent[n]?, spent.isSome) → ∃ spent ∈ e.vSpent[n]?, spent.isSome := by
  have hget : ∀ e : CTxIndex, (∃ spent ∈ e.vSpent[n]?, spent.isSome) ↔
      (e.vSpent.map Option.isSome)[n]? = some true := by
    intro e
    simp
  rw [hget, hget, h.spent]
  exact id

/-- Spending an output on both sides. -/
theorem spend (h : Stands v hash e e') (n : Nat) :
    Stands v hash { e with vSpent := e.vSpent.set n (some pos) }
      { e' with vSpent := e'.vSpent.set n (some pos') } where
  spent := by simp [List.map_set, h.spent]
  read := h.read

end Stands

theorem QueueStands.insert (h : QueueStands v queue queue')
    (hrec : Stands v hash e e') :
    QueueStands v (queue.insert hash e) (queue'.insert hash e') := by
  intro k x hx
  by_cases hk : k = hash
  · subst hk
    rw [AList.lookup_insert, Option.some_or, Option.some.injEq] at hx
    exact ⟨e', by rw [AList.lookup_insert, Option.some_or], hx ▸ hrec⟩
  · rw [AList.lookup_insert_ne hk] at hx ⊢
    exact h k x hx

theorem InputsStand.insert {prev prev' : CTxIndex × CTransaction}
    (h : InputsStand v inputs inputs')
    (hprev : PrevStands v hash prev prev') :
    InputsStand v (inputs.insert hash prev) (inputs'.insert hash prev') := by
  intro k
  by_cases hk : k = hash
  · subst hk
    rw [AList.lookup_insert, AList.lookup_insert]
    exact .some hprev
  · rw [AList.lookup_insert_ne hk, AList.lookup_insert_ne hk]
    exact h k

/-- What both sides find under a hash. -/
theorem InputsStand.lookup_cases (h : InputsStand v inputs inputs') (hash : Uint256) :
    (inputs.lookup hash = none ∧ inputs'.lookup hash = none) ∨
      ∃ e e' txPrev, inputs.lookup hash = some (e, txPrev) ∧ inputs'.lookup hash = some (e', txPrev) ∧
        v.s.txAt v.env hash e.pos = some txPrev ∧ Stands v hash e e' := by
  have hrel := h hash
  generalize hx : inputs.lookup hash = x at hrel
  generalize hx' : inputs'.lookup hash = x' at hrel
  cases hrel with
  | none => exact .inl ⟨rfl, rfl⟩
  | @some prev prev' hprev =>
    obtain ⟨e, txPrev⟩ := prev
    obtain ⟨e', txPrev'⟩ := prev'
    obtain rfl : txPrev = txPrev' := hprev.tx
    exact .inr ⟨e, e', txPrev, rfl, rfl, hprev.found, hprev.record⟩

/-! ## Fetching -/

/-- A miner and a block fetch alike. -/
theorem fetchPrev_miner {prev : CTxIndex × CTransaction}
    (h : CTransaction.fetchPrev v.env v.s queue false true hash = .ok prev) :
    CTransaction.fetchPrev v.env v.s queue true false hash = .ok prev := by
  unfold CTransaction.fetchPrev at h ⊢
  simp only [Bool.or_true, Bool.or_false, if_true] at h ⊢
  cases hfound : (queue.lookup hash).or (v.s.txdb.readTxIndex hash) with
  | none => simp [hfound] at h
  | some e =>
    rw [hfound] at h
    exact h

theorem fetchPrev_follows (h : QueueStands v queue queue') :
    Follows (PrevStands v hash) (CTransaction.fetchPrev v.env v.s queue false true hash)
      (CTransaction.fetchPrev v.env' v.s' queue' true false hash) := by
  intro prev hprev
  obtain ⟨hfound, hread⟩ := CTransaction.fetchPrev_ok.mp (fetchPrev_miner hprev)
  obtain ⟨e', hfound', hstands⟩ := h hash prev.1 hfound
  exact ⟨(e', prev.2), CTransaction.fetchPrev_ok.mpr ⟨hfound', (hstands.read _ hread).1⟩, hstands, hread, rfl⟩

theorem fetchLoop_follows (h : QueueStands v queue queue') {vin : List CTxIn}
    (hin : InputsStand v inputs inputs') :
    Follows (InputsStand v) (CTransaction.fetchLoop v.env v.s queue false true vin inputs)
      (CTransaction.fetchLoop v.env' v.s' queue' true false vin inputs') := by
  induction vin generalizing inputs inputs' with
  | nil => exact follows_pure hin
  | cons txin vin ih =>
    rw [CTransaction.fetchLoop, CTransaction.fetchLoop]
    cases hin.lookup_cases txin.prevout.hash with
    | inl hnone =>
      simp only [hnone.1, hnone.2, Option.isSome_none, Bool.false_eq_true, if_false]
      exact follows_bind (fetchPrev_follows h) fun prev prev' hprev => ih (hin.insert hprev)
    | inr hsome =>
      obtain ⟨e, e', txPrev, hx, hx', -⟩ := hsome
      simp only [hx, hx', Option.isSome_some, if_true]
      exact ih hin

theorem prevoutInRange_stands (h : InputsStand v inputs inputs') :
    CTransaction.prevoutInRange inputs txin ↔ CTransaction.prevoutInRange inputs' txin := by
  unfold CTransaction.prevoutInRange
  cases h.lookup_cases txin.prevout.hash with
  | inl hnone => rw [hnone.1, hnone.2]
  | inr hsome =>
    obtain ⟨e, e', txPrev, hx, hx', -, hstands⟩ := hsome
    simp only [hx, hx', Option.mem_some_iff, exists_eq_left', hstands.length]

theorem fetchInputs_follows (h : QueueStands v queue queue') :
    Follows (InputsStand v) (tx.fetchInputs v.env v.s queue false true)
      (tx.fetchInputs v.env' v.s' queue' true false) := by
  have hempty : InputsStand v ∅ ∅ := fun _ => .none
  unfold CTransaction.fetchInputs
  by_cases hcb : tx.isCoinBase
  · simp only [if_pos hcb]
    exact follows_pure hempty
  · simp only [if_neg hcb]
    refine follows_bind (fetchLoop_follows h hempty) fun inputs inputs' hin => ?_
    refine follows_bind (follows_rejectIf _ _ fun hrange => ?_) fun _ _ _ => follows_pure hin
    simpa only [prevoutInRange_stands hin] using hrange

/-! ## Spending -/

theorem getOutputFor_stands (h : InputsStand v inputs inputs') (txin : CTxIn) :
    CTransaction.getOutputFor inputs txin = CTransaction.getOutputFor inputs' txin := by
  unfold CTransaction.getOutputFor
  cases h.lookup_cases txin.prevout.hash with
  | inl hnone => rw [hnone.1, hnone.2]
  | inr hsome =>
    obtain ⟨e, e', txPrev, hx, hx', -⟩ := hsome
    rw [hx, hx', Option.bind_some, Option.bind_some]

theorem valueFor_stands (h : InputsStand v inputs inputs') :
    CTransaction.valueFor inputs = CTransaction.valueFor inputs' := by
  funext txin
  rw [CTransaction.valueFor, CTransaction.valueFor, getOutputFor_stands h]

theorem checkInputs_follows (h : InputsStand v inputs inputs') {vin : List CTxIn}
    {nValueIn : Int} : Follows Eq (CTransaction.checkInputs v.P v.branch tx inputs vin nValueIn)
      (CTransaction.checkInputs v.P v.branch' tx inputs' vin nValueIn) := by
  induction vin generalizing nValueIn with
  | nil => exact follows_pure rfl
  | cons txin vin ih =>
    rw [CTransaction.checkInputs, CTransaction.checkInputs]
    cases h.lookup_cases txin.prevout.hash with
    | inl hnone =>
      simp only [hnone.1]
      exact follows_throw _
    | inr hsome =>
      obtain ⟨e, e', txPrev, hx, hx', hfound, hstands⟩ := hsome
      simp only [hx, hx', valueFor_stands h]
      refine follows_bind (follows_rejectIf _ _ (mt (prevoutInRange_stands h).mp)) fun _ _ _ => ?_
      refine follows_bind (follows_rejectIf _ _ fun hnew => ?_) fun _ _ _ => ?_
      · exact ⟨hnew.1, (hstands.read _ hfound).2 hnew.1 hnew.2⟩
      refine follows_bind (follows_rejectIf _ _ id) fun _ _ _ => ?_
      exact follows_bind (follows_rejectIf _ _ id) fun _ _ _ => ih

theorem spendInputs_follows {vin : List CTxIn} {i : Nat} (hin : InputsStand v inputs inputs')
    (h : QueueStands v queue queue') :
    Follows (QueueStands v) (CTransaction.spendInputs v.P v.s pos false true tx vin i inputs queue)
      (CTransaction.spendInputs v.P v.s' pos' true false tx vin i inputs' queue') := by
  induction vin generalizing i inputs inputs' queue queue' with
  | nil => exact follows_pure h
  | cons txin vin ih =>
    rw [CTransaction.spendInputs, CTransaction.spendInputs]
    cases hin.lookup_cases txin.prevout.hash with
    | inl hnone =>
      simp only [hnone.1]
      exact follows_throw _
    | inr hsome =>
      obtain ⟨e, e', txPrev, hx, hx', hfound, hstands⟩ := hsome
      simp only [hx, hx', Bool.true_or, Bool.or_true, if_true]
      refine follows_bind (follows_rejectIf _ _ (hstands.isSpent _)) fun _ _ _ => ?_
      -- the miner asks for the signature below a checkpoint too
      refine follows_bind (follows_rejectIf _ _ fun hnew => ⟨by simp, hnew.2⟩) fun _ _ _ => ?_
      exact ih (hin.insert ⟨hstands.spend _, hfound, rfl⟩) (h.insert (hstands.spend _))

theorem checkFees_follows {nValueIn : Int} :
    Follows (fun _ _ => True) (CTransaction.checkFees false tx nValueIn) (CTransaction.checkFees true tx nValueIn) := by
  unfold CTransaction.checkFees
  by_cases hstake : tx.isCoinStake
  · simp only [hstake, not_true_eq_false, if_false]
    exact follows_pure trivial
  · simp only [hstake, not_false_eq_true, if_true]
    refine follows_bind (follows_rejectIf _ _ id) fun _ _ _ => ?_
    refine follows_bind (follows_rejectIf _ _ id) fun _ _ _ => ?_
    exact follows_bind (follows_rejectIf _ _ id) fun _ _ _ => follows_rejectIf _ _ id

theorem connectInputs_follows (hin : InputsStand v inputs inputs')
    (h : QueueStands v queue queue') :
    Follows (QueueStands v) (tx.connectInputs v.P v.s pos v.branch false true inputs queue)
      (tx.connectInputs v.P v.s' pos' v.branch' true false inputs' queue') := by
  unfold CTransaction.connectInputs
  by_cases hcb : tx.isCoinBase
  · simp only [if_pos hcb]
    exact follows_pure h
  · simp only [if_neg hcb]
    refine follows_bind (checkInputs_follows hin) fun nValueIn _ heq => ?_
    obtain rfl := heq
    refine follows_bind (spendInputs_follows hin h) fun q q' hq => ?_
    exact follows_bind checkFees_follows fun _ _ _ => follows_pure hq

/-! ## One turn -/

/-- The local variables of both loops. -/
structure AccStands (v : Sides) (st : MinerState) (acc : ConnectAcc) : Prop where
  queue : QueueStands v st.mapTestPool acc.mapQueuedChanges
  nFees : acc.nFees = st.nFees
  nSigOps : acc.nSigOps ≤ st.nBlockSigOps

/-- A transaction of the pool that may go into a block. -/
structure Poolable (v : Sides) (tx : CTransaction) : Prop where
  eligible : tx.isEligible v.env v.s
  new : ¬ ∃ txindexOld ∈ v.s'.txdb.readTxIndex (tx.getHash v.P), none ∈ txindexOld.vSpent
  pooled : v.s.mempool.lookup (tx.getHash v.P) = some tx

variable {st st' : MinerState} {acc : ConnectAcc} {nTxPos : Nat}

/-- The record a transaction gets on both sides. -/
theorem stands_fresh (h : Poolable v tx)
    (hdisk : v.s'.txAt v.env' (tx.getHash v.P) (some (v.posAt nTxPos)) = some tx) (n : Nat) :
    Stands v (tx.getHash v.P) (CTxIndex.fresh poolPos n)
      (CTxIndex.fresh (v.posAt nTxPos) n) := by
  refine ⟨by simp [CTxIndex.fresh], fun u hu => ?_⟩
  have hpool : v.s.txAt v.env (tx.getHash v.P) (CTxIndex.fresh poolPos n).pos = some tx := (if_pos rfl).trans h.pooled
  obtain rfl : tx = u := Option.some.inj (hpool.symm.trans hu)
  exact ⟨hdisk, fun hgen => absurd hgen (not_or.mpr ⟨h.eligible.1, h.eligible.2.1⟩)⟩

/-- What a transaction that is added went through. -/
theorem addTx_ok (h : st.addTx P env s branch tx = .ok st') : ∃ inputs q,
    tx.fetchInputs env s st.mapTestPool false true = .ok inputs ∧
    st.nBlockSigOps + (tx.getLegacySigOpCount + tx.getP2SHSigOpCount inputs) < MAX_BLOCK_SIGOPS ∧
    tx.connectInputs P s poolPos branch false true inputs st.mapTestPool = .ok q ∧
    st' = { st with
      mapTestPool := q.insert (tx.getHash P) (CTxIndex.fresh poolPos tx.vout.length)
      vtx := st.vtx ++ [tx]
      nBlockSize := st.nBlockSize + tx.getSerializeSize
      nBlockSigOps := st.nBlockSigOps + (tx.getLegacySigOpCount + tx.getP2SHSigOpCount inputs)
      nFees := st.nFees + (tx.getValueIn inputs - tx.getValueOut) } := by
  unfold MinerState.addTx at h
  cases hfetch : tx.fetchInputs env s st.mapTestPool false true with
  | error err => simp [hfetch] at h
  | ok inputs =>
    simp only [hfetch, except_bind_ok, except_rejectIf_ok, exists_const, not_le] at h
    obtain ⟨-, hsig, h⟩ := h
    cases hconnect : tx.connectInputs P s poolPos branch false true inputs st.mapTestPool with
    | error err => simp [hconnect] at h
    | ok q =>
      simp only [hconnect, except_pure_ok] at h
      exact ⟨inputs, q, rfl, hsig, hconnect, h.symm⟩

/-- **What is added can be connected**, with the same fees. -/
theorem addTx_follows (h : AccStands v st acc) (htx : Poolable v tx)
    (hdisk : v.s'.txAt v.env' (tx.getHash v.P) (some (v.posAt acc.nTxPos)) = some tx) :
    Follows (fun st' acc' => AccStands v st' acc' ∧ acc'.nTxPos = acc.nTxPos + tx.getSerializeSize)
      (st.addTx v.P v.env v.s v.branch tx) (CBlock.connectTx v.P v.env' v.s' v.pindex false acc tx) := by
  intro st' hst
  obtain ⟨inputs, q, hfetch, hsig, hconnect, rfl⟩ := addTx_ok hst
  obtain ⟨inputs', hfetch', hin⟩ := fetchInputs_follows h.queue inputs hfetch
  obtain ⟨q', hconnect', hq⟩ := @connectInputs_follows v _ _ _ _ tx poolPos
    (v.posAt acc.nTxPos) hin h.queue q hconnect
  have hops : tx.getP2SHSigOpCount inputs = tx.getP2SHSigOpCount inputs' := by
    simp only [CTransaction.getP2SHSigOpCount, getOutputFor_stands hin]
  have hvalue : tx.getValueIn inputs = tx.getValueIn inputs' := by
    rw [CTransaction.getValueIn, CTransaction.getValueIn, valueFor_stands hin]
  have hle := h.nSigOps
  rw [hops] at hsig
  obtain ⟨acc', hrun, hqueue, hfees, hnops, hpos⟩ : ∃ acc',
      CBlock.connectTx v.P v.env' v.s' v.pindex false acc tx = .ok acc' ∧
      acc'.mapQueuedChanges = q'.insert (tx.getHash v.P)
        (CTxIndex.fresh (v.posAt acc.nTxPos) tx.vout.length) ∧
      acc'.nFees = acc.nFees + (tx.getValueIn inputs' - tx.getValueOut) ∧
      acc'.nSigOps = acc.nSigOps + tx.getLegacySigOpCount + tx.getP2SHSigOpCount inputs' ∧
      acc'.nTxPos = acc.nTxPos + tx.getSerializeSize := by
    simp only [CBlock.connectTx, CBlock.connectSpends, except_bind_ok, except_rejectIf_ok, if_neg htx.eligible.1,
      if_neg htx.eligible.2.1, hfetch', hconnect', except_pure_ok, exists_const]
    exact ⟨_, ⟨htx.new, by omega, _, ⟨by omega, rfl⟩, rfl⟩, rfl, rfl, rfl, rfl⟩
  refine ⟨acc', hrun, ⟨hqueue ▸ hq.insert (stands_fresh htx hdisk tx.vout.length), ?_, ?_⟩, hpos⟩
  · rw [hfees, h.nFees, hvalue]
  · rw [hnops, hops]
    change _ ≤ st.nBlockSigOps + _
    omega

/-! ## The run -/

/-- Each transaction of a list is found behind those before it. -/
def OnDisk (v : Sides) (vtx : List CTransaction) : Prop :=
  ∀ pre tx post, vtx = pre ++ tx :: post → v.s'.txAt v.env' (tx.getHash v.P)
    (some (v.posAt (v.nTxPos + (pre.map CTransaction.getSerializeSize).sum))) = some tx

/-- The transactions so far can be connected behind the coinbase. -/
structure Connecting (v : Sides) (st : MinerState) : Prop where
  holds : st.queue.Holds (Poolable v)
  poolable : ∀ tx ∈ st.vtx, Poolable v tx
  connects : OnDisk v (v.coinbase :: st.vtx) → ∃ acc,
    CBlock.connectTxs v.P v.env' v.s' v.pindex false (v.coinbase :: st.vtx) ⟨∅, 0, 0, 0, 0, 0, v.nTxPos⟩ = .ok acc ∧
      AccStands v st acc ∧ acc.nTxPos = v.nTxPos + ((v.coinbase :: st.vtx).map CTransaction.getSerializeSize).sum

theorem connectTxs_concat {vtx : List CTransaction} {acc₁ acc₂ : ConnectAcc}
    (h : CBlock.connectTxs P env s pindex false vtx acc = .ok acc₁)
    (htx : CBlock.connectTx P env s pindex false acc₁ tx = .ok acc₂) :
    CBlock.connectTxs P env s pindex false (vtx ++ [tx]) acc = .ok acc₂ := by
  induction vtx generalizing acc with
  | nil =>
    obtain rfl := except_pure_ok.mp h
    exact except_bind_ok.mpr ⟨acc₂, htx, rfl⟩
  | cons u vtx ih =>
    obtain ⟨acc', hu, hrest⟩ := except_bind_ok.mp h
    exact except_bind_ok.mpr ⟨acc', hu, ih hrest⟩

theorem OnDisk.init {vtx : List CTransaction} (h : OnDisk v (vtx ++ [tx])) :
    OnDisk v vtx := by
  intro pre u post hvtx
  exact h pre u (post ++ [tx]) (by simp [hvtx])

variable {m : MinerEnv}

/-- The heap and its order do not matter. -/
theorem Connecting.congr (h : Connecting v st) (hholds : st'.queue.Holds (Poolable v))
    (hpool : st'.mapTestPool = st.mapTestPool) (hvtx : st'.vtx = st.vtx) (hfees : st'.nFees = st.nFees)
    (hops : st'.nBlockSigOps = st.nBlockSigOps) : Connecting v st' := by
  refine ⟨hholds, hvtx ▸ h.poolable, fun hdisk => ?_⟩
  rw [hvtx] at hdisk ⊢
  obtain ⟨acc, hacc, hstands, hpos⟩ := h.connects hdisk
  exact ⟨acc, hacc, ⟨hpool ▸ hstands.queue, hfees ▸ hstands.nFees, hops ▸ hstands.nSigOps⟩, hpos⟩

/-- One turn. -/
theorem Connecting.takeTx (h : Connecting v st)
    (htx : Poolable v tx) (hrun : st.takeTx v.P v.env m v.s v.branch tx = some st') :
    Connecting v st' := by
  have hsort : Connecting v (st.resort m tx) := h.congr h.holds rfl rfl rfl rfl
  unfold MinerState.takeTx at hrun
  by_cases hfits : st.fits v.env m tx
  · rw [if_pos hfits] at hrun
    cases hadd : (st.resort m tx).addTx v.P v.env v.s v.branch tx with
    | error err =>
      rw [hadd, Option.some.injEq] at hrun
      exact hrun ▸ hsort
    | ok st₁ =>
      rw [hadd] at hrun
      obtain ⟨q, hq, rfl⟩ := Option.map_eq_some_iff.mp hrun
      obtain ⟨hvtx, hqueue⟩ : st₁.vtx = st.vtx ++ [tx] ∧ st₁.queue = st.queue := by
        obtain ⟨_, _, -, -, -, rfl⟩ := addTx_ok hadd
        exact ⟨rfl, rfl⟩
      refine ⟨(hqueue ▸ hsort.holds).finish hq, fun u hu => ?_, fun hdisk => ?_⟩
      · change u ∈ st₁.vtx at hu
        rw [hvtx, List.mem_append, List.mem_singleton] at hu
        cases hu with
        | inl hu => exact h.poolable u hu
        | inr hu => exact hu ▸ htx
      change OnDisk v (v.coinbase :: st₁.vtx) at hdisk
      rw [hvtx, ← List.cons_append] at hdisk
      obtain ⟨acc, hacc, hstands, hpos⟩ := hsort.connects hdisk.init
      obtain ⟨acc', hacc', hstands', hpos'⟩ := addTx_follows hstands htx (hpos ▸ hdisk _ tx [] rfl) st₁ hadd
      refine ⟨acc', ?_, ⟨hstands'.queue, hstands'.nFees, hstands'.nSigOps⟩, ?_⟩
      · change CBlock.connectTxs v.P v.env' v.s' v.pindex false (v.coinbase :: st₁.vtx) _ = _
        rw [hvtx, ← List.cons_append]
        exact connectTxs_concat hacc hacc'
      · change _ = v.nTxPos + ((v.coinbase :: st₁.vtx).map CTransaction.getSerializeSize).sum
        rw [hpos', hpos, hvtx]
        simp [Nat.add_assoc, MinerState.resort]
  · rw [if_neg hfits, Option.some.injEq] at hrun
    exact hrun ▸ h

/-- The whole loop. -/
theorem Connecting.collectLoop {fuel : Nat}
    (h : Connecting v st)
    (hrun : st.collectLoop v.P v.env m v.s v.branch fuel = some st') : Connecting v st' := by
  induction fuel generalizing st with
  | zero =>
    by_cases hready : st.queue.ready = []
    · rw [MinerState.collectLoop, if_pos hready, Option.some.injEq] at hrun
      exact hrun ▸ h
    · simp [MinerState.collectLoop, hready] at hrun
  | succ fuel ih =>
    cases hready : st.queue.ready with
    | nil =>
      rw [MinerState.collectLoop, hready, Option.some.injEq] at hrun
      exact hrun ▸ h
    | cons tx ready =>
      rw [MinerState.collectLoop, hready] at hrun
      obtain ⟨st₁, hturn, hrest⟩ := Option.bind_eq_some_iff.mp hrun
      have hpop : Connecting v (st.pop (tx :: ready) (m.front st.fSortedByFee tx ready)) :=
        h.congr ⟨fun u hu => h.holds.ready u (hready ▸ List.mem_of_mem_eraseIdx hu), h.holds.waiting⟩ rfl rfl rfl rfl
      have hmem : (tx :: ready).get (m.front st.fSortedByFee tx ready) ∈ st.queue.ready := by
        rw [hready]
        exact List.get_mem _ _
      exact ih (hpop.takeTx (h.holds.ready _ hmem) hturn) hrest

/-! ## A block that is received -/

/-- The pool of a node: each transaction under its hash, and none that the
index knows with an output left. -/
structure PoolReady (P : Params) (s : Node) : Prop where
  keyed : ∀ hash tx, s.mempool.lookup hash = some tx → tx.getHash P = hash
  new : ∀ hash tx, s.mempool.lookup hash = some tx → ¬ ∃ txindexOld ∈ s.txdb.readTxIndex hash, none ∈ txindexOld.vSpent

/-- A node that has written the block to disk and reads what the one that made
it reads, with the record of the block on top of the tip. -/
structure Receives (env env' : Env) (s s' : Node) (pindexPrev pindex : CBlockIndex) (block : CBlock) : Prop where
  disk : s'.disk = s.disk.append block
  mempool : s'.mempool = s.mempool
  txIndex : ∀ hash, s'.txdb.readTxIndex hash = s.txdb.readTxIndex hash
  reads : ∀ pos, env.txReadable pos → env'.txReadable pos
  readsOwn : ∀ n, env'.txReadable ⟨s.disk.nextFile, s.disk.nextPos, n⟩
  nFile : pindex.nFile = s.disk.nextFile
  nBlockPos : pindex.nBlockPos = s.disk.nextPos
  nHeight : pindex.nHeight = pindexPrev.nHeight + 1
  branch : s'.branchOf pindex = pindex :: s.mapBlockIndex.branch pindexPrev.phashBlock

theorem txs_lookup {pool : CTxMemPool} (h : tx ∈ pool.txs) : ∃ hash, pool.lookup hash = some tx := by
  obtain ⟨entry, hentry, rfl⟩ := List.mem_map.mp h
  exact ⟨entry.1, AList.mem_lookup_iff.mpr hentry⟩

theorem queueTx_holds {I : CTransaction → Prop} (htx : tx.isEligible env s → I tx) {queue : TxQueue}
    (h : queue.Holds I) : (queueTx env s queue tx).Holds I := by
  unfold queueTx
  by_cases hel : tx.isEligible env s
  · rw [if_pos hel]
    split
    · exact h.giveUp (htx hel)
    · exact h.enter (htx hel)
  · rw [if_neg hel]
    exact h

theorem queuePool_holds {I : CTransaction → Prop} (hI : ∀ tx ∈ s.mempool.txs, tx.isEligible env s → I tx) :
    (queuePool env s).Holds I := by
  have hall : ∀ (txs : List CTransaction) (queue : TxQueue), (∀ tx ∈ txs, tx.isEligible env s → I tx) → queue.Holds I →
      (txs.foldl (queueTx env s) queue).Holds I := by
    intro txs
    induction txs with
    | nil => exact fun queue _ h => h
    | cons tx txs ih =>
      intro queue htxs h
      exact ih _ (fun u hu => htxs u (List.mem_cons_of_mem tx hu)) (queueTx_holds (htxs tx (List.mem_cons_self ..)) h)
  exact hall _ _ hI ReadyQueue.holds_empty

/-! ## The coinbase -/

section

open CScript

theorem sigOpLoop_nil (fuel lastOpcode n : Nat) : sigOpLoop false fuel lastOpcode [] n = n := by
  cases fuel with
  | zero => rfl
  | succ fuel => rfl

/-- An operation that is no signature check. -/
theorem sigOpLoop_skip {fuel lastOpcode opcode n : Nat} {pc pc' : CScript} {data : List UInt8}
    (h : getOp pc = some (opcode, data, pc')) (hop : opcode < OP_CHECKSIG) :
    sigOpLoop false (fuel + 1) lastOpcode pc n = sigOpLoop false fuel opcode pc' n := by
  have hnot : opcode ≠ OP_CHECKSIG ∧ opcode ≠ OP_CHECKSIGVERIFY ∧ opcode ≠ OP_CHECKMULTISIG ∧
      opcode ≠ OP_CHECKMULTISIGVERIFY := by
    simp only [OP_CHECKSIG, OP_CHECKSIGVERIFY, OP_CHECKMULTISIG, OP_CHECKMULTISIGVERIFY] at hop ⊢
    omega
  simp [sigOpLoop, h, hnot]

theorem getSigOpCount_push {b : List UInt8} (h : b.length < 2 ^ 32) : getSigOpCount (push b) false = 0 := by
  obtain ⟨opcode, hle, hget⟩ := @getOp_push_append b [] h
  rw [List.append_nil] at hget
  have hop : opcode < OP_CHECKSIG := lt_of_le_of_lt hle (by decide)
  rw [getSigOpCount]
  generalize (push b).length = fuel
  cases fuel with
  | zero => rfl
  | succ fuel => rw [sigOpLoop_skip hget hop, sigOpLoop_nil]

theorem getSigOpCount_payToKeyID (id : CKeyID) : getSigOpCount (payToKeyID id) false = 1 := by
  have hlen : id.toList.length = 20 := id.toList_length
  have htail : ∀ rest, ∃ opcode ≤ OP_PUSHDATA4, getOp (push id.toList ++ rest) = some (opcode, id.toList, rest) :=
    fun rest => getOp_push_append (by omega)
  obtain ⟨opcode, hle, hget⟩ := htail ([OP_EQUALVERIFY, OP_CHECKSIG].map UInt8.ofNat)
  have hop : opcode < OP_CHECKSIG := lt_of_le_of_lt hle (by decide)
  have hsize : (payToKeyID id).length = 25 := by simp [payToKeyID, push, OP_PUSHDATA1, hlen]
  have hdup : getOp (payToKeyID id) = some (OP_DUP, [],
      UInt8.ofNat OP_HASH160 :: (push id.toList ++ [OP_EQUALVERIFY, OP_CHECKSIG].map UInt8.ofNat)) := rfl
  have hhash : OP_HASH160 < OP_CHECKSIG := by decide
  rw [getSigOpCount, hsize, sigOpLoop_skip hdup (by decide), sigOpLoop_skip rfl hhash, sigOpLoop_skip hget hop]
  rfl

theorem getSigOpCount_pushInt64 {n : Nat} (h : n < 2 ^ 31) : getSigOpCount (pushInt64 n) false = 0 := by
  unfold pushInt64
  by_cases hsmall : 1 ≤ n ∧ n ≤ 16
  · rw [if_pos hsmall]
    have hall : ∀ n ∈ List.range 17, getSigOpCount [UInt8.ofNat (n + (OP_1 - 1))] false = 0 := by decide
    exact hall n (List.mem_range.mpr (by omega))
  · rw [if_neg hsmall]
    refine getSigOpCount_push ?_
    rw [length_leBytes, vchSize]
    by_cases hzero : n = 0
    · simp [hzero]
    · have hlog : Nat.log2 n < 31 := (Nat.log2_lt hzero).mpr h
      rw [if_neg hzero]
      omega

end

theorem txNew_ok {nHeight : Nat} {nValue : Int} (hheight : nHeight < 2 ^ 31)
    (h : m.txNew env nHeight nValue = some tx) :
    tx.isCoinBase ∧ tx.getLegacySigOpCount ≤ 1 ∧ tx.nLockTime = 0 ∧
      (m.fProofOfStake = false → tx.getValueOut = nValue) := by
  unfold MinerEnv.txNew at h
  by_cases hstake : m.fProofOfStake
  · rw [if_pos hstake, Option.some.injEq] at h
    subst h
    refine ⟨by simp [CTransaction.isCoinBase, COutPoint.isNull], ?_, rfl, by simp [hstake]⟩
    have hnone : CScript.getSigOpCount [] false = 0 := rfl
    simp [CTransaction.getLegacySigOpCount, COINBASE_FLAGS, getSigOpCount_pushInt64 hheight, CTxOut.empty, hnone]
  · rw [if_neg hstake] at h
    obtain ⟨id, -, rfl⟩ := Option.map_eq_some_iff.mp h
    refine ⟨by simp [CTransaction.isCoinBase, COutPoint.isNull], ?_, rfl, fun _ => by simp [CTransaction.getValueOut]⟩
    have hsig : CScript.getSigOpCount (setDestination (.keyID id)) false = 1 := getSigOpCount_payToKeyID id
    have hnone : CScript.getSigOpCount [] false = 0 := rfl
    simp [CTransaction.getLegacySigOpCount, hsig, hnone]

theorem createNewBlock_ok {block : CBlock} {nFees : Int} (h : createNewBlock P env m s = some (block, nFees)) :
    ∃ pindexPrev st txNew, s.best = some pindexPrev ∧
      collect P env m s (s.mapBlockIndex.branch pindexPrev.phashBlock) = some st ∧
      m.txNew env (pindexPrev.nHeight + 1) (getProofOfWorkReward (pindexPrev.nHeight + 1) st.nFees) = some txNew ∧
      (∃ block₀ : CBlock, block₀.vtx = txNew :: st.vtx ∧
        block = block₀.fillTime env m (s.mapBlockIndex.branch pindexPrev.phashBlock) pindexPrev) ∧
      nFees = st.nFees := by
  simp only [createNewBlock, Option.bind_eq_bind, Option.bind_eq_some_iff, Option.pure_def, Option.some.injEq,
    Prod.mk.injEq] at h
  obtain ⟨pindexPrev, hbest, nBits, -, st, hst, txNew, htxNew, rfl, rfl⟩ := h
  exact ⟨pindexPrev, st, txNew, hbest, hst, htxNew, ⟨_, rfl, rfl⟩, rfl⟩

/-! ## The header -/

/-- The times of a block that `AcceptBlock` and `CheckBlock` look at. -/
structure Timely (branch : List CBlockIndex) (pindexPrev : CBlockIndex) (block : CBlock) : Prop where
  late : getMedianTimePast branch < block.nTime
  drift : (pindexPrev.nTime : Int) ≤ futureDrift block.nTime
  txs : ∀ tx ∈ block.vtx, tx.nTime ≤ block.nTime

theorem timely_fillTime (branch : List CBlockIndex) (pindexPrev : CBlockIndex) (block : CBlock) :
    Timely branch pindexPrev (block.fillTime env m branch pindexPrev) ∧
      (m.fProofOfStake = false → env.adjustedTime ≤ (block.fillTime env m branch pindexPrev).nTime) := by
  have htime : (block.fillTime env m branch pindexPrev).nTime = (if m.fProofOfStake then
        max (max ((getMedianTimePast branch : Int) + 1) block.getMaxTransactionTime) (pastDrift pindexPrev.nTime)
      else max (max (max ((getMedianTimePast branch : Int) + 1) block.getMaxTransactionTime)
        (pastDrift pindexPrev.nTime)) env.adjustedTime).toNat := rfl
  have hle : max (max ((getMedianTimePast branch : Int) + 1) block.getMaxTransactionTime) (pastDrift pindexPrev.nTime) ≤
      (block.fillTime env m branch pindexPrev).nTime := by
    rw [htime]
    split <;> omega
  rw [max_le_iff, max_le_iff, pastDrift] at hle
  refine ⟨⟨by omega, by rw [futureDrift]; omega, fun tx htx => ?_⟩, fun hwork => ?_⟩
  · have hmax : tx.nTime ≤ block.getMaxTransactionTime := by
      rw [CBlock.getMaxTransactionTime, List.foldl_max]
      exact le_max_of_le_right (List.le_max?_getD_of_mem (List.mem_map_of_mem htx))
    omega
  · rw [htime, hwork, if_neg Bool.false_ne_true]
    omega

theorem isFinal_mono {h h' : Nat} {n n' : Int} (hh : h ≤ h') (hn : n ≤ n') (hfinal : tx.isFinal h n) :
    tx.isFinal h' n' := by
  refine hfinal.imp_right (Or.imp_left fun hlt => hlt.trans_le ?_)
  split
  · exact Int.ofNat_le.mpr hh
  · exact hn

/-! ## Where the block is received -/

variable {pindexPrev pindex : CBlockIndex} {block : CBlock} {nFees : Int}

theorem txAt_pool : s.txAt env hash (some poolPos) = s.mempool.lookup hash := if_pos rfl

theorem txAt_of_ne {pos : Option CDiskTxPos} (h : pos ≠ some poolPos) : s.txAt env hash pos = s.readTx env pos :=
  if_neg h

/-- The node that made the block, once it has written it to disk. -/
theorem receives_append (hreads : ∀ pos, env.txReadable pos) :
    Receives env env s { s with disk := s.disk.append block } pindexPrev
      { CBlockIndex.ofBlock s.disk.nextFile s.disk.nextPos block with
        pprev := some pindexPrev.phashBlock, nHeight := pindexPrev.nHeight + 1 } block :=
  ⟨rfl, rfl, fun _ => rfl, fun _ h => h, fun _ => hreads _, rfl, rfl, rfl, rfl⟩

/-- What is read from disk lies in a block that is there. -/
theorem block_of_txAt {pos : CDiskTxPos} (htx : s.txAt env hash (some pos) = some tx) (hpool : pos ≠ poolPos) :
    env.txReadable pos ∧ s.disk.tx pos = some tx ∧ (s.disk.block pos.nFile pos.nBlockPos).isSome := by
  rw [txAt_of_ne (mt Option.some.inj hpool), Node.readTx, Option.bind_some] at htx
  split at htx
  next hread =>
    refine ⟨hread, htx, ?_⟩
    obtain ⟨b, hb, -⟩ := Option.bind_eq_some_iff.mp htx
    exact hb ▸ rfl
  next => cases htx

theorem tx_append {files : BlockFiles} {b : CBlock} {pos : CDiskTxPos} (h : files.tx pos = some tx) :
    (files.append b).tx pos = some tx := by
  obtain ⟨c, hc, hrest⟩ := Option.bind_eq_some_iff.mp h
  exact Option.bind_eq_some_iff.mpr ⟨c, BlockFiles.block_append hc, hrest⟩

theorem Receives.txAt_old (h : Receives env env' s s' pindexPrev pindex block) {pos : Option CDiskTxPos}
    (htx : s.txAt env hash pos = some tx) : s'.txAt env' hash pos = some tx := by
  by_cases hpool : pos = some poolPos
  · rw [hpool, txAt_pool] at htx ⊢
    rw [h.mempool, htx]
  · cases pos with
    | none => simp [Node.txAt, Node.readTx] at htx
    | some pos =>
      obtain ⟨hread, hdisk, -⟩ := block_of_txAt htx (mt (congrArg some) hpool)
      rw [txAt_of_ne hpool, Node.readTx, Option.bind_some, if_pos (h.reads pos hread), h.disk]
      exact tx_append hdisk

/-- The two sides of a block with a coinbase. -/
abbrev sides (P : Params) (env env' : Env) (s s' : Node) (pindexPrev pindex : CBlockIndex) (block : CBlock)
    (coinbase : CTransaction) : Sides :=
  ⟨P, env, env', s, s', s.mapBlockIndex.branch pindexPrev.phashBlock, pindex, coinbase,
    CBlock.firstTxPos pindex false block⟩

theorem Receives.onDisk (h : Receives env env' s s' pindexPrev pindex block) (coinbase : CTransaction) :
    OnDisk (sides P env env' s s' pindexPrev pindex block coinbase) block.vtx := by
  intro pre tx post hvtx
  have hne : pindex.nBlockPos ≠ 1 := by
    rw [h.nBlockPos, BlockFiles.nextPos]
    omega
  have hpool : (some ⟨pindex.nFile, pindex.nBlockPos, CBlock.firstTxPos pindex false block +
      (pre.map CTransaction.getSerializeSize).sum⟩ : Option CDiskTxPos) ≠ some poolPos := by
    intro heq
    exact hne (congrArg CDiskTxPos.nBlockPos (Option.some.inj heq))
  change s'.txAt env' _ (some ⟨pindex.nFile, pindex.nBlockPos, _⟩) = _
  rw [txAt_of_ne hpool, Node.readTx, Option.bind_some, h.nFile, h.nBlockPos, if_pos (h.readsOwn _), h.disk,
    CBlock.firstTxPos, if_neg Bool.false_ne_true, h.nBlockPos]
  exact BlockFiles.tx_of_block (BlockFiles.block_append_self block) hvtx

theorem isImmature_tip {top prev : CBlockIndex} {rest : List CBlockIndex} (htop : top.nHeight = prev.nHeight + 1)
    (hplace : ∀ pos ∈ e.pos, ¬ (top.nBlockPos = pos.nBlockPos ∧ top.nFile = pos.nFile))
    (h : CTransaction.isImmature P (top :: prev :: rest) e) : CTransaction.isImmature P (prev :: rest) e := by
  obtain ⟨t, ht, pos, hpos, b, hb, hat⟩ := h
  obtain rfl : top = t := Option.some.inj ht
  refine ⟨prev, rfl, pos, hpos, b, ?_, hat⟩
  rw [List.takeWhile_cons] at hb
  split at hb
  next =>
    cases List.mem_cons.mp hb with
    | inl hself => exact absurd (hself ▸ hat) (hplace pos hpos)
    | inr hb =>
      -- fewer blocks count one block further down
      have hmore : (prev :: rest).takeWhile (fun b => decide (top.nHeight - b.nHeight < P.nCoinbaseMaturity)) =
          ((prev :: rest).takeWhile fun b => decide (prev.nHeight - b.nHeight < P.nCoinbaseMaturity)).takeWhile
            fun b => decide (top.nHeight - b.nHeight < P.nCoinbaseMaturity) := by
        rw [List.takeWhile_takeWhile]
        congr 1
        funext b
        rw [Bool.eq_iff_iff]
        simp only [decide_eq_true_eq]
        omega
      rw [hmore] at hb
      exact (List.takeWhile_sublist _).subset hb
  next => simp at hb

/-- A record of the index stands for itself. -/
theorem Receives.stands {rest : List CBlockIndex} {coinbase : CTransaction}
    (h : Receives env env' s s' pindexPrev pindex block)
    (htip : s.mapBlockIndex.branch pindexPrev.phashBlock = pindexPrev :: rest) :
    Stands (sides P env env' s s' pindexPrev pindex block coinbase) hash e e := by
  refine ⟨rfl, fun tx htx => ⟨h.txAt_old htx, fun _ himmature => ?_⟩⟩
  change CTransaction.isImmature P (s'.branchOf pindex) e at himmature
  change CTransaction.isImmature P (s.mapBlockIndex.branch pindexPrev.phashBlock) e
  rw [h.branch, htip] at himmature
  rw [htip]
  refine isImmature_tip h.nHeight (fun pos hpos hplace => ?_) himmature
  change s.txAt env hash e.pos = some tx at htx
  rw [Option.mem_def.mp hpos] at htx
  rw [h.nBlockPos, h.nFile] at hplace
  by_cases hpool : pos = poolPos
  · have hone : s.disk.nextPos = 1 := by rw [hplace.1, hpool, poolPos]
    rw [BlockFiles.nextPos] at hone
    omega
  · obtain ⟨-, -, hsome⟩ := block_of_txAt htx hpool
    rw [← hplace.1, ← hplace.2, BlockFiles.block_next] at hsome
    cases hsome

/-- The coinbase alone. -/
theorem connectTxs_coinbase (hcb : v.coinbase.isCoinBase) (hops : v.coinbase.getLegacySigOpCount ≤ 100)
    (hnew : v.s'.txdb.readTxIndex (v.coinbase.getHash v.P) = none)
    (hsame : ∀ hash e, v.s.txdb.readTxIndex hash = some e → v.s'.txdb.readTxIndex hash = some e ∧ Stands v hash e e) :
    ∃ acc, CBlock.connectTxs v.P v.env' v.s' v.pindex false [v.coinbase] ⟨∅, 0, 0, 0, 0, 0, v.nTxPos⟩ = .ok acc ∧
      AccStands v (MinerState.start v.env m v.s) acc ∧
      acc.nTxPos = v.nTxPos + ([v.coinbase].map CTransaction.getSerializeSize).sum := by
  have hlimit : ¬ MAX_BLOCK_SIGOPS < 0 + v.coinbase.getLegacySigOpCount := by
    have hmax : 100 ≤ MAX_BLOCK_SIGOPS := by decide
    omega
  obtain ⟨acc, hrun, hqueue, hfees, hnops, hpos⟩ : ∃ acc,
      CBlock.connectTx v.P v.env' v.s' v.pindex false ⟨∅, 0, 0, 0, 0, 0, v.nTxPos⟩ v.coinbase = .ok acc ∧
      acc.mapQueuedChanges = AList.insert (v.coinbase.getHash v.P)
        (CTxIndex.fresh (v.posAt v.nTxPos) v.coinbase.vout.length) ∅ ∧
      acc.nFees = 0 ∧ acc.nSigOps = 0 + v.coinbase.getLegacySigOpCount ∧
      acc.nTxPos = v.nTxPos + v.coinbase.getSerializeSize := by
    simp only [CBlock.connectTx, except_bind_ok, except_rejectIf_ok, if_pos hcb, except_pure_ok, exists_const]
    exact ⟨_, ⟨by simp [hnew], hlimit, _, rfl, rfl⟩, rfl, rfl, rfl, rfl⟩
  refine ⟨acc, except_bind_ok.mpr ⟨acc, hrun, rfl⟩, ⟨fun hash e he => ?_, hfees, ?_⟩, by simpa using hpos⟩
  · obtain ⟨hfound, hstands⟩ := hsame hash e he
    have hne : hash ≠ v.coinbase.getHash v.P := by
      intro heq
      rw [heq, hnew] at hfound
      cases hfound
    exact ⟨e, by rw [hqueue, AList.lookup_insert_ne hne]; exact hfound, hstands⟩
  · rw [hnops, Nat.zero_add]
    exact hops

/-- The block passes where it is received on top of `pindexPrev`: its times are
right, its transactions connect with the fees `nFees`, and for a proof-of-work
block they are final, and the coinbase does not pay too much. -/
structure BlockPasses (P : Params) (env' : Env) (s' : Node) (branch : List CBlockIndex)
    (pindexPrev pindex : CBlockIndex) (block : CBlock) (nFees : Int) (fWork : Prop) : Prop where
  timely : Timely branch pindexPrev block
  final : fWork → ∀ tx ∈ block.vtx, tx.isFinal pindex.nHeight block.nTime
  connects : ∃ acc, CBlock.connectTxs P env' s' pindex false block.vtx
      ⟨∅, 0, 0, 0, 0, 0, CBlock.firstTxPos pindex false block⟩ = .ok acc ∧ acc.nFees = nFees ∧
    (fWork → CBlock.checkReward env' s' pindex block acc = .ok ())

/-- **What is collected connects.** A node that receives the block lets it
pass, with the fees its transactions were collected for. -/
theorem passes_createNewBlock (hpool : PoolReady P s) (hbest : s.best = some pindexPrev)
    (hat : s.nBestHeight = pindexPrev.nHeight) (hheight : pindexPrev.nHeight + 1 < 2 ^ 31)
    (hrun : createNewBlock P env m s = some (block, nFees)) (hrecv : Receives env env' s s' pindexPrev pindex block)
    (hcoinbase : ∀ coinbase ∈ block.vtx.head?, s.txdb.readTxIndex (coinbase.getHash P) = none) :
    BlockPasses P env' s' (s.mapBlockIndex.branch pindexPrev.phashBlock) pindexPrev pindex block nFees
      (m.fProofOfStake = false) := by
  obtain ⟨prev, st, coinbase, hprev, hcollect, hnew, ⟨block₀, hvtx₀, hblock⟩, rfl⟩ := createNewBlock_ok hrun
  obtain rfl : prev = pindexPrev := Option.some.inj (hprev.symm.trans hbest)
  obtain ⟨tip, -, hfind⟩ := Option.bind_eq_some_iff.mp hbest
  obtain ⟨rest, htip⟩ := BlockTree.branch_eq_cons hfind
  rw [← BlockTree.find_hash hfind] at htip
  have hvtx : block.vtx = coinbase :: st.vtx := by
    rw [hblock]
    exact hvtx₀
  obtain ⟨htimely, hclock⟩ := @timely_fillTime env m (s.mapBlockIndex.branch prev.phashBlock) prev block₀
  rw [← hblock] at htimely hclock
  obtain ⟨hcb, hops, hlock, hpays⟩ := txNew_ok hheight hnew
  have hindex : s'.txdb.readTxIndex (coinbase.getHash P) = none := by
    rw [hrecv.txIndex]
    exact hcoinbase coinbase (by rw [hvtx]; rfl)
  have hstart : Connecting (sides P env env' s s' prev pindex block coinbase) (MinerState.start env m s) := by
    refine ⟨queuePool_holds fun tx htx hel => ?_, by simp [MinerState.start], fun hdisk => ?_⟩
    · obtain ⟨k, hk⟩ := txs_lookup htx
      obtain rfl := hpool.keyed k tx hk
      exact ⟨hel, by rw [hrecv.txIndex]; exact hpool.new _ tx hk, hk⟩
    · exact connectTxs_coinbase (v := sides P env env' s s' prev pindex block coinbase) hcb (hops.trans (by decide))
        hindex fun k e he => ⟨(hrecv.txIndex k).trans he, hrecv.stands htip⟩
  have hend := hstart.collectLoop hcollect
  obtain ⟨acc, hacc, hstands, -⟩ := hend.connects (hvtx ▸ hrecv.onDisk coinbase)
  rw [← hvtx] at hacc
  refine ⟨htimely, fun hwork tx htx => ?_, acc, hacc, hstands.nFees, fun hwork => ?_⟩
  · rw [hvtx, List.mem_cons] at htx
    cases htx with
    | inl hself => exact .inl (hself ▸ hlock)
    | inr htx =>
      have hfinal : tx.isFinal s.nBestHeight.toNat env.adjustedTime := (hend.poolable tx htx).eligible.2.2
      rw [hat, Int.toNat_natCast] at hfinal
      exact isFinal_mono (by rw [hrecv.nHeight]; omega) (hclock hwork) hfinal
  · have hpow : block.isProofOfWork := by
      intro hpos
      obtain ⟨tx, htx, hcs⟩ := hpos
      rw [hvtx, List.getElem?_cons_succ] at htx
      exact (hend.poolable tx (List.mem_of_getElem? htx)).eligible.2.1 hcs
    rw [CBlock.checkReward, if_pos hpow, except_rejectIf_ok]
    intro hexceeds
    obtain ⟨u, hu, hlt⟩ := hexceeds
    rw [hvtx, List.head?_cons, Option.mem_some_iff] at hu
    rw [← hu, hpays hwork, hrecv.nHeight, hstands.nFees] at hlt
    exact lt_irrefl _ hlt

/-! ## A pool to collect from -/

namespace Sample

/-- It spends what `spend` pays. -/
def spendAgain : CTransaction := ⟨1, start + 1410, [⟨⟨start + 1400, 0⟩, [], UINT_MAX⟩], [⟨COIN - 2 * CENT, [1]⟩], 0⟩

def pooled : Node :=
  { matured with
    mempool := (CTxMemPool.empty.addUnchecked (start + 1410) spendAgain).addUnchecked (start + 1400) spend }

def miner : MinerEnv :=
  ⟨false, some (List.Vector.replicate 20 0), 250000, 27000, 0, start + 1500, fun _ _ _ => 0, fun _ => false,
    fun _ => false⟩

theorem pooled_lookup {hash : Uint256} {tx : CTransaction} (h : pooled.mempool.lookup hash = some tx) :
    hash = start + 1400 ∧ tx = spend ∨ hash = start + 1410 ∧ tx = spendAgain := by
  have hnone : CTxMemPool.empty.lookup hash = none := by simp [CTxMemPool.lookup, CTxMemPool.empty]
  simp only [pooled, CTxMemPool.lookup_addUnchecked, hnone] at h
  split at h
  · exact .inl ⟨‹_›, (Option.some.inj h).symm⟩
  · split at h
    · exact .inr ⟨‹_›, (Option.some.inj h).symm⟩
    · cases h

theorem poolReady_pooled : PoolReady (params true) pooled := by
  refine ⟨fun hash tx h => ?_, fun hash tx h => ?_⟩
  · cases pooled_lookup h with
    | inl h => rw [h.1, h.2]; rfl
    | inr h => rw [h.1, h.2]; rfl
  · cases pooled_lookup h with
    | inl h => rw [h.1]; decide +kernel
    | inr h => rw [h.1]; decide +kernel

/-- Both transactions are collected, and their fees. -/
theorem passes_createNewBlock_sample : ∃ pindexPrev block pindex, pooled.best = some pindexPrev ∧
    createNewBlock (params true) Sample.env miner pooled = some (block, 2 * CENT) ∧ block.vtx.length = 3 ∧
    BlockPasses (params true) Sample.env { pooled with disk := pooled.disk.append block }
      (pooled.mapBlockIndex.branch pindexPrev.phashBlock) pindexPrev pindex block (2 * CENT)
      (miner.fProofOfStake = false) := by
  have hmade : (createNewBlock (params true) Sample.env miner pooled).map (fun r => (r.1.vtx.length, r.2)) =
      some (3, 2 * CENT) := by decide +kernel
  have hcoinbase : ∀ r ∈ createNewBlock (params true) Sample.env miner pooled, ∀ coinbase ∈ r.1.vtx.head?,
      pooled.txdb.readTxIndex (coinbase.getHash (params true)) = none := by decide +kernel
  have htip : ∀ b ∈ pooled.best, pooled.nBestHeight = b.nHeight ∧ b.nHeight + 1 < 2 ^ 31 ∧
      pooled.pindexBest = some b.phashBlock := by decide +kernel
  obtain ⟨r, hrun, hr⟩ := Option.map_eq_some_iff.mp hmade
  obtain ⟨block, nFees⟩ := r
  obtain ⟨hlen, rfl⟩ := Prod.mk.inj hr
  obtain ⟨pindexPrev, hbest⟩ := Option.isSome_iff_exists.mp (by decide +kernel : pooled.best.isSome)
  obtain ⟨hat, hheight, -⟩ := htip pindexPrev hbest
  exact ⟨pindexPrev, block, _, hbest, hrun, hlen,
    passes_createNewBlock poolReady_pooled hbest hat hheight hrun (receives_append fun _ => rfl) (hcoinbase _ hrun)⟩

end Sample

end Pinkcoin
