/-
`ConnectBlock` with `fJustCheck`. A just-check does not move along the block,
so that the transactions of the block itself are looked for at one position,
which stands for the memory pool where the record lies at (1, 1); and it
returns only after the record of the block is written.
-/
import Pinkcoin.Lib.TwoRuns
import Pinkcoin.AcceptBlock
import Pinkcoin.RoundTrip

namespace Pinkcoin

open StateError TwoRuns

/-! ## What a just-check is for -/

/-- The database, the block index, the memory pool and the wallets are read
as before. -/
structure Untouched (s s' : Node) : Prop where
  txdb : ∀ key, s'.txdb.read key = s.txdb.read key
  mapBlockIndex : ∀ h, s'.mapBlockIndex.find h = s.mapBlockIndex.find h
  mempool : s'.mempool = s.mempool
  wallets : s'.wallets = s.wallets

namespace CBlock

variable (P : Params) (env : Env) (s : Node) (pindex : CBlockIndex) (block : CBlock)

/-- The proofs of a block that a just-check skips: the work and the merkle
root. -/
structure Proofs : Prop where
  work : block.isProofOfWork → checkProofOfWork P (block.getHash P) block.nBits = .ok ()
  root : block.hashMerkleRoot = block.buildMerkleTree P

/-- A just-check leaves all as it was, and says what connecting the block
would say, apart from the proofs. -/
structure PureCheck : Prop where
  untouched : Untouched s (endState (block.connectBlock P env pindex true s))
  verdict : isOk (block.connectBlock P env pindex false s) ↔
    isOk (block.connectBlock P env pindex true s) ∧ block.Proofs P

/-! ## When it is that -/

/-- The record of the block with the mint and the supply of its transactions
is in the database, and the one in memory has them too. -/
structure Recorded (pindex' : CBlockIndex) : Prop where
  onDisk : s.txdb.read (.blockindex (P.scryptBlockHash (CDiskBlockIndex.ofIndex pindex').header)) =
    some (CDiskBlockIndex.ofIndex pindex')
  inMemory : ∀ b, s.mapBlockIndex.find pindex'.phashBlock = some b →
    b.nMint = pindex'.nMint ∧ b.nMoneySupply = pindex'.nMoneySupply

/-- There is nothing to write: the checks refuse the block, or its record is
there. -/
def NothingNew : Prop := ∀ acc, connectChecks P env s pindex true block = .ok acc → Recorded P s (withSupply s pindex acc)

/-- Some transaction of a list spends an output of the one with a hash. -/
def SpentBy (vtx : List CTransaction) (hash : Uint256) : Prop := ∃ tx ∈ vtx, ∃ txin ∈ tx.vin, txin.prevout.hash = hash

/-- Transactions from `nTxPos` on that are spent later in the list are found
at the position of a just-check as they are at their own. -/
def SameReadsFrom : List CTransaction → Nat → Prop
  | [], _ => True
  | tx :: vtx, nTxPos =>
    (SpentBy vtx (tx.getHash P) →
      s.txAt env (tx.getHash P) (some ⟨pindex.nFile, pindex.nBlockPos, 1⟩) =
        s.txAt env (tx.getHash P) (some ⟨pindex.nFile, pindex.nBlockPos, nTxPos⟩)) ∧
      SameReadsFrom vtx (nTxPos + tx.getSerializeSize)

/-- The transactions of the block that are spent in it are found where a
just-check looks for them. -/
def SameReads : Prop := SameReadsFrom P env s pindex block.vtx (firstTxPos pindex false block)

/-! ## Records and queues that differ in positions only -/

variable {P env s pindex block} {vtx : List CTransaction} {hash : Uint256} {N : Prop} {e e' : CTxIndex}
  {queue queue' : Map Uint256 CTxIndex} {inputs inputs' : MapPrevTx} {tx : CTransaction} {txin : CTxIn}
  {pos pos' : CDiskTxPos}

variable (env s) in
/-- Two index records of a hash: in the same block, with the same outputs
spent, and standing for the same transaction where that is asked. -/
structure RecordAlike (N : Prop) (hash : Uint256) (e e' : CTxIndex) : Prop where
  place : e.pos.map (fun p => (p.nFile, p.nBlockPos)) = e'.pos.map fun p => (p.nFile, p.nBlockPos)
  spent : e.vSpent.map Option.isSome = e'.vSpent.map Option.isSome
  read : N → s.txAt env hash e.pos = s.txAt env hash e'.pos

variable (env s) in
/-- Two queues whose records are alike; those that a list spends stand for
the same transactions. -/
def QueueAlike (vtx : List CTransaction) (queue queue' : Map Uint256 CTxIndex) : Prop :=
  ∀ hash, Option.Rel (RecordAlike env s (SpentBy vtx hash) hash) (queue.lookup hash) (queue'.lookup hash)

variable (env s) in
/-- A previous transaction with its record on both sides. -/
structure PrevAlike (N : Prop) (hash : Uint256) (prev prev' : CTxIndex × CTransaction) : Prop where
  record : RecordAlike env s N hash prev.1 prev'.1
  tx : prev.2 = prev'.2

variable (env s) in
def InputsAlike (vtx : List CTransaction) (inputs inputs' : MapPrevTx) : Prop :=
  ∀ hash, Option.Rel (PrevAlike env s (SpentBy vtx hash) hash) (inputs.lookup hash) (inputs'.lookup hash)

theorem RecordAlike.refl (e : CTxIndex) : RecordAlike env s N hash e e := ⟨rfl, rfl, fun _ => rfl⟩

theorem RecordAlike.mono {N' : Prop} (h : RecordAlike env s N hash e e') (hN : N' → N) :
    RecordAlike env s N' hash e e' :=
  ⟨h.place, h.spent, fun hn => h.read (hN hn)⟩

theorem RecordAlike.length (h : RecordAlike env s N hash e e') : e.vSpent.length = e'.vSpent.length := by
  have hlen := congrArg List.length h.spent
  simpa using hlen

theorem RecordAlike.isSpent (h : RecordAlike env s N hash e e') (n : Nat) :
    (∃ spent ∈ e.vSpent[n]?, spent.isSome) ↔ ∃ spent ∈ e'.vSpent[n]?, spent.isSome := by
  have hget : ∀ e : CTxIndex, (∃ spent ∈ e.vSpent[n]?, spent.isSome) ↔ (e.vSpent.map Option.isSome)[n]? = some true := by
    intro e
    simp
  rw [hget, hget, h.spent]

/-- Spending an output on both sides. -/
theorem RecordAlike.spend (h : RecordAlike env s N hash e e') (n : Nat) :
    RecordAlike env s N hash { e with vSpent := e.vSpent.set n (some pos) }
      { e' with vSpent := e'.vSpent.set n (some pos') } where
  place := h.place
  spent := by simp [List.map_set, h.spent]
  read := h.read

theorem rel_mono {α α' : Type} {R R' : α → α' → Prop} {x : Option α} {x' : Option α'} (h : Option.Rel R x x')
    (hR : ∀ a a', R a a' → R' a a') : Option.Rel R' x x' := by
  cases h with
  | none => exact .none
  | some h => exact .some (hR _ _ h)

theorem SpentBy.tail (h : SpentBy vtx hash) : SpentBy (tx :: vtx) hash := by
  obtain ⟨u, hu, hspend⟩ := h
  exact ⟨u, List.mem_cons_of_mem tx hu, hspend⟩

theorem QueueAlike.tail (h : QueueAlike env s (tx :: vtx) queue queue') : QueueAlike env s vtx queue queue' :=
  fun hash => rel_mono (h hash) fun _ _ hrec => hrec.mono SpentBy.tail

theorem QueueAlike.insert (h : QueueAlike env s vtx queue queue') (hrec : RecordAlike env s (SpentBy vtx hash) hash e e') :
    QueueAlike env s vtx (queue.insert hash e) (queue'.insert hash e') := by
  intro k
  by_cases hk : k = hash
  · subst hk
    rw [AList.lookup_insert, AList.lookup_insert]
    exact .some hrec
  · rw [AList.lookup_insert_ne hk, AList.lookup_insert_ne hk]
    exact h k

theorem InputsAlike.insert {prev prev' : CTxIndex × CTransaction} (h : InputsAlike env s vtx inputs inputs')
    (hprev : PrevAlike env s (SpentBy vtx hash) hash prev prev') :
    InputsAlike env s vtx (inputs.insert hash prev) (inputs'.insert hash prev') := by
  intro k
  by_cases hk : k = hash
  · subst hk
    rw [AList.lookup_insert, AList.lookup_insert]
    exact .some hprev
  · rw [AList.lookup_insert_ne hk, AList.lookup_insert_ne hk]
    exact h k

/-- What both sides find under a hash. -/
theorem InputsAlike.lookup_cases (h : InputsAlike env s vtx inputs inputs') (hash : Uint256) :
    (inputs.lookup hash = none ∧ inputs'.lookup hash = none) ∨
      ∃ e e' txPrev, inputs.lookup hash = some (e, txPrev) ∧ inputs'.lookup hash = some (e', txPrev) ∧
        RecordAlike env s (SpentBy vtx hash) hash e e' := by
  have hrel := h hash
  generalize hx : inputs.lookup hash = x at hrel
  generalize hx' : inputs'.lookup hash = x' at hrel
  cases hrel with
  | none => exact .inl ⟨rfl, rfl⟩
  | @some prev prev' hprev =>
    obtain ⟨e, txPrev⟩ := prev
    obtain ⟨e', txPrev'⟩ := prev'
    obtain rfl : txPrev = txPrev' := hprev.tx
    exact .inr ⟨e, e', txPrev, rfl, rfl, hprev.record⟩

/-! ## Fetching on both sides -/

theorem found_alike (h : QueueAlike env s vtx queue queue') (hash : Uint256) :
    Option.Rel (RecordAlike env s (SpentBy vtx hash) hash) ((queue.lookup hash).or (s.txdb.readTxIndex hash))
      ((queue'.lookup hash).or (s.txdb.readTxIndex hash)) := by
  have hrel := h hash
  generalize queue.lookup hash = x at hrel ⊢
  generalize queue'.lookup hash = x' at hrel ⊢
  cases hrel with
  | none =>
    rw [Option.none_or]
    cases s.txdb.readTxIndex hash with
    | none => exact .none
    | some e => exact .some (.refl e)
  | some hrec => exact .some hrec

theorem fetchPrev_agree (h : QueueAlike env s vtx queue queue') (hspent : SpentBy vtx hash) :
    Agree (PrevAlike env s (SpentBy vtx hash) hash) (CTransaction.fetchPrev env s queue true false hash)
      (CTransaction.fetchPrev env s queue' true false hash) := by
  have hrel := found_alike h hash
  refine agree_of_ok ?_ ?_
  · intro prev hprev
    obtain ⟨hfound, hread⟩ := CTransaction.fetchPrev_ok.mp hprev
    rw [hfound] at hrel
    generalize hx' : (queue'.lookup hash).or (s.txdb.readTxIndex hash) = x' at hrel
    cases hrel with
    | @some _ e' hrec =>
      rw [hrec.read hspent] at hread
      exact ⟨(e', prev.2), CTransaction.fetchPrev_ok.mpr ⟨hx', hread⟩, hrec, rfl⟩
  · intro prev hprev
    obtain ⟨hfound, hread⟩ := CTransaction.fetchPrev_ok.mp hprev
    rw [hfound] at hrel
    generalize hx : (queue.lookup hash).or (s.txdb.readTxIndex hash) = x at hrel
    cases hrel with
    | @some e _ hrec =>
      rw [← hrec.read hspent] at hread
      exact ⟨(e, prev.2), CTransaction.fetchPrev_ok.mpr ⟨hx, hread⟩⟩

theorem fetchLoop_agree (h : QueueAlike env s vtx queue queue') {vin : List CTxIn}
    (hspent : ∀ txin ∈ vin, SpentBy vtx txin.prevout.hash) (hin : InputsAlike env s vtx inputs inputs') :
    Agree (InputsAlike env s vtx) (CTransaction.fetchLoop env s queue true false vin inputs)
      (CTransaction.fetchLoop env s queue' true false vin inputs') := by
  induction vin generalizing inputs inputs' with
  | nil => exact agree_pure hin
  | cons txin vin ih =>
    have htail : ∀ txin ∈ vin, SpentBy vtx txin.prevout.hash := fun t ht => hspent t (List.mem_cons_of_mem _ ht)
    rw [CTransaction.fetchLoop, CTransaction.fetchLoop]
    rcases hin.lookup_cases txin.prevout.hash with ⟨hx, hx'⟩ | ⟨e, e', txPrev, hx, hx', -⟩
    · simp only [hx, hx', Option.isSome_none, Bool.false_eq_true, if_false]
      refine agree_bind (fetchPrev_agree h (hspent txin (List.mem_cons_self ..))) fun prev prev' hprev => ?_
      exact ih htail (hin.insert hprev)
    · simp only [hx, hx', Option.isSome_some, if_true]
      exact ih htail hin

theorem prevoutInRange_iff (h : InputsAlike env s vtx inputs inputs') :
    CTransaction.prevoutInRange inputs txin ↔ CTransaction.prevoutInRange inputs' txin := by
  unfold CTransaction.prevoutInRange
  rcases h.lookup_cases txin.prevout.hash with ⟨hx, hx'⟩ | ⟨e, e', txPrev, hx, hx', hrec⟩
  · rw [hx, hx']
  · simp only [hx, hx', Option.mem_some_iff, exists_eq_left', hrec.length]

theorem fetchInputs_agree (h : QueueAlike env s vtx queue queue') (htx : tx ∈ vtx) :
    Agree (InputsAlike env s vtx) (tx.fetchInputs env s queue true false) (tx.fetchInputs env s queue' true false) := by
  have hempty : InputsAlike env s vtx ∅ ∅ := fun _ => .none
  unfold CTransaction.fetchInputs
  by_cases hcb : tx.isCoinBase
  · simp only [if_pos hcb]
    exact agree_pure hempty
  · simp only [if_neg hcb]
    refine agree_bind (fetchLoop_agree h (fun txin hin => ⟨tx, htx, txin, hin, rfl⟩) hempty) fun inputs inputs' hin => ?_
    refine agree_bind (agree_rejectIf _ _ ?_) fun _ _ _ => agree_pure hin
    simp only [prevoutInRange_iff hin]

/-! ## Spending on both sides -/

theorem getOutputFor_eq (h : InputsAlike env s vtx inputs inputs') (txin : CTxIn) :
    CTransaction.getOutputFor inputs txin = CTransaction.getOutputFor inputs' txin := by
  unfold CTransaction.getOutputFor
  rcases h.lookup_cases txin.prevout.hash with ⟨hx, hx'⟩ | ⟨e, e', txPrev, hx, hx', -⟩
  · rw [hx, hx']
  · rw [hx, hx', Option.bind_some, Option.bind_some]

theorem valueFor_eq (h : InputsAlike env s vtx inputs inputs') :
    CTransaction.valueFor inputs = CTransaction.valueFor inputs' := by
  funext txin
  rw [CTransaction.valueFor, CTransaction.valueFor, getOutputFor_eq h]

theorem getValueIn_eq (h : InputsAlike env s vtx inputs inputs') (tx : CTransaction) :
    tx.getValueIn inputs = tx.getValueIn inputs' := by
  rw [CTransaction.getValueIn, CTransaction.getValueIn, valueFor_eq h]

theorem getP2SHSigOpCount_eq (h : InputsAlike env s vtx inputs inputs') (tx : CTransaction) :
    tx.getP2SHSigOpCount inputs = tx.getP2SHSigOpCount inputs' := by
  unfold CTransaction.getP2SHSigOpCount
  simp only [getOutputFor_eq h]

/-- Whether a record is immature depends on the block it lies in. -/
theorem isImmature_iff (branch : List CBlockIndex) (h : RecordAlike env s N hash e e') :
    CTransaction.isImmature P branch e ↔ CTransaction.isImmature P branch e' := by
  have hplace := h.place
  unfold CTransaction.isImmature
  cases hpos : e.pos with
  | none =>
    rw [hpos, Option.map_none] at hplace
    rw [Option.map_eq_none_iff.mp hplace.symm]
  | some p =>
    rw [hpos, Option.map_some] at hplace
    obtain ⟨p', hpos', heq⟩ := Option.map_eq_some_iff.mp hplace.symm
    obtain ⟨hfile, hblock⟩ := Prod.mk.inj heq
    simp only [hpos', Option.mem_some_iff, exists_eq_left', hfile, hblock]

theorem checkInputs_agree (branch : List CBlockIndex) (h : InputsAlike env s vtx inputs inputs') {vin : List CTxIn}
    {nValueIn : Int} : Agree Eq (CTransaction.checkInputs P branch tx inputs vin nValueIn)
      (CTransaction.checkInputs P branch tx inputs' vin nValueIn) := by
  induction vin generalizing nValueIn with
  | nil => exact agree_self _
  | cons txin vin ih =>
    rw [CTransaction.checkInputs, CTransaction.checkInputs]
    rcases h.lookup_cases txin.prevout.hash with ⟨hx, hx'⟩ | ⟨e, e', txPrev, hx, hx', hrec⟩
    · simp only [hx, hx']
      exact agree_throw _ _
    · simp only [hx, hx', valueFor_eq h]
      refine agree_bind (agree_rejectIf _ _ ?_) fun _ _ _ => ?_
      · rw [prevoutInRange_iff h]
      refine agree_bind (agree_rejectIf _ _ ?_) fun _ _ _ => ?_
      · rw [isImmature_iff branch hrec]
      refine agree_bind (agree_rejectIf _ _ Iff.rfl) fun _ _ _ => ?_
      exact agree_bind (agree_rejectIf _ _ Iff.rfl) fun _ _ _ => ih

theorem spendInputs_agree {vin : List CTxIn} {i : Nat} (hin : InputsAlike env s vtx inputs inputs')
    (h : QueueAlike env s vtx queue queue') :
    Agree (QueueAlike env s vtx) (CTransaction.spendInputs P s pos true false tx vin i inputs queue)
      (CTransaction.spendInputs P s pos' true false tx vin i inputs' queue') := by
  induction vin generalizing i inputs inputs' queue queue' with
  | nil => exact agree_pure h
  | cons txin vin ih =>
    rw [CTransaction.spendInputs, CTransaction.spendInputs]
    rcases hin.lookup_cases txin.prevout.hash with ⟨hx, hx'⟩ | ⟨e, e', txPrev, hx, hx', hrec⟩
    · simp only [hx, hx']
      exact agree_throw _ _
    · simp only [hx, hx', Bool.true_or, if_true]
      refine agree_bind (agree_rejectIf _ _ (hrec.isSpent _)) fun _ _ _ => ?_
      refine agree_bind (agree_rejectIf _ _ Iff.rfl) fun _ _ _ => ?_
      exact ih (hin.insert ⟨hrec.spend _, rfl⟩) (h.insert (hrec.spend _))

theorem connectInputs_agree (branch : List CBlockIndex) (hin : InputsAlike env s vtx inputs inputs')
    (h : QueueAlike env s vtx queue queue') :
    Agree (QueueAlike env s vtx) (tx.connectInputs P s pos branch true false inputs queue)
      (tx.connectInputs P s pos' branch true false inputs' queue') := by
  unfold CTransaction.connectInputs
  by_cases hcb : tx.isCoinBase
  · simp only [if_pos hcb]
    exact agree_pure h
  · simp only [if_neg hcb]
    refine agree_bind (checkInputs_agree branch hin) fun nValueIn _ heq => ?_
    obtain rfl := heq
    refine agree_bind (spendInputs_agree hin h) fun q q' hq => ?_
    exact agree_bind (agree_self _) fun _ _ _ => agree_pure hq

/-! ## The loop on both sides -/

variable (env s) in
/-- The local variables of connecting a block, at `nTxPos`, and of a
just-check. -/
structure AccAlike (vtx : List CTransaction) (nTxPos : Nat) (acc acc' : ConnectAcc) : Prop where
  queue : QueueAlike env s vtx acc.mapQueuedChanges acc'.mapQueuedChanges
  nFees : acc.nFees = acc'.nFees
  nValueIn : acc.nValueIn = acc'.nValueIn
  nValueOut : acc.nValueOut = acc'.nValueOut
  nStakeReward : acc.nStakeReward = acc'.nStakeReward
  nSigOps : acc.nSigOps = acc'.nSigOps
  own : acc.nTxPos = nTxPos
  just : acc'.nTxPos = 1

variable {acc acc' : ConnectAcc} {nTxPos : Nat}

theorem connectSpends_agree (htx : tx ∈ vtx) (h : AccAlike env s vtx nTxPos acc acc') :
    Agree (AccAlike env s vtx nTxPos) (connectSpends P env s pindex tx pos acc)
      (connectSpends P env s pindex tx pos' acc') := by
  unfold connectSpends
  have hfetch := fetchInputs_agree h.queue htx
  generalize tx.fetchInputs env s acc.mapQueuedChanges true false = x at hfetch
  generalize tx.fetchInputs env s acc'.mapQueuedChanges true false = x' at hfetch
  cases hfetch with
  | error e e' => exact agree_throw _ _
  | @ok inputs inputs' hin =>
    simp only [getP2SHSigOpCount_eq hin, getValueIn_eq hin, h.nSigOps]
    refine agree_bind (agree_rejectIf _ _ Iff.rfl) fun _ _ _ => ?_
    have hconnect := @connectInputs_agree P env s vtx _ _ inputs inputs' tx pos pos' (s.branchOf pindex) hin h.queue
    generalize tx.connectInputs P s pos (s.branchOf pindex) true false inputs acc.mapQueuedChanges = y at hconnect
    generalize tx.connectInputs P s pos' (s.branchOf pindex) true false inputs' acc'.mapQueuedChanges = y' at hconnect
    cases hconnect with
    | error e e' => exact agree_throw _ _
    | ok hq =>
      refine agree_pure ⟨hq, ?_, ?_, ?_, ?_, rfl, h.own, h.just⟩
      · simp only [h.nFees]
      · simp only [h.nValueIn]
      · simp only [h.nValueOut]
      · simp only [h.nStakeReward]

/-- The record a transaction gets on both sides. -/
theorem fresh_alike (hread : N → s.txAt env hash (some ⟨pindex.nFile, pindex.nBlockPos, 1⟩) =
      s.txAt env hash (some ⟨pindex.nFile, pindex.nBlockPos, nTxPos⟩)) (n : Nat) :
    RecordAlike env s N hash (CTxIndex.fresh ⟨pindex.nFile, pindex.nBlockPos, nTxPos⟩ n)
      (CTxIndex.fresh ⟨pindex.nFile, pindex.nBlockPos, 1⟩ n) :=
  ⟨rfl, rfl, fun hN => (hread hN).symm⟩

/-- The record of a transaction is queued after what it spends. -/
theorem queued_agree {x x' : Except Reject ConnectAcc} {n : Nat} (hread : SpentBy vtx hash →
      s.txAt env hash (some ⟨pindex.nFile, pindex.nBlockPos, 1⟩) =
        s.txAt env hash (some ⟨pindex.nFile, pindex.nBlockPos, nTxPos⟩))
    (h : Agree (AccAlike env s (tx :: vtx) (nTxPos + tx.getSerializeSize)) x x') :
    Agree (AccAlike env s vtx (nTxPos + tx.getSerializeSize))
      (x >>= fun acc => pure { acc with
        mapQueuedChanges := acc.mapQueuedChanges.insert hash
          (CTxIndex.fresh ⟨pindex.nFile, pindex.nBlockPos, nTxPos⟩ n) })
      (x' >>= fun acc => pure { acc with
        mapQueuedChanges := acc.mapQueuedChanges.insert hash
          (CTxIndex.fresh ⟨pindex.nFile, pindex.nBlockPos, 1⟩ n) }) := by
  refine agree_bind h fun acc acc' hacc => agree_pure ?_
  refine ⟨?_, hacc.nFees, hacc.nValueIn, hacc.nValueOut, hacc.nStakeReward, hacc.nSigOps, hacc.own, hacc.just⟩
  exact hacc.queue.tail.insert (fresh_alike hread n)

theorem connectTx_agree (hread : SpentBy vtx (tx.getHash P) →
      s.txAt env (tx.getHash P) (some ⟨pindex.nFile, pindex.nBlockPos, 1⟩) =
        s.txAt env (tx.getHash P) (some ⟨pindex.nFile, pindex.nBlockPos, nTxPos⟩))
    (h : AccAlike env s (tx :: vtx) nTxPos acc acc') :
    Agree (AccAlike env s vtx (nTxPos + tx.getSerializeSize)) (connectTx P env s pindex false acc tx)
      (connectTx P env s pindex true acc' tx) := by
  unfold connectTx
  simp only [h.nSigOps, h.own, h.just, Bool.false_eq_true, if_false, if_true]
  refine agree_bind (agree_rejectIf _ _ Iff.rfl) fun _ _ _ => ?_
  refine agree_bind (agree_rejectIf _ _ Iff.rfl) fun _ _ _ => ?_
  by_cases hcb : tx.isCoinBase
  · simp only [if_pos hcb]
    refine queued_agree hread (agree_pure ⟨h.queue, h.nFees, h.nValueIn, ?_, h.nStakeReward, rfl, rfl, rfl⟩)
    simp only [h.nValueOut]
  · simp only [if_neg hcb]
    refine queued_agree hread (connectSpends_agree (List.mem_cons_self ..) ?_)
    exact ⟨h.queue, h.nFees, h.nValueIn, h.nValueOut, h.nStakeReward, rfl, rfl, rfl⟩

theorem connectTxs_agree (hreads : SameReadsFrom P env s pindex vtx nTxPos) (h : AccAlike env s vtx nTxPos acc acc') :
    Agree (fun acc acc' => acc.nFees = acc'.nFees ∧ acc.nStakeReward = acc'.nStakeReward)
      (connectTxs P env s pindex false vtx acc) (connectTxs P env s pindex true vtx acc') := by
  induction vtx generalizing nTxPos acc acc' with
  | nil => exact agree_pure ⟨h.nFees, h.nStakeReward⟩
  | cons tx vtx ih =>
    rw [connectTxs, connectTxs]
    exact agree_bind (connectTx_agree hreads.1 h) fun _ _ hacc => ih hreads.2 hacc

/-! ## The verdict -/

theorem checkReward_eq (hfees : acc.nFees = acc'.nFees) (hstake : acc.nStakeReward = acc'.nStakeReward) :
    checkReward env s pindex block acc = checkReward env s pindex block acc' := by
  unfold checkReward
  simp only [hfees, hstake]

/-- The checks without the proofs, and the proofs. -/
theorem checkBlock_ok_iff : block.checkBlock P env true true false = .ok () ↔
    block.checkBlock P env false false false = .ok () ∧ block.Proofs P := by
  simp only [checkBlock, except_bind_ok, except_rejectIf_ok, except_onlyIf_ok, except_mapError_ok, except_forM_ok,
    true_and, false_and, and_true, not_false_eq_true, IsEmpty.forall_iff, not_not, exists_const, Bool.false_eq_true]
  constructor
  · rintro ⟨h₁, _, hwork, h₂, h₃, h₄, h₅, _, h₆, h₇, h₈, h₉, hroot⟩
    exact ⟨⟨h₁, h₂, h₃, h₄, h₅, (), h₆, h₇, h₈, h₉⟩, hwork, hroot⟩
  · rintro ⟨⟨h₁, h₂, h₃, h₄, h₅, _, h₆, h₇, h₈, h₉⟩, hproofs⟩
    exact ⟨h₁, (), hproofs.work, h₂, h₃, h₄, h₅, (), h₆, h₇, h₈, h₉, hproofs.root⟩

/-- The transactions and the reward, after the checks of the block alone. -/
def judge (P : Params) (env : Env) (s : Node) (pindex : CBlockIndex) (fJustCheck : Bool) (block : CBlock) :
    Except Reject ConnectAcc := do
  let acc ← connectTxs P env s pindex fJustCheck block.vtx ⟨∅, 0, 0, 0, 0, 0, firstTxPos pindex fJustCheck block⟩
  checkReward env s pindex block acc
  pure acc

theorem judge_iff (hreads : SameReads P env s pindex block) :
    (∃ acc, judge P env s pindex false block = .ok acc) ↔ ∃ acc, judge P env s pindex true block = .ok acc := by
  have hstart : AccAlike env s block.vtx (firstTxPos pindex false block)
      ⟨∅, 0, 0, 0, 0, 0, firstTxPos pindex false block⟩ ⟨∅, 0, 0, 0, 0, 0, firstTxPos pindex true block⟩ :=
    ⟨fun _ => .none, rfl, rfl, rfl, rfl, rfl, rfl, rfl⟩
  have hagree : Agree (fun _ _ => True) (judge P env s pindex false block) (judge P env s pindex true block) := by
    refine agree_bind (connectTxs_agree hreads hstart) fun acc acc' h => ?_
    rw [checkReward_eq h.1 h.2]
    exact agree_bind (agree_self _) fun _ _ _ => agree_pure trivial
  exact hagree.ok_iff

/-- The checks of `ConnectBlock`, taken apart. -/
theorem connectChecks_iff (fJustCheck : Bool) : (∃ acc, connectChecks P env s pindex fJustCheck block = .ok acc) ↔
    block.checkBlock P env (!fJustCheck) (!fJustCheck) false = .ok () ∧ s.mapBlockIndex.Has block.hashPrevBlock ∧
      getNextTargetRequired P s.fDisablePOW (s.mapBlockIndex.branch block.hashPrevBlock)
        (decide block.isProofOfStake) block.nTime = some block.nBits ∧
      ∃ acc, judge P env s pindex fJustCheck block = .ok acc := by
  simp only [connectChecks, judge, except_bind_ok, except_rejectIf_ok, not_not]
  refine ⟨?_, ?_⟩
  · intro ⟨acc, _, hcheck, _, hprev, _, htarget, htxs⟩
    exact ⟨hcheck, hprev, htarget, acc, htxs⟩
  · intro ⟨hcheck, hprev, htarget, acc, htxs⟩
    exact ⟨acc, (), hcheck, (), hprev, (), htarget, htxs⟩

/-- A just-check passes the blocks that would be connected if their proofs
held. -/
theorem connectChecks_verdict (hreads : SameReads P env s pindex block) :
    (∃ acc, connectChecks P env s pindex false block = .ok acc) ↔
      (∃ acc, connectChecks P env s pindex true block = .ok acc) ∧ block.Proofs P := by
  rw [connectChecks_iff, connectChecks_iff, judge_iff hreads, Bool.not_false, Bool.not_true, checkBlock_ok_iff]
  refine ⟨?_, ?_⟩
  · intro ⟨⟨hcheck, hproofs⟩, hrest⟩
    exact ⟨⟨hcheck, hrest⟩, hproofs⟩
  · intro ⟨⟨hcheck, hrest⟩, hproofs⟩
    exact ⟨⟨hcheck, hproofs⟩, hrest⟩

/-! ## What a just-check writes -/

variable (P) in
/-- The node after a just-check that passes. -/
def justChecked (s : Node) (pindex : CBlockIndex) : Node :=
  { s with
    mapBlockIndex := s.mapBlockIndex.setSupply pindex.phashBlock pindex.nMint pindex.nMoneySupply
    txdb := s.txdb.writeBlockIndex P (CDiskBlockIndex.ofIndex pindex) }

theorem justCheck_run : block.connectBlock P env pindex true s =
    match connectChecks P env s pindex true block with
    | .error e => .error e s
    | .ok acc => .ok (withSupply s pindex acc) (justChecked P s (withSupply s pindex acc)) := by
  cases hc : connectChecks P env s pindex true block with
  | error e => simp [connectBlock, bind, EStateM.bind, get_run, lift, hc]
  | ok acc =>
    simp only [connectBlock, bind_ok, get_ok, lift_ok, if_true, modify_ok, pure_ok]
    exact ⟨s, s, ⟨rfl, rfl⟩, acc, s, ⟨hc, rfl⟩, (), _, rfl, rfl, rfl⟩

theorem isOk_connectBlock (fJustCheck : Bool) : isOk (block.connectBlock P env pindex fJustCheck s) ↔
    ∃ acc, connectChecks P env s pindex fJustCheck block = .ok acc := by
  cases fJustCheck with
  | false =>
    rw [connectBlock_run]
    cases connectChecks P env s pindex false block with
    | error e => simp [isOk]
    | ok acc => simp [isOk]
  | true =>
    rw [justCheck_run]
    cases connectChecks P env s pindex true block with
    | error e => simp [isOk]
    | ok acc => simp [isOk]

/-- A record with its mint and supply is written unless they are there. -/
theorem untouched_justChecked_iff : Untouched s (justChecked P s pindex) ↔ Recorded P s pindex := by
  refine ⟨fun h => ⟨?_, ?_⟩, fun h => ⟨?_, ?_, rfl, rfl⟩⟩
  · rw [← h.txdb]
    exact BatchStore.read_write
  · intro b hb
    have hfind := h.mapBlockIndex pindex.phashBlock
    rw [justChecked, BlockTree.find_setSupply, if_pos rfl, hb, Option.map_some] at hfind
    have hsame := Option.some.inj hfind
    exact ⟨(congrArg CBlockIndex.nMint hsame).symm, (congrArg CBlockIndex.nMoneySupply hsame).symm⟩
  · intro key
    by_cases hkey : key = .blockindex (P.scryptBlockHash (CDiskBlockIndex.ofIndex pindex).header)
    · subst hkey
      rw [h.onDisk]
      exact BatchStore.read_write
    · exact BatchStore.read_write_of_ne hkey
  · intro k
    rw [justChecked, BlockTree.find_setSupply]
    by_cases hk : k = pindex.phashBlock
    · subst hk
      rw [if_pos rfl]
      cases hb : s.mapBlockIndex.find pindex.phashBlock with
      | none => rfl
      | some b =>
        obtain ⟨hmint, hsupply⟩ := h.inMemory b hb
        rw [Option.map_some, ← hmint, ← hsupply]
    · rw [if_neg hk]

theorem untouched_iff : Untouched s (endState (block.connectBlock P env pindex true s)) ↔
    NothingNew P env s pindex block := by
  rw [justCheck_run, NothingNew]
  cases hc : connectChecks P env s pindex true block with
  | error e => exact ⟨fun _ acc h => (nomatch h), fun _ => ⟨fun _ => rfl, fun _ => rfl, rfl, rfl⟩⟩
  | ok acc =>
    rw [endState_ok, untouched_justChecked_iff]
    refine ⟨?_, fun h => h acc rfl⟩
    intro h acc' hacc
    obtain rfl := Except.ok.inj hacc
    exact h

end CBlock

/-! ## Blocks to check -/

namespace Sample

open CBlock

/-- The record a caller makes for a block it means to check, at (1, 1). -/
def indexDummy (block : CBlock) : CBlockIndex :=
  { CBlockIndex.ofBlock 1 1 block with pprev := some block.hashPrevBlock, nHeight := 12 }

/-- A block that spends a transaction of its own is connected where it lies
on disk, and refused by a just-check there. -/
example :
    let s := { matured with disk := matured.disk.append mintingBlock }
    let pindex := { CBlockIndex.ofBlock matured.disk.nextFile matured.disk.nextPos mintingBlock with
      phashBlock := 112, pprev := some 111, nHeight := 12 }
    isOk (mintingBlock.connectBlock (params true) env pindex false s) ∧
      ¬ isOk (mintingBlock.connectBlock (params true) env pindex true s) := by
  decide +kernel

end Sample

end Pinkcoin
