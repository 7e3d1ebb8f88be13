/-
Transactions with inputs that have not been seen: they are kept by hash and by
the transactions they spend, are offered to the memory pool when one of these
gets there, and are dropped at random when there are too many.
-/
import Mathlib.Data.Finset.Sort
import Pinkcoin.MainChain
import Pinkcoin.PoolFacts
import Pinkcoin.Lib.Inverted
import Pinkcoin.Lib.Runs

namespace Pinkcoin

open StateError
open Node (Loose)

/-! ## The transactions that are kept -/

def MAX_ORPHAN_TRANSACTIONS : Nat := MAX_BLOCK_SIZE / 100

/-- `CTransaction()`. -/
def CTransaction.null (env : Env) : CTransaction := ⟨1, env.adjustedTime.toNat, [], [], 0⟩

structure OrphanTxs where
  mapOrphanTransactions : Map Uint256 CTransaction
  mapOrphanTransactionsByPrev : Map Uint256 (Finset Uint256)

namespace OrphanTxs

def empty : OrphanTxs := ⟨∅, ∅⟩

variable (P : Params) (o : OrphanTxs)

def size : Nat := o.mapOrphanTransactions.keys.length

/-- `AddOrphanTx`. -/
def addOrphanTx (tx : CTransaction) : Bool × OrphanTxs :=
  let hash := tx.getHash P
  if (o.mapOrphanTransactions.lookup hash).isSome then (false, o)
  else if 5000 < tx.getSerializeSize then (false, o)
  else (true,
    { mapOrphanTransactions := o.mapOrphanTransactions.insert hash tx
      mapOrphanTransactionsByPrev :=
        (tx.vin.map fun txin => txin.prevout.hash).foldl (Inverted.add hash) o.mapOrphanTransactionsByPrev })

/-- `EraseOrphanTx`. -/
def eraseOrphanTx (hash : Uint256) : OrphanTxs :=
  match o.mapOrphanTransactions.lookup hash with
  | none => o
  | some tx =>
    { mapOrphanTransactions := o.mapOrphanTransactions.erase hash
      mapOrphanTransactionsByPrev :=
        (tx.vin.map fun txin => txin.prevout.hash).foldl (Inverted.drop hash) o.mapOrphanTransactionsByPrev }

/-- The orphan at `lower_bound(randomhash)`, or else the first. -/
def victim (randomhash : Uint256) : Option Uint256 :=
  ((o.mapOrphanTransactions.keys.filter (randomhash ≤ ·)).min?).or o.mapOrphanTransactions.keys.min?

/-- The loop of `LimitOrphanTxSize`, with the random hashes it draws. Each
turn takes one orphan, so their number is fuel enough. -/
def evictLoop (nMaxOrphans : Nat) (randomhash : Nat → Uint256) : Nat → Nat → OrphanTxs → Nat × OrphanTxs
  | 0, nEvicted, o => (nEvicted, o)
  | fuel + 1, nEvicted, o =>
    if nMaxOrphans < o.size then
      match o.victim (randomhash nEvicted) with
      | none => (nEvicted, o)
      | some hash => evictLoop nMaxOrphans randomhash fuel (nEvicted + 1) (o.eraseOrphanTx hash)
    else (nEvicted, o)

/-- `LimitOrphanTxSize`. -/
def limitOrphanTxSize (nMaxOrphans : Nat) (randomhash : Nat → Uint256) : Nat × OrphanTxs :=
  evictLoop nMaxOrphans randomhash o.size 0 o

end OrphanTxs

/-! ## The message `tx` -/

/-- A node with the transactions it keeps. -/
structure TxNode where
  node : Node
  orphans : OrphanTxs

/-- In the middle of a message: the hashes not yet looked at, and those to
erase. -/
structure TxWork where
  node : Node
  orphans : OrphanTxs
  vWorkQueue : List Uint256
  vEraseQueue : List Uint256

namespace TxWork

variable (P : Params) (env : Env)

/-- One orphan is offered to the pool. `mapOrphanTransactions[…]` would put
an empty transaction under a hash that is not there. -/
def tryOrphan (w : TxWork) (orphanTxHash : Uint256) : TxWork :=
  let orphanTx := (w.orphans.mapOrphanTransactions.lookup orphanTxHash).getD (.null env)
  let orphans : OrphanTxs :=
    if (w.orphans.mapOrphanTransactions.lookup orphanTxHash).isSome then w.orphans
    else { w.orphans with mapOrphanTransactions := w.orphans.mapOrphanTransactions.insert orphanTxHash orphanTx }
  match acceptChecks P env w.node orphanTx with
  | .ok _ =>
    { node := endState (acceptToMemoryPool P env orphanTx w.node)
      orphans := orphans
      vWorkQueue := w.vWorkQueue ++ [orphanTxHash]
      vEraseQueue := w.vEraseQueue ++ [orphanTxHash] }
  | .error e =>
    -- an invalid orphan goes too
    if e.fMissingInputs then { w with orphans := orphans }
    else { w with orphans := orphans, vEraseQueue := w.vEraseQueue ++ [orphanTxHash] }

/-- The orphans that spend one transaction of the queue. -/
def visit (w : TxWork) (hashPrev : Uint256) : TxWork :=
  match w.orphans.mapOrphanTransactionsByPrev.lookup hashPrev with
  | none => w
  | some hashes => (hashes.sort (· ≤ ·)).foldl (tryOrphan P env) w

/-- The loop over `vWorkQueue`, which grows at its end. -/
def workLoop : Nat → TxWork → TxWork
  | 0, w => w
  | fuel + 1, w =>
    match w.vWorkQueue with
    | [] => w
    | hash :: rest => workLoop fuel (visit P env { w with vWorkQueue := rest } hash)

end TxWork

namespace TxNode

variable (P : Params) (env : Env) (tx : CTransaction) (r : TxNode)

/-- A transaction was accepted, and the orphans that wait for it are worked
through. No hash gets on the queue twice, so the number of orphans is fuel
enough. -/
def work : TxWork :=
  TxWork.workLoop P env (r.orphans.size + 1)
    { node := endState (acceptToMemoryPool P env tx r.node)
      orphans := r.orphans
      vWorkQueue := [tx.getHash P]
      vEraseQueue := [tx.getHash P] }

/-- The message `tx`, without what is asked of, told to and held against
peers. -/
def txMessage (randomhash : Nat → Uint256) : TxNode :=
  match acceptChecks P env r.node tx with
  | .ok _ =>
    let w := r.work P env tx
    ⟨w.node, w.vEraseQueue.foldl (fun o hash => o.eraseOrphanTx hash) w.orphans⟩
  | .error e =>
    if e.fMissingInputs then
      { r with orphans := ((r.orphans.addOrphanTx P tx).2.limitOrphanTxSize MAX_ORPHAN_TRANSACTIONS randomhash).2 }
    else r

end TxNode

/-! ## The index of the orphans -/

/-- A transaction has an input from another. -/
def CTransaction.HasInput (tx : CTransaction) (hashPrev : Uint256) : Prop := ∃ txin ∈ tx.vin, txin.prevout.hash = hashPrev

namespace OrphanTxs

variable {P : Params} {o : OrphanTxs} {tx : CTransaction} {hash : Uint256}

/-- Each orphan is under its hash, `mapOrphanTransactionsByPrev` says which of
them have an input from a transaction, and it has no empty sets. -/
structure Indexed (P : Params) (o : OrphanTxs) : Prop where
  keyed : ∀ hash tx, o.mapOrphanTransactions.lookup hash = some tx → tx.getHash P = hash
  byPrev : ∀ hashPrev hash, Inverted.Has o.mapOrphanTransactionsByPrev hashPrev hash ↔
    ∃ tx, o.mapOrphanTransactions.lookup hash = some tx ∧ tx.HasInput hashPrev
  tidy : Inverted.Tidy o.mapOrphanTransactionsByPrev

theorem indexed_empty : Indexed P empty where
  keyed := fun hash tx h => nomatch h
  byPrev := fun hashPrev hash =>
    ⟨fun h => absurd h Inverted.not_has_empty, fun ⟨tx, h, _⟩ => nomatch h⟩
  tidy := Inverted.tidy_empty

theorem mem_prevHashes {hashPrev : Uint256} : hashPrev ∈ tx.vin.map (fun txin => txin.prevout.hash) ↔ tx.HasInput hashPrev :=
  List.mem_map

theorem indexed_addOrphanTx (h : Indexed P o) (tx : CTransaction) : Indexed P (o.addOrphanTx P tx).2 := by
  unfold addOrphanTx
  by_cases hkept : (o.mapOrphanTransactions.lookup (tx.getHash P)).isSome
  · simpa [hkept] using h
  · by_cases hlarge : 5000 < tx.getSerializeSize
    · simpa [hkept, hlarge] using h
    · have hnone : o.mapOrphanTransactions.lookup (tx.getHash P) = none := by simpa using hkept
      simp only [hkept, hlarge, Bool.false_eq_true, if_false]
      refine ⟨fun hash u hu => ?_, fun hashPrev hash => ?_, Inverted.tidy_addAll h.tidy⟩
      · by_cases heq : hash = tx.getHash P
        · rw [heq, AList.lookup_insert] at hu
          rw [heq, ← Option.some.inj hu]
        · rw [AList.lookup_insert_ne heq] at hu
          exact h.keyed hash u hu
      · rw [Inverted.has_addAll, h.byPrev, mem_prevHashes]
        by_cases heq : hash = tx.getHash P
        · subst heq
          rw [AList.lookup_insert, hnone]
          simp
        · rw [AList.lookup_insert_ne heq]
          simp [heq]

theorem lookup_eraseOrphanTx (hash' : Uint256) : (o.eraseOrphanTx hash).mapOrphanTransactions.lookup hash' =
    if hash' = hash then none else o.mapOrphanTransactions.lookup hash' := by
  unfold eraseOrphanTx
  by_cases heq : hash' = hash
  · subst heq
    rw [if_pos rfl]
    cases hlookup : o.mapOrphanTransactions.lookup hash' with
    | none => exact hlookup
    | some tx => exact AList.lookup_erase _ _
  · rw [if_neg heq]
    cases hlookup : o.mapOrphanTransactions.lookup hash with
    | none => rfl
    | some tx => exact AList.lookup_erase_ne heq

theorem indexed_eraseOrphanTx (h : Indexed P o) (hash : Uint256) : Indexed P (o.eraseOrphanTx hash) := by
  refine ⟨fun hash' u hu => ?_, fun hashPrev hash' => ?_, ?_⟩
  · rw [lookup_eraseOrphanTx] at hu
    by_cases heq : hash' = hash
    · rw [if_pos heq] at hu
      exact nomatch hu
    · rw [if_neg heq] at hu
      exact h.keyed hash' u hu
  · rw [lookup_eraseOrphanTx]
    unfold eraseOrphanTx
    cases hlookup : o.mapOrphanTransactions.lookup hash with
    | none =>
      dsimp only
      rw [h.byPrev]
      by_cases heq : hash' = hash
      · subst heq
        simp [hlookup]
      · simp [heq]
    | some tx =>
      dsimp only
      rw [Inverted.has_dropAll, h.byPrev, mem_prevHashes]
      by_cases heq : hash' = hash
      · subst heq
        simp [hlookup]
      · simp [heq]
  · unfold eraseOrphanTx
    cases o.mapOrphanTransactions.lookup hash with
    | none => exact h.tidy
    | some tx => exact Inverted.tidy_dropAll h.tidy

theorem indexed_eraseAll (h : Indexed P o) (hashes : List Uint256) :
    Indexed P (hashes.foldl (fun o hash => o.eraseOrphanTx hash) o) := by
  induction hashes generalizing o with
  | nil => exact h
  | cons hash hashes ih => exact ih (indexed_eraseOrphanTx h hash)

theorem lookup_eraseAll (hashes : List Uint256) {hash : Uint256}
    (hlookup : (hashes.foldl (fun o hash => o.eraseOrphanTx hash) o).mapOrphanTransactions.lookup hash = some tx) :
    hash ∉ hashes ∧ o.mapOrphanTransactions.lookup hash = some tx := by
  induction hashes generalizing o with
  | nil => exact ⟨List.not_mem_nil, hlookup⟩
  | cons a hashes ih =>
    obtain ⟨hnot, hrest⟩ := ih hlookup
    rw [lookup_eraseOrphanTx] at hrest
    by_cases heq : hash = a
    · rw [if_pos heq] at hrest
      exact nomatch hrest
    · rw [if_neg heq] at hrest
      exact ⟨fun hmem => (List.mem_cons.mp hmem).elim heq hnot, hrest⟩

/-! ## The limit -/

theorem mem_of_victim {randomhash : Uint256} (h : o.victim randomhash = some hash) : hash ∈ o.mapOrphanTransactions.keys := by
  unfold victim at h
  rw [Option.or_eq_some_iff] at h
  rcases h with h | ⟨-, h⟩
  · exact List.mem_of_mem_filter (List.min?_mem h)
  · exact List.min?_mem h

theorem exists_victim (randomhash : Uint256) (h : 0 < o.size) : ∃ hash, o.victim randomhash = some hash := by
  have hne : o.mapOrphanTransactions.keys ≠ [] := List.ne_nil_of_length_pos h
  obtain ⟨first, hfirst⟩ : ∃ first, o.mapOrphanTransactions.keys.min? = some first :=
    Option.ne_none_iff_exists'.mp fun hnone => hne (List.min?_eq_none_iff.mp hnone)
  unfold victim
  cases (o.mapOrphanTransactions.keys.filter (randomhash ≤ ·)).min? with
  | none => exact ⟨first, by simpa using hfirst⟩
  | some hash => exact ⟨hash, rfl⟩

theorem size_eraseOrphanTx (h : hash ∈ o.mapOrphanTransactions.keys) : (o.eraseOrphanTx hash).size + 1 = o.size := by
  obtain ⟨tx, htx⟩ := Option.isSome_iff_exists.mp (AList.lookup_isSome.mpr (AList.mem_keys.mpr h))
  have hpos := List.length_pos_of_mem h
  rw [size, eraseOrphanTx, htx]
  dsimp only
  rw [AList.keys_erase, List.length_erase_of_mem h, size]
  omega

/-- **`LimitOrphanTxSize` ends below the limit**: each turn takes one orphan. -/
theorem evictLoop_spec (nMaxOrphans : Nat) (randomhash : Nat → Uint256) (fuel nEvicted : Nat) (h : Indexed P o)
    (hfuel : o.size ≤ nMaxOrphans + fuel) :
    Indexed P (evictLoop nMaxOrphans randomhash fuel nEvicted o).2 ∧
      (evictLoop nMaxOrphans randomhash fuel nEvicted o).2.size ≤ nMaxOrphans := by
  induction fuel generalizing nEvicted o with
  | zero => exact ⟨h, hfuel⟩
  | succ fuel ih =>
    unfold evictLoop
    by_cases hmany : nMaxOrphans < o.size
    · obtain ⟨hash, hvictim⟩ := exists_victim (randomhash nEvicted) (Nat.zero_lt_of_lt hmany)
      have hsize := size_eraseOrphanTx (mem_of_victim hvictim)
      rw [if_pos hmany, hvictim]
      exact ih (nEvicted + 1) (indexed_eraseOrphanTx h hash) (by omega)
    · rw [if_neg hmany]
      exact ⟨h, Nat.le_of_not_lt hmany⟩

theorem limitOrphanTxSize_spec (nMaxOrphans : Nat) (randomhash : Nat → Uint256) (h : Indexed P o) :
    Indexed P (o.limitOrphanTxSize nMaxOrphans randomhash).2 ∧
      (o.limitOrphanTxSize nMaxOrphans randomhash).2.size ≤ nMaxOrphans :=
  evictLoop_spec nMaxOrphans randomhash o.size 0 h (Nat.le_add_left _ _)

end OrphanTxs

/-! ## Inputs that are there -/

/-- `FetchInputs` of a loose transaction finds the transaction: its record is
in the index and it can be read, or it is in the memory pool. -/
def Node.Available (env : Env) (s : Node) (hash : Uint256) : Prop :=
  ∃ prev, CTransaction.fetchPrev env s ∅ false false hash = .ok prev

/-- Some input of the transaction is of one that is not there. -/
def CTransaction.Lacks (env : Env) (s : Node) (tx : CTransaction) : Prop :=
  ∃ hashPrev, tx.HasInput hashPrev ∧ ¬ s.Available env hashPrev

section

variable {P : Params} {env : Env} {s s' : Node} {tx : CTransaction} {hash : Uint256}

theorem fetchLoop_error {fBlock fMiner : Bool} {pool : Map Uint256 CTxIndex} {e : CTransaction.FetchError} (vin : List CTxIn)
    {inputs : MapPrevTx} (h : CTransaction.fetchLoop env s pool fBlock fMiner vin inputs = .error e) :
    ∃ txin ∈ vin, CTransaction.fetchPrev env s pool fBlock fMiner txin.prevout.hash = .error e := by
  induction vin generalizing inputs with
  | nil => exact nomatch h
  | cons txin vin ih =>
    unfold CTransaction.fetchLoop at h
    by_cases hknown : (inputs.lookup txin.prevout.hash).isSome
    · rw [if_pos hknown] at h
      obtain ⟨later, hmem, herror⟩ := ih h
      exact ⟨later, List.mem_cons_of_mem _ hmem, herror⟩
    · rw [if_neg hknown] at h
      cases hprev : CTransaction.fetchPrev env s pool fBlock fMiner txin.prevout.hash with
      | error e' =>
        rw [hprev] at h
        cases h
        exact ⟨txin, List.mem_cons_self, hprev⟩
      | ok prev =>
        rw [hprev] at h
        obtain ⟨later, hmem, herror⟩ := ih h
        exact ⟨later, List.mem_cons_of_mem _ hmem, herror⟩

/-- Inputs are missing only where one is not there. -/
theorem lacks_of_fetchError {e : CTransaction.FetchError} (h : tx.fetchInputs env s ∅ false false = .error e)
    (hvalid : e.fInvalid = false) : tx.Lacks env s := by
  unfold CTransaction.fetchInputs at h
  by_cases hcoinbase : tx.isCoinBase
  · rw [if_pos hcoinbase] at h
    exact nomatch h
  · rw [if_neg hcoinbase] at h
    rcases except_bind_error.mp h with h | ⟨_, -, h⟩
    · obtain ⟨txin, hmem, herror⟩ := fetchLoop_error tx.vin h
      refine ⟨txin.prevout.hash, ⟨txin, hmem, rfl⟩, fun havail => ?_⟩
      obtain ⟨prev, hprev⟩ := havail
      rw [herror] at hprev
      exact nomatch hprev
    · rcases except_bind_error.mp h with h | ⟨_, -, h⟩
      · obtain ⟨-, rfl⟩ := except_rejectIf_error.mp h
        exact nomatch hvalid
      · exact nomatch h

theorem lacks_of_fMissingInputs {e : AcceptError} (h : acceptChecks P env s tx = .error e) (hmissing : e.fMissingInputs = true) :
    tx.Lacks env s := by
  have hof : ∀ reject, e ≠ AcceptError.of reject := fun reject heq => by
    rw [heq] at hmissing
    exact nomatch hmissing
  unfold acceptChecks at h
  rcases except_bind_error.mp h with h | ⟨_, -, h⟩
  · obtain ⟨_, -, heq⟩ := except_mapError_error.mp h
    exact absurd heq.symm (hof _)
  rcases except_bind_error.mp h with h | ⟨_, -, h⟩
  · exact absurd (except_rejectIf_error.mp h).2 (hof _)
  rcases except_bind_error.mp h with h | ⟨_, -, h⟩
  · exact absurd (except_rejectIf_error.mp h).2 (hof _)
  rcases except_bind_error.mp h with h | ⟨_, -, h⟩
  · exact absurd (except_rejectIf_error.mp h).2 (hof _)
  rcases except_bind_error.mp h with h | ⟨_, -, h⟩
  · exact absurd (except_rejectIf_error.mp h).2 (hof _)
  rcases except_bind_error.mp h with h | ⟨_, -, h⟩
  · exact absurd (except_rejectIf_error.mp h).2 (hof _)
  rcases except_bind_error.mp h with h | ⟨_, -, h⟩
  · exact absurd (except_rejectIf_error.mp h).2 (hof _)
  cases hfetch : tx.fetchInputs env s ∅ false false with
  | error e' =>
    rw [hfetch] at h
    have heq := except_throw_error.mp h
    cases hinvalid : e'.fInvalid with
    | true => exact absurd (by rw [heq, hinvalid, if_pos rfl]) (hof _)
    | false => exact lacks_of_fetchError hfetch hinvalid
  | ok mapInputs =>
    rw [hfetch] at h
    rcases except_bind_error.mp h with h | ⟨_, -, h⟩
    · exact absurd (except_rejectIf_error.mp h).2 (hof _)
    rcases except_bind_error.mp h with h | ⟨_, -, h⟩
    · exact absurd (except_rejectIf_error.mp h).2 (hof _)
    rcases except_bind_error.mp h with h | ⟨_, -, h⟩
    · exact absurd (except_rejectIf_error.mp h).2 (hof _)
    split at h
    next => exact absurd (except_throw_error.mp h) (hof _)
    next => exact nomatch h

/-- What there is depends on the index, the block files and the pool. -/
theorem available_iff : s.Available env hash ↔
    match s.txdb.readTxIndex hash with
    | none => (s.mempool.lookup hash).isSome
    | some txindex =>
      if txindex.pos = some ⟨1, 1, 1⟩ then (s.mempool.lookup hash).isSome else (s.readTx env txindex.pos).isSome := by
  unfold Node.Available CTransaction.fetchPrev
  simp only [Bool.or_self, Bool.false_eq_true, if_false, Option.none_or]
  cases s.txdb.readTxIndex hash with
  | none => cases s.mempool.lookup hash <;> simp [throw, throwThe, MonadExceptOf.throw, pure, Except.pure]
  | some txindex =>
    dsimp only
    split
    next => cases s.mempool.lookup hash <;> simp [throw, throwThe, MonadExceptOf.throw, pure, Except.pure]
    next => cases s.readTx env txindex.pos <;> simp [throw, throwThe, MonadExceptOf.throw, pure, Except.pure]

/-- A transaction gets into the pool, which did not have it. -/
structure Joins (env : Env) (s s' : Node) (hash : Uint256) : Prop where
  pool : ∀ h, (s'.mempool.lookup h).isSome ↔ h = hash ∨ (s.mempool.lookup h).isSome
  new : s.mempool.lookup hash = none
  there : s'.Available env hash
  others : ∀ h, h ≠ hash → (s'.Available env h ↔ s.Available env h)

theorem joins_of_ok {u : Unit} (h : acceptChecks P env s tx = .ok u) :
    Joins env s (endState (acceptToMemoryPool P env tx s)) (tx.getHash P) := by
  have hloose : Loose s (endState (acceptToMemoryPool P env tx s)) := keeps_acceptToMemoryPool tx s
  have hpool : (endState (acceptToMemoryPool P env tx s)).mempool = s.mempool.addUnchecked (tx.getHash P) tx := by
    rw [acceptToMemoryPool_of_ok h]
    rfl
  generalize endState (acceptToMemoryPool P env tx s) = s' at hloose hpool
  have htxdb : s'.txdb = s.txdb := by rw [hloose]
  have hread : ∀ pos, s'.readTx env pos = s.readTx env pos := by rw [hloose]; exact fun _ => rfl
  simp only [acceptChecks, except_bind_ok, except_mapError_ok, except_rejectIf_ok] at h
  obtain ⟨_, -, _, -, _, -, _, -, _, hnew, _, hindex, -⟩ := h
  have hnone : s.txdb.readTxIndex (tx.getHash P) = none := by
    unfold CTxDB.containsTx at hindex
    unfold CTxDB.readTxIndex BatchStore.Store.read
    cases hscan : BatchStore.scan (DbKey.tx (tx.getHash P)) s.txdb.ops with
    | none =>
      rw [hscan] at hindex
      simpa using hindex
    | some v =>
      cases v with
      | none => rfl
      | some txindex => simp [hscan] at hindex
  have hlookup : ∀ h, s'.mempool.lookup h = if h = tx.getHash P then some tx else s.mempool.lookup h := fun h => by
    rw [hpool]
    exact CTxMemPool.lookup_addUnchecked h
  refine ⟨fun h => ?_, by simpa using hnew, ?_, fun h hne => ?_⟩
  · rw [hlookup]
    by_cases heq : h = tx.getHash P
    · simp [heq]
    · simp [heq]
  · rw [available_iff, htxdb, hnone, hlookup, if_pos rfl]
    rfl
  · rw [available_iff, available_iff, htxdb, hlookup, if_neg hne]
    simp only [hread]

theorem Joins.lacks (h : Joins env s s' hash) (hlacks : tx.Lacks env s) : tx.Lacks env s' ∨ tx.HasInput hash := by
  obtain ⟨hashPrev, hinput, hnot⟩ := hlacks
  by_cases heq : hashPrev = hash
  · exact .inr (heq ▸ hinput)
  · exact .inl ⟨hashPrev, hinput, fun havail => hnot ((h.others hashPrev heq).mp havail)⟩

end

/-! ## The orphans that wait for an accepted transaction -/

/-- The transaction got into the pool between two states of the node. -/
def Node.Accepted (s s' : Node) (hash : Uint256) : Prop := s.mempool.lookup hash = none ∧ (s'.mempool.lookup hash).isSome

theorem Joins.accepted {env : Env} {s₀ s s' : Node} {hash h : Uint256} (hjoins : Joins env s s' hash) (haccepted : s₀.Accepted s' h) :
    h = hash ∨ s₀.Accepted s h :=
  ((hjoins.pool h).mp haccepted.2).imp id fun hold => ⟨haccepted.1, hold⟩

/-- **An orphan with an input from a transaction that was accepted lacks
another input.** -/
def Unready (env : Env) (r r' : TxNode) : Prop :=
  ∀ hash tx, r'.orphans.mapOrphanTransactions.lookup hash = some tx →
    ∀ hashPrev, tx.HasInput hashPrev → r.node.Accepted r'.node hashPrev →
      ∃ other, tx.HasInput other ∧ ¬ r.node.Accepted r'.node other ∧ ¬ r'.node.Available env other

/-- In the middle of the work, with the hashes that were looked at and the
orphans of the present one that are still to be tried: no hash gets on the
queue twice, what was accepted is there, and an orphan that is not to be
erased and has an input from what was accepted lacks another one, or has one
from what is still on the queue, or is still to be tried. -/
structure Working (P : Params) (env : Env) (r : TxNode) (first : Uint256) (visited pending : List Uint256) (w : TxWork) :
    Prop where
  orphans : w.orphans = r.orphans
  once : (visited ++ w.vWorkQueue).Nodup
  known : ∀ h ∈ visited ++ w.vWorkQueue, h = first ∨ h ∈ r.orphans.mapOrphanTransactions.keys
  inPool : ∀ h ∈ visited ++ w.vWorkQueue, (w.node.mempool.lookup h).isSome
  there : ∀ h, r.node.Accepted w.node h → w.node.Available env h
  settled : ∀ hash tx, r.orphans.mapOrphanTransactions.lookup hash = some tx → hash ∉ w.vEraseQueue →
    ∀ hashPrev, tx.HasInput hashPrev → r.node.Accepted w.node hashPrev →
      tx.Lacks env w.node ∨ (∃ next ∈ w.vWorkQueue, tx.HasInput next) ∨ hash ∈ pending

section

variable {P : Params} {env : Env} {r : TxNode} {w : TxWork} {first hash : Uint256} {visited pending : List Uint256}

/-- One orphan is tried: it is accepted, it goes, or it lacks an input. -/
theorem working_tryOrphan (hindexed : OrphanTxs.Indexed P r.orphans) (hmem : hash ∈ r.orphans.mapOrphanTransactions.keys)
    (h : Working P env r first visited (hash :: pending) w) : Working P env r first visited pending (w.tryOrphan P env hash) := by
  obtain ⟨orphanTx, hlookup⟩ := Option.isSome_iff_exists.mp (AList.lookup_isSome.mpr (AList.mem_keys.mpr hmem))
  have hhash := hindexed.keyed hash orphanTx hlookup
  unfold TxWork.tryOrphan
  rw [h.orphans, hlookup]
  simp only [Option.getD_some, Option.isSome_some, if_true]
  cases hchecks : acceptChecks P env w.node orphanTx with
  | ok u =>
    have hjoins := joins_of_ok hchecks
    rw [hhash] at hjoins
    have hfresh : hash ∉ visited ++ w.vWorkQueue := fun hin => by
      have hsome := h.inPool hash hin
      rw [hjoins.new] at hsome
      exact nomatch hsome
    have hall : ∀ h' ∈ visited ++ (w.vWorkQueue ++ [hash]), h' ∈ visited ++ w.vWorkQueue ∨ h' = hash := fun h' hin => by
      rwa [← List.append_assoc, List.mem_append, List.mem_singleton] at hin
    refine ⟨rfl, ?_, fun h' hin => ?_, fun h' hin => ?_, fun h' haccepted => ?_, ?_⟩
    · rw [← List.append_assoc]
      exact List.nodup_append.mpr ⟨h.once, List.nodup_singleton _, fun a ha b hb heq =>
        hfresh (List.mem_singleton.mp hb ▸ heq ▸ ha)⟩
    · rcases hall h' hin with hold | rfl
      · exact h.known h' hold
      · exact .inr hmem
    · rcases hall h' hin with hold | rfl
      · exact (hjoins.pool h').mpr (.inr (h.inPool h' hold))
      · exact (hjoins.pool h').mpr (.inl rfl)
    · by_cases heq : h' = hash
      · exact heq ▸ hjoins.there
      · exact (hjoins.others h' heq).mpr (h.there h' ((hjoins.accepted haccepted).resolve_left heq))
    · intro h' tx htx hnot hashPrev hinput haccepted
      have hne : h' ≠ hash ∧ h' ∉ w.vEraseQueue := by
        rw [List.mem_append, List.mem_singleton, not_or] at hnot
        exact ⟨hnot.2, hnot.1⟩
      have hlast : tx.HasInput hash → ∃ next ∈ w.vWorkQueue ++ [hash], tx.HasInput next := fun hinput =>
        ⟨hash, List.mem_append_right _ (List.mem_singleton_self _), hinput⟩
      rcases hjoins.accepted haccepted with rfl | hold
      · exact .inr (.inl (hlast hinput))
      rcases h.settled h' tx htx hne.2 hashPrev hinput hold with hlacks | ⟨next, hnext, hin⟩ | hpending
      · exact (hjoins.lacks hlacks).imp id fun hin => .inl (hlast hin)
      · exact .inr (.inl ⟨next, List.mem_append_left _ hnext, hin⟩)
      · exact .inr (.inr ((List.mem_cons.mp hpending).resolve_left hne.1))
  | error e =>
    dsimp only
    cases hmissing : e.fMissingInputs with
    | true =>
      rw [if_pos rfl]
      refine ⟨rfl, h.once, h.known, h.inPool, h.there, ?_⟩
      intro h' tx htx hnot hashPrev hinput haccepted
      by_cases heq : h' = hash
      · obtain rfl : tx = orphanTx := Option.some.inj (htx.symm.trans (heq ▸ hlookup))
        exact .inl (lacks_of_fMissingInputs hchecks hmissing)
      · exact (h.settled h' tx htx hnot hashPrev hinput haccepted).imp id fun hrest =>
          hrest.imp id fun hpending => (List.mem_cons.mp hpending).resolve_left heq
    | false =>
      rw [if_neg Bool.false_ne_true]
      refine ⟨rfl, h.once, h.known, h.inPool, h.there, ?_⟩
      intro h' tx htx hnot hashPrev hinput haccepted
      have hne : h' ≠ hash ∧ h' ∉ w.vEraseQueue := by
        rw [List.mem_append, List.mem_singleton, not_or] at hnot
        exact ⟨hnot.2, hnot.1⟩
      exact (h.settled h' tx htx hne.2 hashPrev hinput haccepted).imp id fun hrest =>
        hrest.imp id fun hpending => (List.mem_cons.mp hpending).resolve_left hne.1

theorem working_tryAll (hindexed : OrphanTxs.Indexed P r.orphans) (hashes : List Uint256)
    (hmem : ∀ hash ∈ hashes, hash ∈ r.orphans.mapOrphanTransactions.keys) (h : Working P env r first visited hashes w) :
    Working P env r first visited [] (hashes.foldl (TxWork.tryOrphan P env) w) := by
  induction hashes generalizing w with
  | nil => exact h
  | cons hash hashes ih =>
    obtain ⟨hone, hrest⟩ := List.forall_mem_cons.mp hmem
    exact ih hrest (working_tryOrphan hindexed hone h)

/-- All orphans with an input from one transaction of the queue are tried. -/
theorem working_visit (hindexed : OrphanTxs.Indexed P r.orphans) {rest : List Uint256} (hqueue : w.vWorkQueue = hash :: rest)
    (h : Working P env r first visited [] w) :
    Working P env r first (visited ++ [hash]) [] (TxWork.visit P env { w with vWorkQueue := rest } hash) := by
  have hlist : visited ++ [hash] ++ rest = visited ++ w.vWorkQueue := by
    rw [hqueue, List.append_assoc, List.singleton_append]
  -- an orphan that has an input from this one, and was not settled otherwise, is now to be tried
  have hstart : ∀ pending, (∀ h' tx, r.orphans.mapOrphanTransactions.lookup h' = some tx → tx.HasInput hash → h' ∈ pending) →
      Working P env r first (visited ++ [hash]) pending { w with vWorkQueue := rest } := by
    intro pending hpending
    refine ⟨h.orphans, hlist ▸ h.once, hlist ▸ h.known, hlist ▸ h.inPool, h.there, ?_⟩
    intro h' tx htx hnot hashPrev hinput haccepted
    rcases h.settled h' tx htx hnot hashPrev hinput haccepted with hlacks | ⟨next, hnext, hin⟩ | hnil
    · exact .inl hlacks
    · rw [hqueue] at hnext
      rcases List.mem_cons.mp hnext with rfl | hnext
      · exact .inr (.inr (hpending h' tx htx hin))
      · exact .inr (.inl ⟨next, hnext, hin⟩)
    · exact nomatch hnil
  unfold TxWork.visit
  dsimp only
  cases hprev : w.orphans.mapOrphanTransactionsByPrev.lookup hash with
  | none =>
    rw [h.orphans] at hprev
    refine hstart [] fun h' tx htx hin => ?_
    obtain ⟨S, hS, -⟩ := (hindexed.byPrev hash h').mpr ⟨tx, htx, hin⟩
    rw [hprev] at hS
    exact nomatch hS
  | some S =>
    rw [h.orphans] at hprev
    refine working_tryAll hindexed _ (fun h' hin => ?_) (hstart _ fun h' tx htx hin => ?_)
    · obtain ⟨tx, htx, -⟩ := (hindexed.byPrev hash h').mp ⟨S, hprev, (Finset.mem_sort _).mp hin⟩
      exact AList.mem_keys.mp (AList.lookup_isSome.mp (by rw [htx]; rfl))
    · obtain ⟨S', hS', hmem⟩ := (hindexed.byPrev hash h').mpr ⟨tx, htx, hin⟩
      obtain rfl : S = S' := Option.some.inj (hprev.symm.trans hS')
      exact (Finset.mem_sort _).mpr hmem

/-- **The queue is worked off.** It never holds a hash twice, and only that of
the message and those of orphans, so their number of turns is enough. -/
theorem working_workLoop (hindexed : OrphanTxs.Indexed P r.orphans) (fuel : Nat) (hfuel : r.orphans.size + 1 ≤ visited.length + fuel)
    (h : Working P env r first visited [] w) :
    (TxWork.workLoop P env fuel w).vWorkQueue = [] ∧
      ∃ visited', Working P env r first visited' [] (TxWork.workLoop P env fuel w) := by
  induction fuel generalizing visited w with
  | zero =>
    have hsub : visited ++ w.vWorkQueue ⊆ first :: r.orphans.mapOrphanTransactions.keys := fun h' hin =>
      List.mem_cons.mpr (h.known h' hin)
    have hlength := (List.subperm_of_subset h.once hsub).length_le
    rw [List.length_append, List.length_cons] at hlength
    rw [OrphanTxs.size] at hfuel
    have hempty : w.vWorkQueue = [] := List.length_eq_zero_iff.mp (by omega)
    exact ⟨hempty, visited, h⟩
  | succ fuel ih =>
    unfold TxWork.workLoop
    cases hqueue : w.vWorkQueue with
    | nil => exact ⟨hqueue, visited, h⟩
    | cons hash rest => exact ih (by simp only [List.length_append, List.length_singleton]; omega) (working_visit hindexed hqueue h)

/-- **What a message leaves settled.** -/
theorem unready_txMessage (randomhash : Nat → Uint256) {tx : CTransaction} {u : Unit} (hindexed : OrphanTxs.Indexed P r.orphans)
    (haccept : acceptChecks P env r.node tx = .ok u) :
    (r.work P env tx).vWorkQueue = [] ∧ Unready env r (r.txMessage P env tx randomhash) ∧
      OrphanTxs.Indexed P (r.txMessage P env tx randomhash).orphans := by
  have hjoins := joins_of_ok haccept
  have hstart : Working P env r (tx.getHash P) [] []
      ⟨endState (acceptToMemoryPool P env tx r.node), r.orphans, [tx.getHash P], [tx.getHash P]⟩ := by
    have haccepted : ∀ h, r.node.Accepted (endState (acceptToMemoryPool P env tx r.node)) h → h = tx.getHash P := fun h haccepted =>
      (hjoins.accepted haccepted).resolve_right fun hold => by
        have hsome := hold.2
        rw [hold.1] at hsome
        exact nomatch hsome
    refine ⟨rfl, List.nodup_singleton _, fun h hin => .inl (List.mem_singleton.mp hin), fun h hin => ?_, fun h hacc => ?_, ?_⟩
    · exact (hjoins.pool h).mpr (.inl (List.mem_singleton.mp hin))
    · exact haccepted h hacc ▸ hjoins.there
    · intro h' t ht hnot hashPrev hinput hacc
      exact .inr (.inl ⟨tx.getHash P, List.mem_singleton_self _, haccepted hashPrev hacc ▸ hinput⟩)
  obtain ⟨hempty, visited, hdone⟩ := working_workLoop hindexed (r.orphans.size + 1) (Nat.le_add_left _ _) hstart
  have hmessage : r.txMessage P env tx randomhash = ⟨(r.work P env tx).node,
      (r.work P env tx).vEraseQueue.foldl (fun o hash => o.eraseOrphanTx hash) (r.work P env tx).orphans⟩ := by
    unfold TxNode.txMessage
    rw [haccept]
  rw [hmessage]
  change (r.work P env tx).vWorkQueue = [] at hempty
  change Working P env r (tx.getHash P) visited [] (r.work P env tx) at hdone
  refine ⟨hempty, fun h' t ht hashPrev hinput haccepted => ?_, ?_⟩
  · obtain ⟨hnot, hkept⟩ := OrphanTxs.lookup_eraseAll _ ht
    rw [hdone.orphans] at hkept
    rcases hdone.settled h' t hkept hnot hashPrev hinput haccepted with ⟨other, hother, hgone⟩ | ⟨next, hnext, -⟩ | hnil
    · exact ⟨other, hother, fun hacc => hgone (hdone.there other hacc), hgone⟩
    · rw [hempty] at hnext
      exact nomatch hnext
    · exact nomatch hnil
  · rw [hdone.orphans]
    exact OrphanTxs.indexed_eraseAll hindexed _

end

/-! ## Runs -/

/-- What can happen to the orphans: the functions on them, a message `tx`,
and anything else to the node. -/
inductive TxEvent
  | addOrphanTx (tx : CTransaction)
  | eraseOrphanTx (hash : Uint256)
  | limitOrphanTxSize (nMaxOrphans : Nat) (randomhash : Nat → Uint256)
  | txMessage (env : Env) (tx : CTransaction) (randomhash : Nat → Uint256)
  | other (node : Node)

def TxEvent.run (P : Params) : TxEvent → TxNode → TxNode
  | addOrphanTx tx, r => { r with orphans := (r.orphans.addOrphanTx P tx).2 }
  | eraseOrphanTx hash, r => { r with orphans := r.orphans.eraseOrphanTx hash }
  | limitOrphanTxSize nMaxOrphans randomhash, r =>
    { r with orphans := (r.orphans.limitOrphanTxSize nMaxOrphans randomhash).2 }
  | txMessage env tx randomhash, r => r.txMessage P env tx randomhash
  | other node, r => { r with node := node }

theorem indexed_run {P : Params} (event : TxEvent) {r : TxNode} (h : OrphanTxs.Indexed P r.orphans) :
    OrphanTxs.Indexed P (event.run P r).orphans := by
  cases event with
  | addOrphanTx tx => exact OrphanTxs.indexed_addOrphanTx h tx
  | eraseOrphanTx hash => exact OrphanTxs.indexed_eraseOrphanTx h hash
  | limitOrphanTxSize nMaxOrphans randomhash => exact (OrphanTxs.limitOrphanTxSize_spec nMaxOrphans randomhash h).1
  | txMessage env tx randomhash =>
    show OrphanTxs.Indexed P (r.txMessage P env tx randomhash).orphans
    cases hchecks : acceptChecks P env r.node tx with
    | ok u => exact (unready_txMessage randomhash h hchecks).2.2
    | error e =>
      unfold TxNode.txMessage
      rw [hchecks]
      dsimp only
      split
      · exact (OrphanTxs.limitOrphanTxSize_spec _ randomhash (OrphanTxs.indexed_addOrphanTx h tx)).1
      · exact h
  | other node => exact h

/-- **The orphans in every run**, from a node that keeps none: the index by
previous transactions is exact and has no empty sets, the limit is met, and a
message whose transaction is accepted works off its queue and leaves every
orphan that spends what it brought lacking something else. -/
theorem orphanTxs_run (P : Params) (node : Node) (events : List TxEvent) :
    let r := Runs.play (TxEvent.run P) events ⟨node, .empty⟩
    OrphanTxs.Indexed P r.orphans ∧
      (∀ nMaxOrphans randomhash, (r.orphans.limitOrphanTxSize nMaxOrphans randomhash).2.size ≤ nMaxOrphans) ∧
      ∀ env tx randomhash, acceptChecks P env r.node tx = .ok () →
        (r.work P env tx).vWorkQueue = [] ∧ Unready env r (r.txMessage P env tx randomhash) := by
  have hindexed : OrphanTxs.Indexed P (Runs.play (TxEvent.run P) events ⟨node, .empty⟩).orphans :=
    @Runs.play_keeps _ _ _ (fun r : TxNode => OrphanTxs.Indexed P r.orphans) _ _ (fun event _ => indexed_run event)
      OrphanTxs.indexed_empty
  refine ⟨hindexed, fun nMaxOrphans randomhash => (OrphanTxs.limitOrphanTxSize_spec nMaxOrphans randomhash hindexed).2, ?_⟩
  intro env tx randomhash haccept
  obtain ⟨hempty, hsettled, -⟩ := unready_txMessage randomhash hindexed haccept
  exact ⟨hempty, hsettled⟩

end Pinkcoin
