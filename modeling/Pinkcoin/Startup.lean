/-
What the node does with the best chain it finds stored when it starts: the last
blocks are read and checked from the tip down, and where one is bad the chain is
moved back to the block before the lowest bad one. That is an ordinary change
of the best chain, which disconnects the very blocks found bad, and what it
returns is not looked at: the chain is repaired when the ledger can take back
what the files hold (`Recovers`), and left as it was otherwise.
-/
import Pinkcoin.TipAgrees

namespace Pinkcoin

open StateError

/-! ## What makes a block bad -/

section

variable (P : Params) (env : Env) (s : Node) (nCheckLevel : Int)

/-- Level 6, for one output that is spent: its spending is read, is valid, and
spends it. -/
def Node.badSpending (hashTx : Uint256) (txpos : CDiskTxPos) (nOutput : Nat) : Bool :=
  match s.readTx env (some txpos) with
  | none => true
  | some txSpend =>
    (txSpend.checkTransaction env).toBool = false ||
      !txSpend.vin.any fun txin => decide (txin.prevout = ⟨hashTx, nOutput⟩)

/-- Levels 4 and 6, for the outputs of a transaction: each that is spent is
spent in a block that was visited. -/
def Node.badSpent (mapBlockPos : List (Nat × Nat)) (hashTx : Uint256) (vSpent : List (Option CDiskTxPos)) : Bool :=
  vSpent.zipIdx.any fun out =>
    match out.1 with
    | none => false
    | some txpos => !mapBlockPos.contains (txpos.nFile, txpos.nBlockPos) ||
        (decide (5 < nCheckLevel) && s.badSpending env hashTx txpos out.2)

/-- Levels 2 and 3: a transaction that is indexed elsewhere is there. -/
def Node.mislocated (pindex : CBlockIndex) (hashTx : Uint256) (txindex : CTxIndex) : Bool :=
  if 2 < nCheckLevel ∨
      (txindex.pos.map fun pos => (pos.nFile, pos.nBlockPos)) ≠ some (pindex.nFile, pindex.nBlockPos) then
    match s.readTx env txindex.pos with
    | none => true
    | some txFound => decide (txFound.getHash P ≠ hashTx)
  else false

/-- Level 5: an indexed output that the transaction spends is not marked. -/
def Node.unmarked (tx : CTransaction) : Bool :=
  tx.vin.any fun txin =>
    match s.txdb.readTxIndex txin.prevout.hash with
    | none => false
    | some txindex => (txindex.vSpent[txin.prevout.n]?).join.isNone

/-- The checks of one transaction, from level 2 on. -/
def Node.badTx (mapBlockPos : List (Nat × Nat)) (pindex : CBlockIndex) (tx : CTransaction) : Bool :=
  (match s.txdb.readTxIndex (tx.getHash P) with
    | none => false
    | some txindex => s.mislocated P env nCheckLevel pindex (tx.getHash P) txindex ||
        (decide (3 < nCheckLevel) && s.badSpent env nCheckLevel mapBlockPos (tx.getHash P) txindex.vSpent)) ||
    (decide (4 < nCheckLevel) && s.unmarked tx)

/-- `!block.CheckBlock(true, true, nCheckLevel > 6)`. -/
def Node.failsCheck (block : CBlock) : Bool :=
  !(block.checkBlock P env true true (decide (6 < nCheckLevel))).toBool

/-- A block that the checks of the level find bad. -/
def Node.badBlock (mapBlockPos : List (Nat × Nat)) (pindex : CBlockIndex) (block : CBlock) : Bool :=
  (decide (0 < nCheckLevel) && Node.failsCheck P env nCheckLevel block) ||
    (decide (1 < nCheckLevel) && block.vtx.any (s.badTx P env nCheckLevel mapBlockPos pindex))

/-! ## The walk -/

/-- The loop from the tip down: `pindexFork`, when it ends. -/
def Node.verifyChain (nLowest : Int) : List CBlockIndex → List (Nat × Nat) → Option Uint256 →
    Except Reject (Option Uint256)
  | [], _, pindexFork => pure pindexFork
  | pindex :: rest, mapBlockPos, pindexFork =>
    if pindex.pprev = none ∨ (pindex.nHeight : Int) < nLowest then pure pindexFork
    else do
      let block ← (s.readIndexed env P pindex).mapError fun _ => error "LoadBlockIndex() : block.ReadFromDisk failed"
      let mapBlockPos := if 1 < nCheckLevel then (pindex.nFile, pindex.nBlockPos) :: mapBlockPos else mapBlockPos
      let pindexFork := if s.badBlock P env nCheckLevel mapBlockPos pindex block then pindex.pprev else pindexFork
      Node.verifyChain nLowest rest mapBlockPos pindexFork

end

/-! ## LoadBlockIndex -/

/-- The pointer to the end of the best chain that is stored. -/
def loadBest : NodeM Unit := do
  let s ← get
  match s.txdb.readHashBestChain with
  | none => throw (error "CTxDB::LoadBlockIndex() : hashBestChain not loaded")
  | some hashBestChain =>
    match s.mapBlockIndex.find hashBestChain with
    | none => throw (error "CTxDB::LoadBlockIndex() : hashBestChain not found in the block index")
    | some pindexBest =>
      match s.txdb.readSyncCheckpoint with
      | none => throw (error "CTxDB::LoadBlockIndex() : hashSyncCheckpoint not loaded")
      | some hashSyncCheckpoint =>
        set { s with
          hashBestChain := hashBestChain
          pindexBest := some hashBestChain
          nBestHeight := pindexBest.nHeight
          nBestChainTrust := pindexBest.nChainTrust
          hashSyncCheckpoint := hashSyncCheckpoint }

/-- How many blocks below the tip are checked. -/
def checkDepth (nBestHeight nCheckDepth : Int) : Int :=
  let nCheckDepth := if nCheckDepth = 0 then 1000000000 else nCheckDepth
  if nBestHeight < nCheckDepth then nBestHeight else nCheckDepth

/-- The roll-back. What `SetBestChain` returns is not looked at. -/
def rollBack (P : Params) (env : Env) (pindexFork : Uint256) : NodeM Unit := do
  let pindex ← deref pindexFork
  let s ← get
  let block ← withError (error "LoadBlockIndex() : block.ReadFromDisk failed") (lift (s.readIndexed env P pindex))
  let _ ← attempt (setBestChain P env block pindexFork)
  pure ()

/-- `CTxDB::LoadBlockIndex`, from where the records of the blocks are read and
their trusts are known; without `-startfrom`, and with no shutdown. -/
def CTxDB.loadBlockIndex (P : Params) (env : Env) (nCheckLevel nCheckDepth : Int) : NodeM Unit := do
  let s ← get
  if s.txdb.readHashBestChain = none ∧ s.pindexGenesisBlock = none then pure ()
  else
    loadBest
    let s ← get
    let nLowest := s.nBestHeight - checkDepth s.nBestHeight nCheckDepth
    let pindexFork ← lift (s.verifyChain P env nCheckLevel nLowest (s.mapBlockIndex.branch s.hashBestChain) [] none)
    match pindexFork with
    | none => pure ()
    | some pindexFork => rollBack P env pindexFork

/-! ## The range that is checked -/

namespace Node

section

variable (P : Params) (env : Env) (s : Node) (nCheckLevel nCheckDepth : Int)

/-- The chain of a block down to a height, without the first block of all. -/
def chainDownTo (nLowest : Int) (h : Uint256) : List Uint256 :=
  (s.mapBlockIndex.chain h).takeWhile fun k =>
    decide (s.mapBlockIndex.forest.parent k ≠ none ∧ nLowest ≤ s.mapBlockIndex.forest.rank k)

/-- The blocks that are checked where the tip is `h`, the tip first. -/
def checkedRange (h : Uint256) : List Uint256 :=
  let nBestHeight := s.mapBlockIndex.forest.rank h
  s.chainDownTo (nBestHeight - checkDepth nBestHeight nCheckDepth) h

/-- What `mapBlockPos` holds after the blocks of `visited`. -/
def positions (visited : List Uint256) : List (Nat × Nat) :=
  if 1 < nCheckLevel then
    visited.filterMap fun h => (s.mapBlockIndex.find h).map fun pindex => (pindex.nFile, pindex.nBlockPos)
  else []

/-- The block, visited after `visited`, is read and found bad. -/
def foundBad (visited : List Uint256) (h : Uint256) : Bool :=
  match s.mapBlockIndex.find h with
  | none => false
  | some pindex =>
    match s.readIndexed env P pindex with
    | .error _ => false
    | .ok block => s.badBlock P env nCheckLevel (s.positions nCheckLevel (h :: visited)) pindex block

/-- The last of the blocks, visited in turn after `visited`, that is found bad. -/
def lowestBad : List Uint256 → List Uint256 → Option Uint256
  | _, [] => none
  | visited, h :: rest =>
    (lowestBad (h :: visited) rest).or (if s.foundBad P env nCheckLevel visited h then some h else none)

/-- Where the chain to `t` is to end: at the parent of the lowest bad block, or
at `t` where none is bad. -/
def repairedTip (t : Uint256) : Uint256 :=
  ((s.lowestBad P env nCheckLevel [] (s.checkedRange nCheckDepth t)).bind s.mapBlockIndex.forest.parent).getD t

/-- The block is read and passes `CheckBlock`. -/
def Passes (h : Uint256) : Prop := ∃ pindex block, s.mapBlockIndex.find h = some pindex ∧
  s.readIndexed env P pindex = .ok block ∧ Node.failsCheck P env nCheckLevel block = false

end

variable {P : Params} {env : Env} {s s' : Node} {nCheckLevel nCheckDepth nLowest : Int} {t f : Uint256}

theorem mem_chainDownTo {h : Uint256} : h ∈ s.chainDownTo nLowest t ↔
    h ∈ s.mapBlockIndex.chain t ∧ s.mapBlockIndex.forest.parent h ≠ none ∧ nLowest ≤ s.mapBlockIndex.forest.rank h := by
  rw [chainDownTo, BlockTree.chain]
  induction t using Forest.chain_induction (F := s.mapBlockIndex.forest) with
  | root x hp =>
    rw [Forest.chain_of_root hp, List.takeWhile_cons_of_neg (by simp [hp]), List.mem_singleton]
    constructor
    · simp
    · rintro ⟨rfl, hne, -⟩
      exact absurd hp hne
  | step x p hp ih =>
    rw [Forest.chain_of_parent hp]
    by_cases hlow : nLowest ≤ s.mapBlockIndex.forest.rank x
    · rw [List.takeWhile_cons_of_pos (by simp [hp, hlow]), List.mem_cons, List.mem_cons, ih]
      constructor
      · rintro (rfl | ⟨hmem, hrest⟩)
        · exact ⟨.inl rfl, by simp [hp], hlow⟩
        · exact ⟨.inr hmem, hrest⟩
      · rintro ⟨rfl | hmem, hrest⟩
        · exact .inl rfl
        · exact .inr ⟨hmem, hrest⟩
    · rw [List.takeWhile_cons_of_neg (by simp [hlow])]
      simp only [List.not_mem_nil, false_iff, not_and]
      intro hmem _ hle
      have hrank : s.mapBlockIndex.forest.rank h ≤ s.mapBlockIndex.forest.rank x :=
        Forest.rank_le (by rw [Forest.chain_of_parent hp]; exact hmem)
      omega

/-- Below the lowest bad block no block of the list is bad. -/
theorem lowestBad_eq_some {visited range : List Uint256} {h : Uint256}
    (hl : s.lowestBad P env nCheckLevel visited range = some h) :
    ∃ above rest, range = above ++ h :: rest ∧
      s.lowestBad P env nCheckLevel (h :: (above.reverse ++ visited)) rest = none := by
  induction range generalizing visited with
  | nil => cases hl
  | cons k range ih =>
    rw [lowestBad] at hl
    cases hrest : s.lowestBad P env nCheckLevel (k :: visited) range with
    | none =>
      rw [hrest, Option.none_or] at hl
      split at hl
      · obtain rfl := Option.some.inj hl
        exact ⟨[], range, rfl, hrest⟩
      · cases hl
    | some h' =>
      rw [hrest, Option.some_or, Option.some.injEq] at hl
      obtain ⟨above, rest, rfl, hnone⟩ := ih (hl ▸ hrest)
      exact ⟨k :: above, rest, rfl, by simpa using hnone⟩

/-- A block that is read and is not bad passes `CheckBlock`. -/
theorem passes_of_none (hlevel : 1 ≤ nCheckLevel) {visited range : List Uint256}
    (hl : s.lowestBad P env nCheckLevel visited range = none) {h : Uint256} (hh : h ∈ range) {pindex : CBlockIndex}
    {block : CBlock} (hf : s.mapBlockIndex.find h = some pindex) (hr : s.readIndexed env P pindex = .ok block) :
    s.Passes P env nCheckLevel h := by
  induction range generalizing visited with
  | nil => cases hh
  | cons k range ih =>
    rw [lowestBad, Option.or_eq_none_iff] at hl
    rcases List.mem_cons.mp hh with rfl | hh
    · have hbad := hl.2
      simp only [foundBad, hf, hr, ite_eq_right_iff, reduceCtorEq, imp_false, Bool.not_eq_true] at hbad
      rw [badBlock, Bool.or_eq_false_iff, Bool.and_eq_false_iff] at hbad
      refine ⟨pindex, block, hf, hr, hbad.1.resolve_left ?_⟩
      rw [decide_eq_false_iff_not, not_not]
      omega
    · exact ih hl.1 hh

/-! ## What the walk finds -/

/-- The walk over the chain of a block, when it has visited `visited`: it has
read every block of its range, and its fork is the parent of the last bad one. -/
theorem verifyChain_ok (ht : s.mapBlockIndex.Has t) {visited : List Uint256} {pindexFork r : Option Uint256}
    (hrun : s.verifyChain P env nCheckLevel nLowest (s.mapBlockIndex.branch t) (s.positions nCheckLevel visited)
      pindexFork = .ok r) :
    (∀ k ∈ s.chainDownTo nLowest t, ∃ pindex block, s.mapBlockIndex.find k = some pindex ∧
      s.readIndexed env P pindex = .ok block) ∧
    r = (s.lowestBad P env nCheckLevel visited (s.chainDownTo nLowest t)).elim pindexFork
      s.mapBlockIndex.forest.parent := by
  induction t using Forest.chain_induction (F := s.mapBlockIndex.forest) generalizing visited pindexFork with
  | root x hp =>
    obtain ⟨b, hb⟩ := Option.ne_none_iff_exists'.mp ht
    have hpprev : b.pprev = none := by rw [← BlockTree.parent_eq hb, hp]
    rw [BlockTree.branch_of_no_pprev hb hpprev, verifyChain, if_pos (.inl hpprev), except_pure_ok] at hrun
    have hrange : s.chainDownTo nLowest x = [] := by
      rw [chainDownTo, BlockTree.chain_of_no_pprev hb hpprev, List.takeWhile_cons_of_neg (by simp [hp])]
    rw [hrange]
    exact ⟨by simp, hrun.symm⟩
  | step x p hp ih =>
    obtain ⟨b, hb, hpprev⟩ := BlockTree.parent_some.mp hp
    have hrank := BlockTree.rank_eq hb
    rw [BlockTree.branch_of_pprev hb hpprev, verifyChain] at hrun
    by_cases hlow : (b.nHeight : Int) < nLowest
    · rw [if_pos (.inr hlow), except_pure_ok] at hrun
      have hrange : s.chainDownTo nLowest x = [] := by
        rw [chainDownTo, BlockTree.chain_of_pprev hb hpprev, List.takeWhile_cons_of_neg (by simp [hrank, hlow])]
      rw [hrange]
      exact ⟨by simp, hrun.symm⟩
    · rw [if_neg (by simp [hpprev, hlow])] at hrun
      simp only [except_bind_ok, except_mapError_ok] at hrun
      obtain ⟨block, hread, hrun⟩ := hrun
      have hpos : (if 1 < nCheckLevel then (b.nFile, b.nBlockPos) :: s.positions nCheckLevel visited
          else s.positions nCheckLevel visited) = s.positions nCheckLevel (x :: visited) := by
        by_cases hlevel : 1 < nCheckLevel <;> simp [positions, hlevel, hb]
      have hbad : s.badBlock P env nCheckLevel (s.positions nCheckLevel (x :: visited)) b block =
          s.foundBad P env nCheckLevel visited x := by
        simp [foundBad, hb, hread]
      have hrange : s.chainDownTo nLowest x = x :: s.chainDownTo nLowest p := by
        rw [chainDownTo, BlockTree.chain_of_pprev hb hpprev,
          List.takeWhile_cons_of_pos (by simp [hp, hrank, not_lt.mp hlow]), chainDownTo]
      rw [hpos, hbad] at hrun
      obtain ⟨hall, hfork⟩ := ih (BlockTree.has_of_parent hp).2 hrun
      rw [hrange]
      refine ⟨List.forall_mem_cons.mpr ⟨⟨b, block, hb, hread⟩, hall⟩, ?_⟩
      rw [hfork, lowestBad]
      -- the fork of a lower bad block replaces that of this one
      cases s.lowestBad P env nCheckLevel (x :: visited) (s.chainDownTo nLowest p) with
      | some k => rfl
      | none =>
        by_cases hx : s.foundBad P env nCheckLevel visited x
        · simp [hx, hpprev, hp]
        · simp [hx]

end Node

/-! ## Taking blocks back -/

namespace CBlock

variable {P : Params} {env : Env}

/-- The database after the block's transactions are disconnected. -/
def takenBack (P : Params) (t : BlockTree) (pindex : CBlockIndex) (block : CBlock) (txdb : CTxDB) : CTxDB :=
  withHashNext P t pindex 0 (block.vtx.foldr (fun tx db => CTransaction.disconnected P db tx) txdb)

theorem book_foldr_disconnected (nFile nBlockPos : Nat) (vtx : List CTransaction) (nTxPos : Nat) (txdb : CTxDB) :
    (vtx.foldr (fun tx db => CTransaction.disconnected P db tx) txdb).book =
      Ledger.disconnectAll txdb.book (Pinkcoin.ledgerTxs P nFile nBlockPos vtx nTxPos) := by
  induction vtx generalizing nTxPos with
  | nil => rfl
  | cons tx vtx ih =>
    rw [List.foldr_cons, CTransaction.book_disconnected P _ tx ⟨nFile, nBlockPos, nTxPos⟩,
      ih (nTxPos + tx.getSerializeSize)]
    rfl

theorem book_takenBack (t : BlockTree) (pindex : CBlockIndex) (block : CBlock) (txdb : CTxDB) (nFile nBlockPos : Nat) :
    (block.takenBack P t pindex txdb).book = Ledger.disconnectAll txdb.book (block.ledgerTxs P nFile nBlockPos) := by
  rw [takenBack, book_withHashNext]
  exact book_foldr_disconnected nFile nBlockPos block.vtx _ txdb

/-- Transactions can be disconnected where the ledger gives back what they
spend. -/
theorem disconnectTxs_iff (nFile nBlockPos nTxPos : Nat) {vtx : List CTransaction} {s s' : Node} {u : Unit} :
    forM vtx.reverse (CTransaction.disconnectInputs P) s = .ok u s' ↔
      Ledger.GivesBack s.txdb.book (Pinkcoin.ledgerTxs P nFile nBlockPos vtx nTxPos) ∧
        s' = s.withTxdb (vtx.foldr (fun tx db => CTransaction.disconnected P db tx) s.txdb) := by
  induction vtx generalizing nTxPos s' with
  | nil =>
    rw [List.reverse_nil, forM_nil_ok]
    simp [Pinkcoin.ledgerTxs, Ledger.GivesBack]
  | cons tx vtx ih =>
    rw [List.reverse_cons, List.forM_append, bind_ok, Pinkcoin.ledgerTxs, Ledger.GivesBack]
    simp only [forM_cons_ok, forM_nil_ok, CTransaction.disconnectInputs_ok, ih (nTxPos + tx.getSerializeSize)]
    constructor
    · rintro ⟨_, t, ⟨hgives, rfl⟩, _, ⟨hslots, rfl⟩, rfl⟩
      rw [Node.withTxdb_txdb, book_foldr_disconnected nFile nBlockPos] at hslots
      exact ⟨⟨hgives, hslots⟩, rfl⟩
    · rintro ⟨⟨hgives, hslots⟩, rfl⟩
      refine ⟨(), _, ⟨hgives, rfl⟩, _, ⟨?_, rfl⟩, rfl⟩
      rw [Node.withTxdb_txdb, book_foldr_disconnected nFile nBlockPos]
      exact hslots

theorem disconnectBlock_iff (nFile nBlockPos : Nat) {block : CBlock} {pindex : CBlockIndex} {s s' : Node} {u : Unit} :
    block.disconnectBlock P env pindex s = .ok u s' ↔
      Ledger.GivesBack s.txdb.book (block.ledgerTxs P nFile nBlockPos) ∧ s' = { s with
        txdb := block.takenBack P s.mapBlockIndex pindex s.txdb
        wallets := syncAll P env (some block) false false block.vtx s.wallets } := by
  simp only [disconnectBlock, bind_ok, disconnectTxs_iff nFile nBlockPos (nBlockPos + block.firstTxOffset),
    writeHashNext, modify_ok, forM_syncWithWallets]
  constructor
  · rintro ⟨_, t, ⟨hgives, rfl⟩, _, t', rfl, hrun⟩
    obtain ⟨-, rfl⟩ := EStateM.Result.ok.inj hrun
    exact ⟨hgives, rfl⟩
  · rintro ⟨hgives, rfl⟩
    exact ⟨(), _, ⟨hgives, rfl⟩, (), _, rfl, rfl⟩

end CBlock

namespace Node

variable {P : Params} {env : Env} {s s' : Node} {t f : Uint256}

/-- The database after the block at `h` is disconnected. -/
def takeBack (P : Params) (s : Node) (txdb : CTxDB) (h : Uint256) : CTxDB :=
  match s.mapBlockIndex.find h with
  | none => txdb
  | some pindex => (s.disk.block pindex.nFile pindex.nBlockPos).elim txdb fun block =>
      block.takenBack P s.mapBlockIndex pindex txdb

/-- What the database is to be committed with when the chain to `t` moves back
to `f`. -/
def rolledBack (P : Params) (s : Node) (t f : Uint256) : CTxDB :=
  ((s.mapBlockIndex.forest.below t f).foldl (s.takeBack P) s.txdb.txnBegin).writeHashBestChain f

/-- The transactions of the blocks above `f`, as the files have them now, the
oldest first. -/
def txsAbove (P : Params) (s : Node) (t f : Uint256) : List LedgerTx :=
  (s.mapBlockIndex.forest.below t f).reverse.flatMap (s.txsOf P)

/-- Each block is in the index, on top of another, and is read. -/
def Reads (P : Params) (env : Env) (s : Node) (l : List Uint256) : Prop := ∀ h ∈ l, ∃ pindex p block,
  s.mapBlockIndex.find h = some pindex ∧ pindex.pprev = some p ∧ s.readIndexed env P pindex = .ok block

theorem disconnectOne_iff {h p : Uint256} {pindex : CBlockIndex} {block : CBlock} {vtx : List CTransaction}
    (hf : s.mapBlockIndex.find h = some pindex) (hp : pindex.pprev = some p)
    (hr : s.readIndexed env P pindex = .ok block) :
    disconnectOne P env h s = .ok vtx s' ↔ Ledger.GivesBack s.txdb.book (s.txsOf P h) ∧
      (s' = { s with
        txdb := s.takeBack P s.txdb h
        wallets := syncAll P env (some block) false false block.vtx s.wallets } ∧
      vtx = block.vtx.filter fun tx =>
        decide (¬ (tx.isCoinBase ∨ tx.isCoinStake) ∧ P.getTotalBlocksEstimate < pindex.nHeight)) := by
  have hdisk := (readIndexed_ok hr).1
  have htake : s.takeBack P s.txdb h = block.takenBack P s.mapBlockIndex pindex s.txdb := by
    simp [takeBack, hf, hdisk]
  rw [htake, txsOf_of_pprev hf hp hdisk]
  simp only [disconnectOne, bind_ok, deref_ok, get_ok, withError_ok, lift_ok, pure_ok,
    CBlock.disconnectBlock_iff pindex.nFile pindex.nBlockPos]
  constructor
  · rintro ⟨pindex', _, ⟨hf', rfl⟩, _, _, ⟨rfl, rfl⟩, block', _, ⟨hr', rfl⟩, _, _, ⟨hgives, rfl⟩, rfl, rfl⟩
    obtain rfl := Option.some.inj (hf.symm.trans hf')
    obtain rfl := Except.ok.inj (hr.symm.trans hr')
    exact ⟨hgives, rfl, rfl⟩
  · rintro ⟨hgives, rfl, rfl⟩
    exact ⟨pindex, s, ⟨hf, rfl⟩, s, s, ⟨rfl, rfl⟩, block, s, ⟨hr, rfl⟩, (), _, ⟨hgives, rfl⟩, rfl, rfl⟩

theorem book_takeBack {h p : Uint256} {pindex : CBlockIndex} {block : CBlock}
    (hf : s.mapBlockIndex.find h = some pindex) (hp : pindex.pprev = some p) (hr : s.readIndexed env P pindex = .ok block) (txdb : CTxDB) :
    (s.takeBack P txdb h).book = Ledger.disconnectAll txdb.book (s.txsOf P h) := by
  have hdisk := (readIndexed_ok hr).1
  rw [txsOf_of_pprev hf hp hdisk, ← CBlock.book_takenBack s.mapBlockIndex pindex block txdb]
  simp [takeBack, hf, hdisk]

theorem book_foldl_takeBack {l : List Uint256} (hl : Reads P env s l) (txdb : CTxDB) :
    (l.foldl (s.takeBack P) txdb).book = Ledger.disconnectAll txdb.book (l.reverse.flatMap (s.txsOf P)) := by
  induction l generalizing txdb with
  | nil => rfl
  | cons h l ih =>
    obtain ⟨pindex, p, block, hf, hp, hr⟩ := hl h List.mem_cons_self
    rw [List.foldl_cons, ih (fun k hk => hl k (List.mem_cons_of_mem _ hk)), book_takeBack hf hp hr,
      List.reverse_cons, List.flatMap_append, Ledger.disconnectAll_append]
    simp

/-- The blocks from the tip down can be disconnected where the ledger gives
back what their transactions spend, and the database is then as computed. -/
theorem disconnectLoop_iff {l : List Uint256} (hl : Reads P env s l) (acc : List CTransaction) :
    (Ledger.GivesBack s.txdb.book (l.reverse.flatMap (s.txsOf P)) →
      ∃ v s', disconnectLoop P env l acc s = .ok v s') ∧
    ∀ v s', disconnectLoop P env l acc s = .ok v s' →
      Ledger.GivesBack s.txdb.book (l.reverse.flatMap (s.txsOf P)) ∧
        s' = { s with txdb := l.foldl (s.takeBack P) s.txdb, wallets := s'.wallets } := by
  induction l generalizing s acc with
  | nil =>
    refine ⟨fun _ => ⟨acc, s, rfl⟩, fun v s' hrun => ?_⟩
    obtain ⟨-, rfl⟩ := pure_ok.mp hrun
    exact ⟨trivial, rfl⟩
  | cons h l ih =>
    obtain ⟨pindex, p, block, hf, hp, hr⟩ := hl h List.mem_cons_self
    have hrest : Reads P env s l := fun k hk => hl k (List.mem_cons_of_mem _ hk)
    have hbook : (s.takeBack P s.txdb h).book = Ledger.disconnectAll s.txdb.book (s.txsOf P h) :=
      book_takeBack hf hp hr s.txdb
    have hsplit : Ledger.GivesBack s.txdb.book ((h :: l).reverse.flatMap (s.txsOf P)) ↔
        Ledger.GivesBack s.txdb.book (s.txsOf P h) ∧
          Ledger.GivesBack (s.takeBack P s.txdb h).book (l.reverse.flatMap (s.txsOf P)) := by
      rw [hbook, List.reverse_cons, List.flatMap_append, List.flatMap_singleton, Ledger.givesBack_append]
    rw [hsplit]
    -- the rest runs in the state that the first block leaves
    have hnext := ih (s := { s with
      txdb := s.takeBack P s.txdb h
      wallets := syncAll P env (some block) false false block.vtx s.wallets }) hrest ((block.vtx.filter fun tx =>
        decide (¬ (tx.isCoinBase ∨ tx.isCoinStake) ∧ P.getTotalBlocksEstimate < pindex.nHeight)) ++ acc)
    constructor
    · rintro ⟨hfirst, hlater⟩
      obtain ⟨v, s', hrun⟩ := hnext.1 hlater
      refine ⟨v, s', ?_⟩
      rw [disconnectLoop, bind_ok]
      exact ⟨_, _, (disconnectOne_iff hf hp hr).mpr ⟨hfirst, rfl, rfl⟩, hrun⟩
    · intro v s' hrun
      rw [disconnectLoop, bind_ok] at hrun
      obtain ⟨vtx, s₁, hone, hrun⟩ := hrun
      obtain ⟨hfirst, rfl, rfl⟩ := (disconnectOne_iff hf hp hr).mp hone
      obtain ⟨hlater, hs'⟩ := hnext.2 v s' hrun
      exact ⟨⟨hfirst, hlater⟩, by rw [hs']; rfl⟩

end Node

/-! ## The chain that moves back -/

/-- The fork of a chain and one of its own blocks is that block. -/
theorem findFork_of_mem {s : Node} {t f : Uint256} (hf : f ∈ s.mapBlockIndex.chain t) : findFork s t f = some f := by
  have hmeet : ∃ m, findFork s t f = some m := Forest.meet_isSome hf (Forest.self_mem_chain f) (Nat.lt_succ_self _)
  obtain ⟨m, hm⟩ := hmeet
  obtain ⟨-, hmf, hall⟩ := Forest.meet_spec hm
  have hfm := hall f hf (Forest.self_mem_chain f)
  have hrank : s.mapBlockIndex.forest.rank m = s.mapBlockIndex.forest.rank f :=
    Nat.le_antisymm (Forest.rank_le hmf) (Forest.rank_le hfm)
  rw [hm, Forest.eq_of_rank_eq (Forest.self_mem_chain f) hmf hrank]

theorem postpone_of_le {nBestTrust : Uint256} {pindex : CBlockIndex} {rest : List CBlockIndex}
    (h : ∀ prev ∈ rest.head?, prev.nChainTrust ≤ nBestTrust) :
    postpone nBestTrust (pindex :: rest) [] = some (pindex.phashBlock, []) := by
  cases rest with
  | nil => rfl
  | cons prev rest =>
    rw [postpone, if_neg]
    exact not_lt.mpr (h prev rfl)

namespace Node

variable {P : Params} {env : Env} {s s' : Node} {t f : Uint256}

/-- What the roll-back from `t` to `f` needs to go through: the index gives back
what the transactions above `f` spend, the last first, and leveldb commits the
batch. -/
structure GoesBack (P : Params) (env : Env) (s : Node) (t f : Uint256) : Prop where
  given : Ledger.GivesBack s.txdb.book (s.txsAbove P t f)
  commits : env.commitOk (s.rolledBack P t f).ops

theorem book_txnBegin (hb : s.txdb.batch = none) : s.txdb.txnBegin.book = s.txdb.book := by
  funext k
  rw [CTxDB.book, CTxDB.book, CTxDB.readTxIndex, CTxDB.readTxIndex, CTxDB.txnBegin, BatchStore.read_begin,
    BatchStore.read_of_no_batch hb]

/-- `Reorganize` to a block of the chain itself. `s` has no batch open. -/
theorem reorganize_back (hbest : s.pindexBest = some t) (hb : s.txdb.batch = none) (hf : f ∈ s.mapBlockIndex.chain t)
    (hl : Reads P env s (s.mapBlockIndex.forest.below t f)) :
    (GoesBack P env s t f → ∃ s', reorganize P env f (s.withTxdb s.txdb.txnBegin) = .ok () s') ∧
    ∀ s', reorganize P env f (s.withTxdb s.txdb.txnBegin) = .ok () s' →
      GoesBack P env s t f ∧ s'.txdb = (s.rolledBack P t f).commit := by
  have hlater : Reads P env (s.withTxdb s.txdb.txnBegin) (s.mapBlockIndex.forest.below t f) := hl
  have hloop := disconnectLoop_iff hlater []
  have hfork : findFork (s.withTxdb s.txdb.txnBegin) t f = some f := findFork_of_mem hf
  rw [withTxdb_txdb, book_txnBegin hb] at hloop
  have hself : (s.mapBlockIndex.forest.below f f).reverse = [] := by rw [Forest.below_self, List.reverse_nil]
  constructor
  · rintro ⟨hgiven, hcommits⟩
    obtain ⟨v, s₁, hrun⟩ := hloop.1 hgiven
    obtain ⟨-, hs₁⟩ := hloop.2 v s₁ hrun
    have htxdb : s₁.txdb.writeHashBestChain f = s.rolledBack P t f := by rw [hs₁]; rfl
    obtain ⟨_, -, -, hsettle⟩ := settleBranch_run P env (s.mapBlockIndex.forest.below t f)
      (s.mapBlockIndex.forest.below f f).reverse v [] (s₁.withTxdb (s₁.txdb.writeHashBestChain f).commit)
    refine ⟨_, reorganize_ok.mpr ⟨t, f, v, [], _, _, hbest, hfork, switchBranch_ok.mpr ⟨s₁, s₁, hrun, ?_, ?_, rfl⟩,
      hsettle, rfl⟩⟩
    · rw [withTxdb_mapBlockIndex, hself]
      rfl
    · rw [htxdb]
      exact hcommits
  · intro s' hrun
    obtain ⟨pb, f', v, w, s₂, _, hpb, hfork', hswitch, hsettle, rfl⟩ := reorganize_ok.mp hrun
    obtain rfl := Option.some.inj (hbest.symm.trans hpb)
    obtain rfl := Option.some.inj (hfork.symm.trans hfork')
    obtain ⟨s₁, s₁', hdis, hconn, hcommits, rfl⟩ := switchBranch_ok.mp hswitch
    rw [withTxdb_mapBlockIndex, hself] at hconn
    obtain ⟨-, rfl⟩ := pure_ok.mp hconn
    obtain ⟨hgiven, hs₁⟩ := hloop.2 v s₁ hdis
    have htxdb : s₁.txdb.writeHashBestChain f = s.rolledBack P t f := by rw [hs₁]; rfl
    rw [htxdb] at hcommits hsettle
    obtain ⟨s₄, -, hloose, hsettle'⟩ := settleBranch_run P env (s.mapBlockIndex.forest.below t f)
      (s.mapBlockIndex.forest.below f f).reverse v w (s₁.withTxdb (s.rolledBack P t f).commit)
    obtain ⟨-, rfl⟩ := EStateM.Result.ok.inj (hsettle.symm.trans hsettle')
    refine ⟨⟨hgiven, hcommits⟩, ?_⟩
    rw [hloose]
    rfl

/-- The trust of a record is at least that of the one before it. -/
def TrustsRise (s : Node) : Prop := ∀ h p b bp, s.mapBlockIndex.find h = some b → b.pprev = some p →
  s.mapBlockIndex.find p = some bp → bp.nChainTrust ≤ b.nChainTrust

theorem TrustsRise.le (htrust : TrustsRise s) (hf : f ∈ s.mapBlockIndex.chain t) {b bf : CBlockIndex}
    (hb : s.mapBlockIndex.find t = some b) (hbf : s.mapBlockIndex.find f = some bf) :
    bf.nChainTrust ≤ b.nChainTrust := by
  induction t using Forest.chain_induction (F := s.mapBlockIndex.forest) generalizing b with
  | root x hp =>
    rw [BlockTree.chain, Forest.chain_of_root hp, List.mem_singleton] at hf
    rw [hf, hb, Option.some.injEq] at hbf
    rw [hbf]
  | step x p hp ih =>
    rw [BlockTree.chain, Forest.chain_of_parent hp, List.mem_cons] at hf
    rcases hf with rfl | hf
    · rw [hb, Option.some.injEq] at hbf
      rw [hbf]
    · rw [BlockTree.parent_eq hb] at hp
      obtain ⟨bp, hbp, -⟩ := s.mapBlockIndex.pprev_ok hb hp
      exact (ih hf hbp).trans (htrust x p b bp hb hp hbp)

/-- `SetBestChain` to a lower block of the chain comes to `Reorganize`. -/
theorem setBestChain_back (ht : AtTip s t) (htrust : TrustsRise s) (hf : f ∈ s.mapBlockIndex.chain t)
    (hl : Reads P env s (s.mapBlockIndex.forest.below t f)) {block : CBlock} (hprev : block.hashPrevBlock ≠ t) :
    (GoesBack P env s t f → ∃ s', setBestChain P env block f s = .ok () s') ∧
    ∀ s', setBestChain P env block f s = .ok () s' →
      GoesBack P env s t f ∧ s'.txdb = (s.rolledBack P t f).commit ∧ s'.pindexBest = some f := by
  obtain ⟨best, hbest, hfind⟩ := ht.best
  obtain ⟨b, hb⟩ := Option.ne_none_iff_exists'.mp (BlockTree.has_of_mem_chain (BlockTree.has_of_find hfind) hf)
  have hback := reorganize_back ht.pindexBest ht.batch hf hl
  have hpost : postpone best.nChainTrust (s.mapBlockIndex.branch f) [] = some (f, []) := by
    cases hp : b.pprev with
    | none =>
      rw [BlockTree.branch_of_no_pprev hb hp, postpone_of_le (by simp), BlockTree.find_hash hb]
    | some p =>
      obtain ⟨bp, hbp, -⟩ := s.mapBlockIndex.pprev_ok hb hp
      obtain ⟨rest, hrest⟩ := BlockTree.branch_eq_cons (t := s.mapBlockIndex) hbp
      have hparent : s.mapBlockIndex.forest.parent f = some p := by rw [BlockTree.parent_eq hb, hp]
      rw [BlockTree.branch_of_pprev hb hp, hrest, postpone_of_le, BlockTree.find_hash hb]
      intro prev hprev
      rw [List.head?_cons, Option.mem_some_iff] at hprev
      rw [← hprev]
      exact htrust.le (Forest.parent_mem_chain hf hparent) hfind hbp
  constructor
  · intro hgoes
    obtain ⟨s₁, hre⟩ := hback.1 hgoes
    have hg : Steady (s.withTxdb s.txdb.txnBegin) s₁ := (keeps_reorganize f).ok hre
    obtain ⟨b', hb', -⟩ := hg.tree f b hb
    have hswitch : switchChain P env f (s.withTxdb s.txdb.txnBegin) = .ok () s₁ := by
      simp only [switchChain, bind_ok, get_ok]
      refine ⟨_, _, ⟨rfl, rfl⟩, ?_⟩
      rw [show (s.withTxdb s.txdb.txnBegin).best = some best from hbest, Option.bind_some, withTxdb_mapBlockIndex,
        hpost]
      simp only [bind_ok, attempt_ok]
      exact ⟨true, s₁, .inl ⟨rfl, (), hre⟩, rfl⟩
    have hmove : moveChain P env block f (s.withTxdb s.txdb.txnBegin) = .ok () s₁ := by
      simp only [moveChain, bind_ok, get_ok]
      refine ⟨_, _, ⟨rfl, rfl⟩, ?_⟩
      have hnext : block.hashPrevBlock ≠ (s.withTxdb s.txdb.txnBegin).hashBestChain := fun he =>
        hprev (he.trans ht.hashBestChain)
      rw [if_neg fun hgen => ht.genesis hgen.1, if_neg hnext]
      exact hswitch
    refine ⟨{ s₁ with
      hashBestChain := block.getHash P
      pindexBest := some f
      nBestHeight := b'.nHeight
      nBestChainTrust := b'.nChainTrust }, ?_⟩
    simp only [setBestChain, installBest, modifyTxdb, bind_ok, modify_ok, deref_ok]
    exact ⟨(), _, rfl, (), s₁, hmove, b', s₁, ⟨hb', rfl⟩, rfl⟩
  · intro s' hrun
    obtain ⟨s₁, b', hmoved, -, rfl⟩ := Pinkcoin.setBestChain_ok ht hrun
    cases hmoved with
    | extend he _ => exact absurd he hprev
    | switch _ best' i secondary s₂ hbest' hpost' hre hrest =>
      obtain rfl := Option.some.inj (hbest.symm.trans hbest')
      rw [hpost, Option.some.injEq, Prod.mk.injEq] at hpost'
      obtain ⟨rfl, rfl⟩ := hpost'
      obtain ⟨hgoes, htxdb⟩ := hback.2 s₂ hre
      obtain ⟨-, rfl⟩ := pure_ok.mp hrest
      exact ⟨hgoes, htxdb, rfl⟩

/-! ## A node that grew -/

section

variable (hg : s.mapBlockIndex.Grows s'.mapBlockIndex)

include hg

theorem checkedRange_of_grows (hh : s.mapBlockIndex.Has f) {h : Uint256} :
    h ∈ s'.checkedRange nCheckDepth f ↔ h ∈ s.checkedRange nCheckDepth f := by
  have hrank : ∀ {k}, s.mapBlockIndex.Has k → s'.mapBlockIndex.forest.rank k = s.mapBlockIndex.forest.rank k := by
    intro k hk
    obtain ⟨b, hb⟩ := Option.ne_none_iff_exists'.mp hk
    obtain ⟨b', hb', hc⟩ := hg k b hb
    rw [BlockTree.rank_eq hb', BlockTree.rank_eq hb, BlockTree.core_nHeight hc]
  rw [checkedRange, checkedRange, mem_chainDownTo, mem_chainDownTo, hg.chain_eq hh, hrank hh]
  refine and_congr_right fun hmem => ?_
  have hk := BlockTree.has_of_mem_chain hh hmem
  rw [hg.parent_eq hk, hrank hk]

variable (hd : s'.disk = s.disk)

include hd

theorem passes_of_grows {h : Uint256} (hh : s.mapBlockIndex.Has h) :
    s'.Passes P env nCheckLevel h ↔ s.Passes P env nCheckLevel h := by
  obtain ⟨b, hb⟩ := Option.ne_none_iff_exists'.mp hh
  obtain ⟨b', hb', hc⟩ := hg h b hb
  have hread : s'.readIndexed env P b' = s.readIndexed env P b := by
    simp only [readIndexed, readBlock, hd, BlockTree.core_nFile hc, BlockTree.core_nBlockPos hc,
      BlockTree.find_hash hb', BlockTree.find_hash hb]
  simp [Passes, hb, hb', hread]

theorem ledger_of_grows (hh : s.mapBlockIndex.Has f) : s'.ledger P f = s.ledger P f := by
  rw [ledger, ledger, chainTxs, chainTxs, hg.chain_eq hh, List.flatMap_def, List.flatMap_def]
  congr 2
  refine List.map_congr_left fun k hk => ?_
  obtain ⟨b, hb⟩ := Option.ne_none_iff_exists'.mp (BlockTree.has_of_mem_chain hh (List.mem_reverse.mp hk))
  obtain ⟨b', hb', hc⟩ := hg k b hb
  simp only [txsOf, hb, hb', BlockTree.core_pprev hc, BlockTree.core_nFile hc, BlockTree.core_nBlockPos hc, hd]

end

/-! ## The repaired chain -/

/-- What reading the records leaves: no batch is open, a stored chain begins
with the genesis block, the trusts rise along it, and a block that is read
under a record stands on the record's predecessor, if on a block of the index. -/
structure Loaded (P : Params) (env : Env) (s : Node) : Prop where
  batch : s.txdb.batch = none
  genesis : s.txdb.readHashBestChain ≠ none → s.pindexGenesisBlock ≠ none
  trusts : TrustsRise s
  links : ∀ h pindex block, s.mapBlockIndex.find h = some pindex → s.readIndexed env P pindex = .ok block →
    s.mapBlockIndex.Has block.hashPrevBlock → pindex.pprev = some block.hashPrevBlock

/-- The node's best chain ends at `f`, with no bad block in the range that is
checked from there, and the database describes it. -/
structure Repaired (P : Params) (env : Env) (nCheckLevel nCheckDepth : Int) (s : Node) (f : Uint256) : Prop where
  passes : ∀ h ∈ s.checkedRange nCheckDepth f, s.Passes P env nCheckLevel h
  pindexBest : s.pindexBest = some f
  stored : s.txdb.readHashBestChain = some f
  index : s.txdb.book = s.ledger P f

/-- What a node needs for its chain to `t` to be cut at `f`: the blocks that
come into the range from below it pass, the roll-back goes through, and nothing
is left in the index of what it takes back. -/
structure Recovers (P : Params) (env : Env) (nCheckLevel nCheckDepth : Int) (s : Node) (t f : Uint256) : Prop where
  below : ∀ h ∈ s.checkedRange nCheckDepth f, h ∉ s.checkedRange nCheckDepth t → s.Passes P env nCheckLevel h
  goesBack : f ≠ t → GoesBack P env s t f
  left : Ledger.disconnectAll s.txdb.book (s.txsAbove P t f) = s.ledger P f

/-- The node with the end of its best chain loaded. -/
def withBest (s : Node) (t : Uint256) (pindexBest : CBlockIndex) (hashSyncCheckpoint : Uint256) : Node :=
  { s with
    hashBestChain := t
    pindexBest := some t
    nBestHeight := pindexBest.nHeight
    nBestChainTrust := pindexBest.nChainTrust
    hashSyncCheckpoint := hashSyncCheckpoint }

theorem loadBest_ok {u : Unit} (h : loadBest s = .ok u s') :
    ∃ t pindexBest sync, s.txdb.readHashBestChain = some t ∧ s.mapBlockIndex.find t = some pindexBest ∧
      s' = s.withBest t pindexBest sync := by
  simp only [loadBest, bind_ok, get_ok] at h
  obtain ⟨_, s, ⟨rfl, rfl⟩, h⟩ := h
  cases ht : s.txdb.readHashBestChain with
  | none => simp [ht] at h
  | some t =>
    cases hf : s.mapBlockIndex.find t with
    | none => simp [ht, hf] at h
    | some pindexBest =>
      cases hsync : s.txdb.readSyncCheckpoint with
      | none => simp [ht, hf, hsync] at h
      | some sync =>
        simp only [ht, hf, hsync, set_ok] at h
        exact ⟨t, pindexBest, sync, rfl, hf, h⟩

theorem lowestBad_withBest {pindexBest : CBlockIndex} {sync : Uint256} (visited range : List Uint256) :
    (s.withBest t pindexBest sync).lowestBad P env nCheckLevel visited range =
      s.lowestBad P env nCheckLevel visited range := by
  induction range generalizing visited with
  | nil => rfl
  | cons h range ih =>
    rw [lowestBad, lowestBad, ih]
    rfl

theorem Loaded.atTip (hs : Loaded P env s) (ht : s.txdb.readHashBestChain = some t) {pindexBest : CBlockIndex}
    (hf : s.mapBlockIndex.find t = some pindexBest) (sync : Uint256) : AtTip (s.withBest t pindexBest sync) t :=
  ⟨hs.batch, hs.genesis (by simp [ht]), rfl, rfl, pindexBest, hf, rfl⟩

/-- The roll-back tries `SetBestChain` with the block at the fork. -/
theorem rollBack_ok {u : Unit} (h : rollBack P env f s = .ok u s') :
    ∃ pindex block, s.mapBlockIndex.find f = some pindex ∧ s.readIndexed env P pindex = .ok block ∧
      ((∃ u, setBestChain P env block f s = .ok u s') ∨ ∃ e, setBestChain P env block f s = .error e s') := by
  simp only [rollBack, bind_ok, deref_ok, get_ok, withError_ok, lift_ok, attempt_ok, pure_ok] at h
  obtain ⟨pindex, _, ⟨hf, rfl⟩, _, _, ⟨rfl, rfl⟩, block, _, ⟨hr, rfl⟩, _, _, hset, -, rfl⟩ := h
  refine ⟨pindex, block, hf, hr, ?_⟩
  rcases hset with ⟨-, u, hset⟩ | ⟨-, e, hset⟩
  · exact .inl ⟨u, hset⟩
  · exact .inr ⟨e, hset⟩

/-- What the walk from `t` has seen, where it returned. -/
structure Walked (P : Params) (env : Env) (nCheckLevel nCheckDepth : Int) (s : Node) (t : Uint256) : Prop where
  has : s.mapBlockIndex.Has t
  read : ∀ k ∈ s.checkedRange nCheckDepth t, ∃ pindex block, s.mapBlockIndex.find k = some pindex ∧
    s.readIndexed env P pindex = .ok block

/-- The blocks of the range that stay on the chain pass `CheckBlock`. -/
theorem Walked.passes (hw : Walked P env nCheckLevel nCheckDepth s t) (hlevel : 1 ≤ nCheckLevel) {h : Uint256}
    (hf : h ∈ s.mapBlockIndex.chain (s.repairedTip P env nCheckLevel nCheckDepth t))
    (hh : h ∈ s.checkedRange nCheckDepth t) : s.Passes P env nCheckLevel h := by
  obtain ⟨pindex, block, hfind, hread⟩ := hw.read h hh
  cases hl : s.lowestBad P env nCheckLevel [] (s.checkedRange nCheckDepth t) with
  | none => exact passes_of_none hlevel hl hh hfind hread
  | some b =>
    obtain ⟨above, rest, hrange, hnone⟩ := lowestBad_eq_some hl
    obtain ⟨post, hpost⟩ : s.checkedRange nCheckDepth t <+: s.mapBlockIndex.chain t := List.takeWhile_prefix _
    rw [hrange, List.append_assoc, List.cons_append] at hpost
    have hchain : s.mapBlockIndex.chain b = b :: (rest ++ post) := Forest.chain_eq_of_split hpost.symm
    have hb := mem_chainDownTo.mp (hrange ▸ List.mem_append_right above List.mem_cons_self :
      b ∈ s.checkedRange nCheckDepth t)
    obtain ⟨f, hparent⟩ := Option.ne_none_iff_exists'.mp hb.2.1
    rw [repairedTip, hl, Option.bind_some, hparent, Option.getD_some] at hf
    rw [BlockTree.chain, Forest.chain_of_parent hparent] at hchain
    rw [show s.mapBlockIndex.chain f = rest ++ post from (List.cons.inj hchain).2] at hf
    -- a block below the lowest bad one is not above it, or that block itself
    have hnodup : (above ++ b :: (rest ++ post)).Nodup := by
      rw [hpost]
      exact Forest.chain_nodup t
    rw [hrange] at hh
    have hrest : h ∈ rest := by
      rcases List.mem_append.mp hh with habove | hmem
      · exact absurd rfl ((List.nodup_append.mp hnodup).2.2 h habove h (List.mem_cons_of_mem _ hf))
      · rcases List.mem_cons.mp hmem with rfl | hrest
        · exact absurd hf (List.nodup_cons.mp (List.nodup_append.mp hnodup).2.1).1
        · exact hrest
    exact passes_of_none hlevel hnone hrest hfind hread

/-- All blocks above the parent of a block of the range are read. -/
theorem Walked.reads (hw : Walked P env nCheckLevel nCheckDepth s t) {b : Uint256}
    (hb : b ∈ s.checkedRange nCheckDepth t) (hparent : s.mapBlockIndex.forest.parent b = some f) :
    Reads P env s (s.mapBlockIndex.forest.below t f) := by
  obtain ⟨hbt, -, hlow⟩ := mem_chainDownTo.mp hb
  have hft : f ∈ s.mapBlockIndex.chain t := Forest.parent_mem_chain hbt hparent
  intro h hh
  obtain ⟨hht, hhf⟩ := (Forest.mem_below hft).mp hh
  have hrank : s.mapBlockIndex.forest.rank f < s.mapBlockIndex.forest.rank h := by
    by_contra hle
    exact hhf (Forest.mem_chain_of_rank_le hft hht (not_lt.mp hle))
  have hrankb := s.mapBlockIndex.forest.rank_parent hparent
  have hfh : f ∈ s.mapBlockIndex.forest.chain h := Forest.mem_chain_of_rank_le hht hft hrank.le
  have hroot : s.mapBlockIndex.forest.parent h ≠ none := by
    intro hnone
    rw [Forest.chain_of_root hnone, List.mem_singleton] at hfh
    exact absurd hrank (hfh ▸ lt_irrefl _)
  have hmem : h ∈ s.checkedRange nCheckDepth t := mem_chainDownTo.mpr ⟨hht, hroot, by omega⟩
  obtain ⟨pindex, block, hfind, hread⟩ := hw.read h hmem
  obtain ⟨p, hp⟩ := Option.ne_none_iff_exists'.mp hroot
  rw [BlockTree.parent_eq hfind] at hp
  exact ⟨pindex, p, block, hfind, hp, hread⟩

theorem book_rolledBack (hb : s.txdb.batch = none) (hl : Reads P env s (s.mapBlockIndex.forest.below t f)) :
    CTxDB.book (BatchStore.Store.commit (s.rolledBack P t f)) =
      Ledger.disconnectAll s.txdb.book (s.txsAbove P t f) := by
  rw [rolledBack, book_commit_best, book_foldl_takeBack hl, book_txnBegin hb]
  rfl

/-- Where the chain stays, it is repaired when the index describes it. -/
theorem Walked.repaired_iff_of_kept (hw : Walked P env nCheckLevel nCheckDepth s t) (hlevel : 1 ≤ nCheckLevel)
    (ht : s.txdb.readHashBestChain = some t) (hkept : s.repairedTip P env nCheckLevel nCheckDepth t = t)
    (pindexBest : CBlockIndex) (sync : Uint256) :
    Repaired P env nCheckLevel nCheckDepth (s.withBest t pindexBest sync) t ↔
      Recovers P env nCheckLevel nCheckDepth s t t := by
  have htxs : s.txsAbove P t t = [] := by simp [txsAbove, Forest.below_self]
  have hpasses : ∀ h ∈ s.checkedRange nCheckDepth t, s.Passes P env nCheckLevel h := by
    intro h hh
    refine hw.passes hlevel ?_ hh
    rw [hkept]
    exact (mem_chainDownTo.mp hh).1
  constructor
  · intro hrep
    refine ⟨fun h hh hnot => absurd hh hnot, fun hne => absurd rfl hne, ?_⟩
    rw [htxs]
    exact hrep.index
  · intro hrec
    have hleft := hrec.left
    rw [htxs] at hleft
    exact ⟨hpasses, rfl, ht, hleft⟩

/-- Where the chain is to be cut at `f`, it is repaired when `SetBestChain`
goes through and leaves nothing of what it takes back. -/
theorem Walked.repaired_iff_of_moved (hs : Loaded P env s) (hw : Walked P env nCheckLevel nCheckDepth s t)
    (hlevel : 1 ≤ nCheckLevel) (ht : s.txdb.readHashBestChain = some t) {b : Uint256}
    (hb : b ∈ s.checkedRange nCheckDepth t) (hparent : s.mapBlockIndex.forest.parent b = some f)
    (hmoved : s.repairedTip P env nCheckLevel nCheckDepth t = f) {pindexBest : CBlockIndex}
    (hbest : s.mapBlockIndex.find t = some pindexBest) {sync : Uint256} {u : Unit}
    (hrun : rollBack P env f (s.withBest t pindexBest sync) = .ok u s') :
    Repaired P env nCheckLevel nCheckDepth s' f ↔ Recovers P env nCheckLevel nCheckDepth s t f := by
  have hbt := (mem_chainDownTo.mp hb).1
  have hft : f ∈ s.mapBlockIndex.chain t := Forest.parent_mem_chain hbt hparent
  have hne : f ≠ t := fun he => Forest.notMem_chain_parent hparent (he ▸ hbt)
  have hhas : s.mapBlockIndex.Has f := BlockTree.has_of_mem_chain hw.has hft
  have hreads := hw.reads hb hparent
  have htip := hs.atTip ht hbest sync
  obtain ⟨pindex, block, hfind, hread, hset⟩ := rollBack_ok hrun
  have hprev : block.hashPrevBlock ≠ t := by
    intro he
    have hlink := hs.links f pindex block hfind hread (he ▸ hw.has)
    rw [he, ← BlockTree.parent_eq hfind] at hlink
    have hrank := s.mapBlockIndex.forest.rank_parent hlink
    have := Forest.rank_le hft
    omega
  obtain ⟨hback, hdone⟩ := setBestChain_back htip hs.trusts hft hreads hprev
  rcases hset with ⟨_, hset⟩ | ⟨e, hset⟩
  · obtain ⟨hgoes, htxdb, hpindex⟩ := hdone s' hset
    have hsteady : Steady (s.withBest t pindexBest sync) s' := (keeps_setBestChain block f).ok hset
    have hgrows : s.mapBlockIndex.Grows s'.mapBlockIndex := hsteady.tree
    have hdisk : s'.disk = s.disk := hsteady.disk
    have hbook : s'.txdb.book = Ledger.disconnectAll s.txdb.book (s.txsAbove P t f) := by
      rw [htxdb]
      exact book_rolledBack (s := s.withBest t pindexBest sync) hs.batch hreads
    have hpass : ∀ {h}, h ∈ s.checkedRange nCheckDepth f →
        (s'.Passes P env nCheckLevel h ↔ s.Passes P env nCheckLevel h) := fun hh =>
      passes_of_grows hgrows hdisk (BlockTree.has_of_mem_chain hhas (mem_chainDownTo.mp hh).1)
    constructor
    · intro hrep
      refine ⟨fun h hh _ => ?_, fun _ => ⟨hgoes.given, hgoes.commits⟩, ?_⟩
      · exact (hpass hh).mp (hrep.passes h ((checkedRange_of_grows hgrows hhas).mpr hh))
      · rw [← hbook, hrep.index, ledger_of_grows hgrows hdisk hhas]
    · intro hrec
      refine ⟨fun h hh => ?_, hpindex, ?_, ?_⟩
      · rw [checkedRange_of_grows hgrows hhas] at hh
        rw [hpass hh]
        by_cases hold : h ∈ s.checkedRange nCheckDepth t
        · exact hw.passes hlevel (by rw [hmoved]; exact (mem_chainDownTo.mp hh).1) hold
        · exact hrec.below h hh hold
      · rw [htxdb, rolledBack]
        exact best_commit_best _ _
      · rw [hbook, hrec.left, ledger_of_grows hgrows hdisk hhas]
  · -- SetBestChain has failed, and the tip is the old one
    have hu : Undone (fun _ => False) (s.withBest t pindexBest sync) s' :=
      setBestChain_undone htip hhas (fun _ hk => hk.elim) (fun he => absurd he hprev) hset
    have hpindex : s'.pindexBest = some t := by rw [hu.inside.rest]; rfl
    constructor
    · intro hrep
      exact absurd (Option.some.inj (hrep.pindexBest.symm.trans hpindex)) hne
    · intro hrec
      have hgoes := hrec.goesBack hne
      obtain ⟨_, hok⟩ := hback ⟨hgoes.given, hgoes.commits⟩
      exact absurd (hok.symm.trans hset) (by simp)

/-- The chain of `t` is that of an ancestor with what is above it. -/
theorem chainTxs_eq_append (hf : f ∈ s.mapBlockIndex.chain t) :
    s.chainTxs P t = s.chainTxs P f ++ s.txsAbove P t f := by
  rw [chainTxs, BlockTree.chain, Forest.chain_eq_below_append hf, List.reverse_append, List.flatMap_append]
  rfl

/-- An index that is the ledger of the chain, as the files have it, gives back
the transactions above a block of the chain, and the ledger to there is left. -/
theorem Connected.given_left {T : CTransaction → Prop} (hc : Connected P T s t) (hf : f ∈ s.mapBlockIndex.chain t) :
    Ledger.GivesBack s.txdb.book (s.txsAbove P t f) ∧
      Ledger.disconnectAll s.txdb.book (s.txsAbove P t f) = s.ledger P f := by
  have hvalid := hc.valid
  have hindex := hc.index
  rw [chainTxs_eq_append hf, Ledger.okAll_append] at hvalid
  rw [ledger, chainTxs_eq_append hf, Ledger.connectAll_append] at hindex
  rw [hindex]
  exact ⟨Ledger.givesBack_connectAll hvalid.2, Ledger.disconnectAll_connectAll hvalid.2⟩

/-- A node whose index is that of the chain, as the files have it, recovers
where no block comes into the range and leveldb commits the batch. -/
theorem Connected.recovers {T : CTransaction → Prop} (hc : Connected P T s t) (hf : f ∈ s.mapBlockIndex.chain t)
    (hrange : ∀ h ∈ s.checkedRange nCheckDepth f, h ∈ s.checkedRange nCheckDepth t)
    (hcommits : env.commitOk (s.rolledBack P t f).ops) : Recovers P env nCheckLevel nCheckDepth s t f := by
  obtain ⟨hgiven, hleft⟩ := hc.given_left hf
  exact ⟨fun h hh hnot => absurd (hrange h hh) hnot, fun _ => ⟨hgiven, hcommits⟩, hleft⟩

end Node

/-! ## Two blocks of the sample network -/

namespace Sample

/-- Two blocks on top of the genesis block. -/
def storedCalls : List Call :=
  [.record (chainBlock 1), .best (chainBlock 1), .record (chainBlock 2), .best (chainBlock 2)]

/-- The node with these blocks. -/
def twoStored : Node := play (params true) storedCalls (fresh true)

/-- The second block with one bit of its coinbase changed: the transaction now
spends an output. -/
def flipped : CBlock :=
  { chainBlock 2 with vtx := (chainBlock 2).vtx.map fun tx =>
      { tx with vin := tx.vin.map fun txin => { txin with prevout := ⟨1, txin.prevout.n⟩ } } }

/-- The node with the changed block in its file. -/
def damaged : Node :=
  { twoStored with disk := (play (params true) (storedCalls.take 2) (fresh true)).disk.append flipped }

/-- A clock before the second block, and after the first. -/
def earlyEnv : Env := { env with adjustedTime := start - 450 }

theorem loaded_of_records {P : Params} {env : Env} {s : Node} (hb : s.txdb.batch = none)
    (hg : s.pindexGenesisBlock ≠ none) (h : s.mapBlockIndex.index.entries.all fun e =>
      (match e.2.pprev.bind s.mapBlockIndex.find with
        | none => true
        | some bp => decide (bp.nChainTrust ≤ e.2.nChainTrust)) &&
      (match s.readIndexed env P e.2 with
        | .error _ => true
        | .ok block => !decide (s.mapBlockIndex.Has block.hashPrevBlock) ||
            decide (e.2.pprev = some block.hashPrevBlock))) : Node.Loaded P env s := by
  rw [List.all_eq_true] at h
  refine ⟨hb, fun _ => hg, fun k p b bp hf hp hbp => ?_, fun k b block hf hr hhas => ?_⟩
  · have hrec := h ⟨k, b⟩ (AList.mem_lookup_iff.mp hf)
    rw [Bool.and_eq_true] at hrec
    simpa [hp, hbp] using hrec.1
  · have hrec := h ⟨k, b⟩ (AList.mem_lookup_iff.mp hf)
    rw [Bool.and_eq_true] at hrec
    simpa [hr, hhas] using hrec.2

end Sample

end Pinkcoin
