/-
What the transaction index stands for: the ledger of a chain, made by
connecting its blocks from the genesis block on. `Connected` says that the
index as it is read, with an open batch or without, is the ledger of the
chain to one block; connecting a block on top moves it one block on,
disconnecting one block back.
-/
import Pinkcoin.Frames

namespace Pinkcoin

open StateError
open Ledger (slot Unspent OkAll)

/-! ## The ledger of a chain -/

namespace Node

/-- The block on disk a record of the index points to. -/
def blockAt (s : Node) (h : Uint256) : Option CBlock :=
  (s.mapBlockIndex.find h).bind fun b => s.disk.block b.nFile b.nBlockPos

/-- The transactions that connecting a block of the index connects. The
genesis block, which has no predecessor, is never connected. -/
def txsOf (P : Params) (s : Node) (h : Uint256) : List LedgerTx :=
  match s.mapBlockIndex.find h with
  | none => []
  | some b =>
    if b.pprev = none then []
    else (s.disk.block b.nFile b.nBlockPos).elim [] fun block => block.ledgerTxs P b.nFile b.nBlockPos

/-- The transactions of a chain, the oldest first. -/
def chainTxs (P : Params) (s : Node) (h : Uint256) : List LedgerTx :=
  (s.mapBlockIndex.chain h).reverse.flatMap (s.txsOf P)

/-- The index that connecting exactly the blocks from genesis to `h` makes. -/
def ledger (P : Params) (s : Node) (h : Uint256) : TxBook := Ledger.connectAll (fun _ => none) (s.chainTxs P h)

/-- What is on disk and in the block index belongs together: one root, the
genesis block, and under every other record a block with that hash, on top of
the record's predecessor, numbered by its height, with transactions of `T`. -/
structure Stored (P : Params) (T : CTransaction → Prop) (s : Node) : Prop where
  genesis : s.pindexGenesisBlock = some P.hashGenesisBlock
  root : ∀ h b, s.mapBlockIndex.find h = some b → b.pprev = none → h = P.hashGenesisBlock
  onDisk : ∀ h b, s.mapBlockIndex.find h = some b → ∃ block,
    s.disk.block b.nFile b.nBlockPos = some block ∧ block.getHash P = h ∧
      ∀ p, b.pprev = some p → p = block.hashPrevBlock ∧ block.numberedAs b.nHeight ∧ ∀ tx ∈ block.vtx, T tx

variable {P : Params} {T : CTransaction → Prop} {s s' : Node}

theorem Stored.blockAt (hs : Stored P T s) {h : Uint256} {b : CBlockIndex} (hb : s.mapBlockIndex.find h = some b) :
    ∃ block, s.blockAt h = some block ∧ s.disk.block b.nFile b.nBlockPos = some block := by
  obtain ⟨block, hdisk, -, -⟩ := hs.onDisk h b hb
  exact ⟨block, by simp [Node.blockAt, hb, hdisk], hdisk⟩

/-- Every chain ends with the genesis block. -/
theorem Stored.genesis_mem_chain (hs : Stored P T s) {h : Uint256} (hh : s.mapBlockIndex.Has h) :
    P.hashGenesisBlock ∈ s.mapBlockIndex.chain h := by
  induction h using Forest.chain_induction (F := s.mapBlockIndex.forest) with
  | root x hp =>
    obtain ⟨b, hb⟩ := Option.ne_none_iff_exists'.mp hh
    rw [BlockTree.parent_eq hb] at hp
    rw [← hs.root x b hb hp]
    exact Forest.self_mem_chain x
  | step x p hp ih =>
    obtain ⟨b, hb, hbp⟩ := Option.bind_eq_some_iff.mp hp
    obtain ⟨bp, hfp, -⟩ := s.mapBlockIndex.pprev_ok hb hbp
    exact Forest.mem_chain_of_parent hp (ih (BlockTree.has_of_find hfp))

theorem txsOf_of_pprev {h p : Uint256} {b : CBlockIndex} {block : CBlock} (hb : s.mapBlockIndex.find h = some b)
    (hp : b.pprev = some p) (hdisk : s.disk.block b.nFile b.nBlockPos = some block) :
    s.txsOf P h = block.ledgerTxs P b.nFile b.nBlockPos := by
  simp [txsOf, hb, hp, hdisk]

theorem chainTxs_of_pprev {h p : Uint256} {b : CBlockIndex} (hb : s.mapBlockIndex.find h = some b)
    (hp : b.pprev = some p) : s.chainTxs P h = s.chainTxs P p ++ s.txsOf P h := by
  rw [chainTxs, BlockTree.chain_of_pprev hb hp, List.reverse_cons, List.flatMap_append]
  simp [chainTxs]

theorem chainTxs_of_no_pprev {h : Uint256} {b : CBlockIndex} (hb : s.mapBlockIndex.find h = some b)
    (hp : b.pprev = none) : s.chainTxs P h = [] := by
  rw [chainTxs, BlockTree.chain_of_no_pprev hb hp]
  simp [txsOf, hb, hp]

theorem ledger_of_pprev {h p : Uint256} {b : CBlockIndex} (hb : s.mapBlockIndex.find h = some b)
    (hp : b.pprev = some p) : s.ledger P h = Ledger.connectAll (s.ledger P p) (s.txsOf P h) := by
  rw [ledger, chainTxs_of_pprev hb hp, Ledger.connectAll_append, ledger]

theorem mem_chainTxs {h : Uint256} {t : LedgerTx} :
    t ∈ s.chainTxs P h ↔ ∃ k ∈ s.mapBlockIndex.chain h, t ∈ s.txsOf P k := by
  simp [chainTxs]

/-- The transactions of an ancestor's chain come first. -/
theorem chainTxs_prefix {h k : Uint256} (hk : k ∈ s.mapBlockIndex.chain h) :
    ∃ ts, s.chainTxs P h = s.chainTxs P k ++ ts := by
  obtain ⟨pre, hpre⟩ := Forest.chain_suffix hk
  refine ⟨pre.reverse.flatMap (s.txsOf P), ?_⟩
  rw [chainTxs, BlockTree.chain, ← hpre, List.reverse_append, List.flatMap_append]
  rfl

/-! ## The ledger of a chain does not change -/

theorem Grows.blockAt_eq (hg : Grows s s') (hs : Stored P T s) {h : Uint256} (hh : s.mapBlockIndex.Has h) :
    s'.blockAt h = s.blockAt h := by
  obtain ⟨b, hb⟩ := Option.ne_none_iff_exists'.mp hh
  obtain ⟨block, hblock, hdisk⟩ := hs.blockAt hb
  obtain ⟨b', hb', hc⟩ := hg.tree h b hb
  rw [hblock, Node.blockAt, hb', Option.bind_some, BlockTree.core_nFile hc, BlockTree.core_nBlockPos hc, hg.disk hdisk]

theorem Grows.txsOf_eq (hg : Grows s s') (hs : Stored P T s) {h : Uint256} (hh : s.mapBlockIndex.Has h) :
    s'.txsOf P h = s.txsOf P h := by
  obtain ⟨b, hb⟩ := Option.ne_none_iff_exists'.mp hh
  obtain ⟨block, -, hdisk⟩ := hs.blockAt hb
  obtain ⟨b', hb', hc⟩ := hg.tree h b hb
  simp only [txsOf, hb, hb', BlockTree.core_pprev hc, BlockTree.core_nFile hc, BlockTree.core_nBlockPos hc, hdisk,
    hg.disk hdisk]

theorem Grows.chainTxs_eq (hg : Grows s s') (hs : Stored P T s) {h : Uint256} (hh : s.mapBlockIndex.Has h) :
    s'.chainTxs P h = s.chainTxs P h := by
  rw [chainTxs, hg.tree.chain_eq hh, chainTxs, List.flatMap_def, List.flatMap_def]
  congr 1
  refine List.map_congr_left fun k hk => hg.txsOf_eq hs ?_
  exact BlockTree.has_of_mem_chain hh (List.mem_reverse.mp hk)

theorem Grows.ledger_eq (hg : Grows s s') (hs : Stored P T s) {h : Uint256} (hh : s.mapBlockIndex.Has h) :
    s'.ledger P h = s.ledger P h := by
  rw [ledger, hg.chainTxs_eq hs hh, ledger]

/-- Where the records keep their cores, the index and the disk stay together. -/
theorem Stored.of_cores (hs : Stored P T s)
    (hback : ∀ h b', s'.mapBlockIndex.find h = some b' → ∃ b, s.mapBlockIndex.find h = some b ∧ b'.core = b.core)
    (hdisk : s'.disk = s.disk) (hgenesis : s'.pindexGenesisBlock = s.pindexGenesisBlock) : Stored P T s' := by
  refine ⟨by rw [hgenesis]; exact hs.genesis, fun h b' hb' hp => ?_, fun h b' hb' => ?_⟩
  · obtain ⟨b, hb, hc⟩ := hback h b' hb'
    exact hs.root h b hb (BlockTree.core_pprev hc ▸ hp)
  · obtain ⟨b, hb, hc⟩ := hback h b' hb'
    rw [BlockTree.core_pprev hc, BlockTree.core_nFile hc, BlockTree.core_nBlockPos hc, BlockTree.core_nHeight hc, hdisk]
    exact hs.onDisk h b hb

/-- The steps inside a batch keep the index and the disk together. -/
theorem Stored.of_inside {S : Uint256 → Prop} (hs : Stored P T s) (hi : Inside S s s') : Stored P T s' := by
  refine hs.of_cores (fun h b' hb' => ?_) hi.disk (by rw [hi.rest])
  cases hb : s.mapBlockIndex.find h with
  | none => simp [hi.new h hb] at hb'
  | some b =>
    obtain ⟨m, n, hb''⟩ := hi.tree h b hb
    obtain rfl := Option.some.inj (hb''.symm.trans hb')
    exact ⟨b, rfl, rfl⟩

/-! ## The transactions a ledger was made of -/

/-- No two different transactions of `T` have the same hash. -/
def HashesApart (P : Params) (T : CTransaction → Prop) : Prop :=
  ∀ a b, T a → T b → a.getHash P = b.getHash P → a = b

/-- The ledger transaction of a transaction of `T` at its position on disk. -/
def Lies (P : Params) (T : CTransaction → Prop) (s : Node) (t : LedgerTx) : Prop :=
  ∃ tx pos, t = tx.ledgerTx P pos ∧ s.disk.tx pos = some tx ∧ T tx ∧ pos ≠ ⟨1, 1, 1⟩

theorem lies_of_block {nFile nBlockPos : Nat} {block : CBlock} (hdisk : s.disk.block nFile nBlockPos = some block)
    (hT : ∀ tx ∈ block.vtx, T tx) {pre post : List CTransaction} (hv : block.vtx = pre ++ post) {t : LedgerTx}
    (ht : t ∈ ledgerTxs P nFile nBlockPos pre (nBlockPos + block.firstTxOffset)) : Lies P T s t := by
  obtain ⟨a, tx, b, rfl, rfl⟩ := mem_ledgerTxs ht
  have hv' : block.vtx = a ++ tx :: (b ++ post) := by simp [hv]
  refine ⟨tx, _, rfl, BlockFiles.tx_of_block hdisk hv', hT tx (by simp [hv']), ?_⟩
  simp only [ne_eq, CDiskTxPos.mk.injEq, CBlock.firstTxOffset, CBlock.headerSize]
  omega

/-- A transaction of the chain is one of a block of the chain. -/
theorem Stored.mem_txsOf (hs : Stored P T s) {h : Uint256} {t : LedgerTx} (ht : t ∈ s.txsOf P h) :
    ∃ b p block, s.mapBlockIndex.find h = some b ∧ b.pprev = some p ∧ s.blockAt h = some block ∧
      block.numberedAs b.nHeight ∧ t ∈ block.ledgerTxs P b.nFile b.nBlockPos ∧ Lies P T s t := by
  unfold txsOf at ht
  split at ht
  next => simp at ht
  next b hb =>
    split at ht
    next => simp at ht
    next hp =>
      obtain ⟨p, hp⟩ := Option.ne_none_iff_exists'.mp hp
      obtain ⟨block, hdisk, -, hall⟩ := hs.onDisk h b hb
      obtain ⟨-, hnum, hT⟩ := hall p hp
      rw [hdisk, Option.elim_some] at ht
      exact ⟨b, p, block, hb, hp, by simp [Node.blockAt, hb, hdisk], hnum, ht,
        lies_of_block hdisk hT (List.append_nil _).symm ht⟩

theorem Stored.lies (hs : Stored P T s) {h : Uint256} {t : LedgerTx} (ht : t ∈ s.chainTxs P h) : Lies P T s t := by
  obtain ⟨k, -, hk⟩ := mem_chainTxs.mp ht
  obtain ⟨_, _, _, -, -, -, -, -, hlies⟩ := hs.mem_txsOf hk
  exact hlies

/-- The value of output `n` of the transaction of `T` with hash `h`. -/
noncomputable def nominalValue (P : Params) (T : CTransaction → Prop) (h : Uint256) (n : ℕ) : Int :=
  open Classical in
  if hx : ∃ tx, T tx ∧ tx.getHash P = h then ((hx.choose.vout[n]?).map CTxOut.nValue).getD 0 else 0

theorem nominalValue_eq (hT : HashesApart P T) {tx : CTransaction} (htx : T tx) (n : ℕ) :
    nominalValue P T (tx.getHash P) n = ((tx.vout[n]?).map CTxOut.nValue).getD 0 := by
  have hx : ∃ u, T u ∧ u.getHash P = tx.getHash P := ⟨tx, htx, rfl⟩
  rw [nominalValue, dif_pos hx, hT _ _ hx.choose_spec.1 htx hx.choose_spec.2]

theorem sum_nominalValue (hT : HashesApart P T) {tx : CTransaction} (htx : T tx) :
    ((List.range tx.vout.length).map (nominalValue P T (tx.getHash P))).sum = tx.getValueOut := by
  rw [CTransaction.getValueOut]
  congr 1
  refine List.ext_getElem (by simp) fun i h₁ h₂ => ?_
  have hi : i < tx.vout.length := by simpa using h₁
  simp [nominalValue_eq hT htx, hi]

/-- The identifiers of a list of ledger transactions. -/
def ids (ts : List LedgerTx) : Finset Uint256 := (ts.map Ledger.Tx.id).toFinset

theorem mem_ids {ts : List LedgerTx} {h : Uint256} : h ∈ ids ts ↔ ∃ t ∈ ts, t.id = h := by simp [ids]

/-- What is unspent in the ledger of a chain. -/
noncomputable def unspentOf (P : Params) (T : CTransaction → Prop) (s : Node) (h : Uint256) : Int :=
  Ledger.total (nominalValue P T) (s.ledger P h) (ids (s.chainTxs P h))

/-! ## An index that is the ledger of a chain -/

/-- The index, as it is read with the open batch if there is one, is the
ledger of the chain to `t`; its blocks can be connected one after the other,
and each record holds the value that is unspent after its block. -/
structure Connected (P : Params) (T : CTransaction → Prop) (s : Node) (t : Uint256) : Prop where
  has : s.mapBlockIndex.Has t
  index : s.txdb.book = s.ledger P t
  valid : OkAll (fun _ => none) (s.chainTxs P t)
  wellFormed : ∀ h ∈ s.mapBlockIndex.chain t, ∀ b p block, s.mapBlockIndex.find h = some b → b.pprev = some p →
    s.blockAt h = some block → ∃ env, block.WellFormed P env false
  supply : ∀ h ∈ s.mapBlockIndex.chain t, ∀ b, s.mapBlockIndex.find h = some b → b.nMoneySupply = unspentOf P T s h

/-- `Connected` speaks of the records' cores, the supply along the chain and
the index only. -/
theorem Connected.transfer {t : Uint256} (hc : Connected P T s t) (hs : Stored P T s) (hg : Grows s s')
    (hsupply : ∀ h ∈ s.mapBlockIndex.chain t, ∀ b b', s.mapBlockIndex.find h = some b →
      s'.mapBlockIndex.find h = some b' → b'.nMoneySupply = b.nMoneySupply)
    (hbook : s'.txdb.book = s.txdb.book) : Connected P T s' t := by
  have hhas : ∀ {h}, h ∈ s.mapBlockIndex.chain t → s.mapBlockIndex.Has h := BlockTree.has_of_mem_chain hc.has
  have hchain := hg.tree.chain_eq hc.has
  refine ⟨hg.tree.has hc.has, ?_, ?_, ?_, ?_⟩
  · rw [hbook, hc.index, hg.ledger_eq hs hc.has]
  · rw [hg.chainTxs_eq hs hc.has]
    exact hc.valid
  · intro h hh b' p block hb' hp hblock
    rw [hchain] at hh
    obtain ⟨b, hb⟩ := Option.ne_none_iff_exists'.mp (hhas hh)
    obtain ⟨b'', hb'', hcore⟩ := hg.tree h b hb
    obtain rfl := Option.some.inj (hb'.symm.trans hb'')
    refine hc.wellFormed h hh b p block hb (BlockTree.core_pprev hcore ▸ hp) ?_
    rw [← hg.blockAt_eq hs (hhas hh), hblock]
  · intro h hh b' hb'
    rw [hchain] at hh
    obtain ⟨b, hb⟩ := Option.ne_none_iff_exists'.mp (hhas hh)
    rw [hsupply h hh b b' hb hb', hc.supply h hh b hb, unspentOf, unspentOf, hg.ledger_eq hs (hhas hh),
      hg.chainTxs_eq hs (hhas hh)]

/-! ## Connecting one more block -/

/-- A coinbase is the first transaction of a block, so it starts with the
block's number. -/
theorem coinbase_numbered {block : CBlock} {env : Env} {n : Nat} (hw : block.WellFormed P env false)
    (hn : block.numberedAs n) {tx : CTransaction} (htx : tx ∈ block.vtx) (hcb : tx.isCoinBase) :
    ∃ txin ∈ tx.vin.head?, CScript.pushInt64 n <+: txin.scriptSig ∧ txin.scriptSig.length ≤ 200 := by
  obtain ⟨cb, hhead, txin, hin, hpre⟩ := hn
  have hfirst : tx = cb := by
    cases hv : block.vtx with
    | nil => simp [hv] at htx
    | cons a vtx =>
      have htail := hw.noOtherCoinbase
      rw [hv, List.tail_cons] at htail
      rw [hv, List.head?_cons, Option.mem_some_iff] at hhead
      rw [hv, List.mem_cons] at htx
      rcases htx with rfl | htx
      · exact hhead
      · exact absurd hcb (htail tx htx)
  subst hfirst
  have hcheck := hw.txs tx htx
  simp only [CBlock.checkBlockTx, except_bind_ok, except_mapError_ok, CTransaction.checkTransaction, if_pos hcb,
    except_rejectIf_ok, exists_const] at hcheck
  obtain ⟨⟨-, -, -, -, _, -, -, hlen⟩, -⟩ := hcheck
  refine ⟨txin, hin, hpre, ?_⟩
  by_contra hlt
  exact hlen ⟨txin, hin, .inr (by omega)⟩

/-- A block on top of a chain brings transactions the chain does not have, or
whose inputs are spent in it: a coinbase is new by its number, and any other
transaction that was connected before has spent its inputs. -/
theorem Connected.newOrSpent (hT : HashesApart P T) (hs : Stored P T s) {t h : Uint256} (hc : Connected P T s t)
    {b : CBlockIndex} {block : CBlock} (hb : s.mapBlockIndex.find h = some b) (hp : b.pprev = some t)
    (hblock : s.blockAt h = some block) {env : Env} (hw : block.WellFormed P env false) :
    ∀ tx ∈ block.vtx, CBlock.NewOrSpent P s.txdb.book tx := by
  intro tx htx
  obtain ⟨block', hdisk, -, hall⟩ := hs.onDisk h b hb
  obtain rfl : block = block' := by simpa [blockAt, hb, hdisk] using hblock.symm
  obtain ⟨-, hnum, hTx⟩ := hall t hp
  rw [hc.index]
  by_cases hnew : s.ledger P t (tx.getHash P) = none
  · exact .inl hnew
  · -- the hash belongs to a transaction of the chain, which is then the same one
    have hmem := Ledger.connectAll_ne_none.mp hnew
    simp only [ne_eq, not_true, false_or] at hmem
    obtain ⟨u, hu, hid⟩ := hmem
    obtain ⟨k, hk, huk⟩ := mem_chainTxs.mp hu
    obtain ⟨c, q, cblock, hcfind, hcp, hcblock, hcnum, hcin, -⟩ := hs.mem_txsOf huk
    obtain ⟨pre, tx', post, hv, rfl⟩ := mem_ledgerTxs hcin
    have htx' : tx' ∈ cblock.vtx := by simp [hv]
    obtain ⟨cblock', hcdisk, -, hcall⟩ := hs.onDisk k c hcfind
    obtain rfl : cblock = cblock' := by simpa [blockAt, hcfind, hcdisk] using hcblock.symm
    obtain rfl : tx' = tx := hT _ _ ((hcall q hcp).2.2 tx' htx') (hTx tx htx) hid
    by_cases hcb : tx'.isCoinBase
    · exfalso
      obtain ⟨env', hw'⟩ := hc.wellFormed k hk c q cblock hcfind hcp hcblock
      obtain ⟨txin, hin, hpre, hlen⟩ := coinbase_numbered hw hnum htx hcb
      obtain ⟨txin', hin', hpre', -⟩ := coinbase_numbered hw' hcnum htx' hcb
      obtain rfl : txin = txin' := Option.some.inj (hin.symm.trans hin')
      have heq : b.nHeight = c.nHeight := CScript.pushInt64_prefix_inj hpre hpre' hlen
      obtain ⟨bt, hbt, hheight⟩ := s.mapBlockIndex.pprev_ok hb hp
      have hle := Forest.rank_le hk
      rw [BlockTree.rank_eq hcfind, BlockTree.rank_eq (show s.mapBlockIndex.find t = some bt from hbt)] at hle
      omega
    · have hvin : tx'.vin ≠ [] := by
        have hcheck := hw.txs tx' htx
        simp only [CBlock.checkBlockTx, except_bind_ok, except_mapError_ok, CTransaction.checkTransaction,
          except_rejectIf_ok, exists_const] at hcheck
        obtain ⟨_, ⟨hvin, -⟩, -⟩ := hcheck
        exact hvin
      obtain ⟨txin, hin⟩ := List.exists_mem_of_ne_nil _ hvin
      have ho : txin.prevout.key ∈ tx'.prevouts.map COutPoint.key := by
        rw [CBlock.prevouts_keys hcb]
        exact List.mem_map_of_mem hin
      exact .inr ⟨_, ho, Ledger.inputs_spent hc.valid hu ho⟩

/-- The inputs that were fetched have their nominal values. -/
theorem valueFor_nominal (hT : HashesApart P T) {env : Env} {pindex : CBlockIndex} {acc acc' : ConnectAcc}
    {tx : CTransaction} {inputs : MapPrevTx} (turn : CBlock.Turn P env s pindex acc tx inputs acc') {ts : List LedgerTx}
    (hbook : s.txdb.queuedBook acc.mapQueuedChanges = Ledger.connectAll (fun _ => none) ts)
    (hlies : ∀ t ∈ ts, Lies P T s t) (hcb : ¬ tx.isCoinBase) {txin : CTxIn} (hin : txin ∈ tx.vin) :
    CTransaction.valueFor inputs txin = nominalValue P T txin.prevout.hash txin.prevout.n := by
  obtain ⟨prev, hprev, -, -⟩ := turn.inRange hcb txin hin
  obtain ⟨hidx, hat⟩ := CTransaction.fetchPrev_ok.mp (turn.fetched _ prev hprev)
  have hentry : Ledger.connectAll (fun _ => none) ts txin.prevout.hash = some prev.1.entry := by
    rw [← hbook, CTxDB.queuedBook, hidx]
    rfl
  rcases Ledger.shape_connectAll hentry with ⟨t, ht, hid, hshape⟩ | ⟨-, e₀, he₀, -⟩
  · obtain ⟨u, pos, rfl, hdisk, hu, hne⟩ := hlies t ht
    have hpos : prev.1.pos = some pos := congrArg Prod.fst hshape
    rw [Node.txAt, hpos, if_neg (by simpa using hne)] at hat
    have huprev : u = prev.2 := by
      simp only [Node.readTx, Option.bind_some, hdisk] at hat
      split at hat
      · exact Option.some.inj hat
      · simp at hat
    have hhash : txin.prevout.hash = u.getHash P := hid.symm
    rw [CTransaction.valueFor, CTransaction.getOutputFor, Option.mem_def.mp hprev, Option.bind_some, ← huprev, hhash,
      nominalValue_eq hT hu]
  · simp at he₀

/-- **The unspent value grows by what the sums of the loop say.** -/
theorem total_turns (hT : HashesApart P T) {env : Env} {pindex : CBlockIndex} {block : CBlock}
    (hdisk : s.disk.block pindex.nFile pindex.nBlockPos = some block) (hTx : ∀ tx ∈ block.vtx, T tx) {ts : List LedgerTx}
    (hlies : ∀ t ∈ ts, Lies P T s t) {keys : Finset Uint256} (pre : List CTransaction) {vtx : List CTransaction}
    {acc acc' : ConnectAcc} (h : CBlock.Turns P env s pindex acc vtx acc') (hv : block.vtx = pre ++ vtx)
    (hpos : acc.nTxPos = pindex.nBlockPos + block.firstTxOffset + (pre.map CTransaction.getSerializeSize).sum)
    (hbook : s.txdb.queuedBook acc.mapQueuedChanges = Ledger.connectAll (fun _ => none)
      (ts ++ ledgerTxs P pindex.nFile pindex.nBlockPos pre (pindex.nBlockPos + block.firstTxOffset)))
    (hok : OkAll (s.txdb.queuedBook acc.mapQueuedChanges) (ledgerTxs P pindex.nFile pindex.nBlockPos vtx acc.nTxPos))
    (hkeys : ids (ts ++ block.ledgerTxs P pindex.nFile pindex.nBlockPos) ⊆ keys) :
    Ledger.total (nominalValue P T) (s.txdb.queuedBook acc'.mapQueuedChanges) keys - (acc'.nValueOut - acc'.nValueIn) =
      Ledger.total (nominalValue P T) (s.txdb.queuedBook acc.mapQueuedChanges) keys - (acc.nValueOut - acc.nValueIn) := by
  induction h generalizing pre with
  | nil acc => rfl
  | cons turn rest ih =>
    rename_i acc acc' acc'' tx vtx inputs
    have htx : tx ∈ block.vtx := by simp [hv]
    rw [ledgerTxs] at hok
    have hih := ih (pre ++ [tx]) (by rw [hv, List.append_assoc]; rfl)
      (by rw [turn.nTxPos, hpos, List.map_append, List.sum_append]; simp [Nat.add_assoc])
      (by rw [turn.book, hbook, hpos, ledgerTxs_append, ← List.append_assoc, Ledger.connectAll_append _ (ts ++ _)]; rfl)
      (by rw [turn.book, turn.nTxPos]; exact hok.2)
    rw [hih, turn.book]
    have hpre : ledgerTxs P pindex.nFile pindex.nBlockPos pre (pindex.nBlockPos + block.firstTxOffset) ++
        tx.ledgerTx P ⟨pindex.nFile, pindex.nBlockPos, acc.nTxPos⟩ ::
          ledgerTxs P pindex.nFile pindex.nBlockPos vtx (acc.nTxPos + tx.getSerializeSize) =
        block.ledgerTxs P pindex.nFile pindex.nBlockPos := by
      rw [CBlock.ledgerTxs, hv, ledgerTxs_append, hpos, ledgerTxs]
    -- every hash in the ledger is among the keys
    have hcover : ∀ k, s.txdb.queuedBook acc.mapQueuedChanges k ≠ none → k ∈ keys := by
      intro k hk
      rw [hbook, Ledger.connectAll_ne_none] at hk
      obtain ⟨t, ht, hid⟩ := hk.resolve_left (by simp)
      refine hkeys (mem_ids.mpr ⟨t, ?_, hid⟩)
      rw [← hpre]
      rcases List.mem_append.mp ht with ht | ht
      · exact List.mem_append_left _ ht
      · exact List.mem_append_right _ (List.mem_append_left _ ht)
    have hid : tx.getHash P ∈ keys :=
      hkeys (mem_ids.mpr ⟨tx.ledgerTx P ⟨pindex.nFile, pindex.nBlockPos, acc.nTxPos⟩,
        by rw [← hpre]; simp, rfl⟩)
    have htotal := Ledger.total_connect (v := nominalValue P T) hok.1 hid
      fun o ho => hcover _ (Ledger.isSome_of_slot (hok.1.unspent o ho))
    have hout : ((List.range (tx.ledgerTx P ⟨pindex.nFile, pindex.nBlockPos, acc.nTxPos⟩).outputs).map
        (nominalValue P T (tx.ledgerTx P ⟨pindex.nFile, pindex.nBlockPos, acc.nTxPos⟩).id)).sum = tx.getValueOut :=
      sum_nominalValue hT (hTx tx htx)
    have hin : ((tx.ledgerTx P ⟨pindex.nFile, pindex.nBlockPos, acc.nTxPos⟩).inputs.map
        fun o => nominalValue P T o.1 o.2).sum = tx.getValueIn inputs := by
      by_cases hcb : tx.isCoinBase
      · simp [CTransaction.ledgerTx, CBlock.prevouts_of_coinBase hcb, CTransaction.getValueIn, hcb]
      · rw [CTransaction.getValueIn, if_neg hcb, CTransaction.ledgerTx, CBlock.prevouts_keys hcb, List.map_map]
        congr 1
        refine List.map_congr_left fun txin htxin => ?_
        refine (valueFor_nominal hT turn hbook (fun t ht => ?_) hcb htxin).symm
        rcases List.mem_append.mp ht with ht | ht
        · exact hlies t ht
        · exact lies_of_block hdisk hTx hv ht
    rw [htotal, hout, hin, turn.nValueOut, turn.nValueIn]
    omega

/-- The supply that a connected block gets is what is unspent after it. -/
theorem Connected.unspentOf_connect (hT : HashesApart P T) (hs : Stored P T s) {t h : Uint256} (hc : Connected P T s t)
    {b : CBlockIndex} {block : CBlock} (hb : s.mapBlockIndex.find h = some b) (hp : b.pprev = some t)
    (hblock : s.blockAt h = some block) {env : Env} {acc : ConnectAcc} (hchecked : CBlock.Checked P env s b block acc)
    (hok : OkAll s.txdb.book (block.ledgerTxs P b.nFile b.nBlockPos)) :
    unspentOf P T s h = unspentOf P T s t + acc.nValueOut - acc.nValueIn := by
  obtain ⟨block', hdisk, -, hall⟩ := hs.onDisk h b hb
  obtain rfl : block = block' := by simpa [blockAt, hb, hdisk] using hblock.symm
  have hchain : s.chainTxs P h = s.chainTxs P t ++ block.ledgerTxs P b.nFile b.nBlockPos := by
    rw [chainTxs_of_pprev hb hp, txsOf_of_pprev hb hp hdisk]
  have hledger : s.txdb.queuedBook acc.mapQueuedChanges = s.ledger P h := by
    rw [hchecked.book, hc.index, ledger, ← Ledger.connectAll_append, ← hchain, ledger]
  have htotal := total_turns hT hdisk (hall t hp).2.2 (fun u hu => hs.lies hu) [] hchecked.turns rfl
    (by simp [CBlock.acc₀]) (by rw [CBlock.acc₀, queuedBook_empty, hc.index, ledgerTxs, List.append_nil, ledger])
    (by rw [CBlock.acc₀, queuedBook_empty]; exact hok) (Finset.Subset.refl _)
  -- the hashes of the chain before cover its ledger
  have hcover : Ledger.total (nominalValue P T) (s.ledger P t) (ids (s.chainTxs P h)) = unspentOf P T s t := by
    refine Ledger.total_eq_of_cover (fun k hk => ?_) fun k hk => ?_
    · obtain ⟨u, hu, hid⟩ := mem_ids.mp hk
      exact mem_ids.mpr ⟨u, by rw [hchain]; exact List.mem_append_left _ hu, hid⟩
    · obtain ⟨u, hu, hid⟩ := (Ledger.connectAll_ne_none.mp hk).resolve_left (by simp)
      exact mem_ids.mpr ⟨u, hu, hid⟩
  rw [← hchain, hledger, CBlock.acc₀, queuedBook_empty, hc.index, hcover] at htotal
  simp only [sub_zero] at htotal
  rw [unspentOf]
  omega

/-- **Connecting a block moves the index one block on.** -/
theorem Connected.connect (hT : HashesApart P T) (hs : Stored P T s) {t h : Uint256} (hc : Connected P T s t)
    {b b' : CBlockIndex} {block : CBlock} (hb : s.mapBlockIndex.find h = some b) (hp : b.pprev = some t)
    (hblock : s.blockAt h = some block) {env : Env} (hrun : block.connectBlock P env b false s = .ok b' s') :
    Connected P T s' h := by
  have hbh : b.phashBlock = h := BlockTree.find_hash hb
  have hi : Inside (· ≠ h) s s' := (keeps_connectBlock block b (by simpa using hbh)).ok hrun
  have hg := hi.grows
  obtain ⟨acc, hchecked, rfl, rfl⟩ := CBlock.connectBlock_ok hrun
  obtain ⟨block', hdisk, -, -⟩ := hs.onDisk h b hb
  obtain rfl : block = block' := by simpa [blockAt, hb, hdisk] using hblock.symm
  have hhas := BlockTree.has_of_find hb
  have hok := hchecked.okAll (hc.newOrSpent hT hs hb hp hblock hchecked.wellFormed)
  have hchain : s.chainTxs P h = s.chainTxs P t ++ block.ledgerTxs P b.nFile b.nBlockPos := by
    rw [chainTxs_of_pprev hb hp, txsOf_of_pprev hb hp hdisk]
  refine ⟨hg.tree.has hhas, ?_, ?_, ?_, ?_⟩
  · rw [hchecked.book_connected, hg.ledger_eq hs hhas, hc.index, ledger, ← Ledger.connectAll_append, ← hchain, ledger]
  · rw [hg.chainTxs_eq hs hhas, hchain, Ledger.okAll_append, ← ledger, ← hc.index]
    exact ⟨hc.valid, hok⟩
  · intro k hk c p cblock hcfind hcp hcblock
    rw [hg.tree.chain_eq hhas, BlockTree.chain_of_pprev hb hp, List.mem_cons] at hk
    rcases hk with rfl | hk
    · rw [hg.blockAt_eq hs hhas, hblock, Option.some.injEq] at hcblock
      exact ⟨env, hcblock ▸ hchecked.wellFormed⟩
    · have hkt := BlockTree.has_of_mem_chain hc.has hk
      have hne : k ≠ h := fun he => Forest.notMem_chain_parent (by rw [BlockTree.parent_eq hb, hp]) (he ▸ hk)
      exact hc.wellFormed k hk c p cblock (by rw [← hi.kept k hne, hcfind]) hcp (by rw [← hg.blockAt_eq hs hkt, hcblock])
  · intro k hk c hcfind
    rw [hg.tree.chain_eq hhas, BlockTree.chain_of_pprev hb hp, List.mem_cons] at hk
    have hunspent : ∀ {k}, s.mapBlockIndex.Has k → unspentOf P T (CBlock.connected P env s block
        (CBlock.withSupply s b acc) acc) k = unspentOf P T s k := fun hk' => by
      rw [unspentOf, hg.ledger_eq hs hk', hg.chainTxs_eq hs hk', unspentOf]
    rcases hk with rfl | hk
    · have hsupply : c.nMoneySupply = (CBlock.withSupply s b acc).nMoneySupply := by
        have hfind := hcfind
        simp only [CBlock.connected, BlockTree.find_setSupply, hb, Option.map_some] at hfind
        rw [if_pos (by simp [CBlock.withSupply, hbh])] at hfind
        rw [← Option.some.inj hfind]
      obtain ⟨bt, hbt⟩ := Option.ne_none_iff_exists'.mp hc.has
      rw [hunspent hhas, hc.unspentOf_connect hT hs hb hp hblock hchecked hok, hsupply]
      simp only [CBlock.withSupply, hp, Option.bind_some, hbt, Option.map_some, Option.getD_some,
        hc.supply t (Forest.self_mem_chain t) bt hbt]
    · have hkt := BlockTree.has_of_mem_chain hc.has hk
      have hne : k ≠ h := fun he => Forest.notMem_chain_parent (by rw [BlockTree.parent_eq hb, hp]) (he ▸ hk)
      rw [hunspent hkt]
      exact hc.supply k hk c (by rw [← hi.kept k hne, hcfind])

/-- **Disconnecting a block moves the index one block back.** -/
theorem Connected.disconnect (hs : Stored P T s) {h p : Uint256} (hc : Connected P T s h) {b pindex : CBlockIndex}
    {block : CBlock} (hb : s.mapBlockIndex.find h = some b) (hp : b.pprev = some p) (hblock : s.blockAt h = some block)
    {env : Env} (hrun : block.disconnectBlock P env pindex s = .ok () s') : Connected P T s' p := by
  have hi : Inside (fun _ => True) s s' := (keeps_disconnectBlock block pindex).ok hrun
  have hg := hi.grows
  obtain ⟨block', hdisk, -, -⟩ := hs.onDisk h b hb
  obtain rfl : block = block' := by simpa [blockAt, hb, hdisk] using hblock.symm
  obtain ⟨bp, hbp, -⟩ := s.mapBlockIndex.pprev_ok hb hp
  have hhas : s.mapBlockIndex.Has p := BlockTree.has_of_find hbp
  have hmem : ∀ {k}, k ∈ s.mapBlockIndex.chain p → k ∈ s.mapBlockIndex.chain h := fun hk => by
    rw [BlockTree.chain_of_pprev hb hp]
    exact List.mem_cons_of_mem _ hk
  have hvalid := hc.valid
  rw [chainTxs_of_pprev hb hp, Ledger.okAll_append, ← ledger] at hvalid
  have hbook : s'.txdb.book = s.ledger P p := by
    obtain ⟨txdb, rfl, hdis⟩ := CBlock.disconnectBlock_ok b.nFile b.nBlockPos hrun
    rw [book_withHashNext, hdis, hc.index, ledger_of_pprev hb hp, ← txsOf_of_pprev hb hp hdisk]
    exact Ledger.disconnectAll_connectAll hvalid.2
  refine ⟨hg.tree.has hhas, by rw [hbook, hg.ledger_eq hs hhas], by rw [hg.chainTxs_eq hs hhas]; exact hvalid.1, ?_, ?_⟩
  · intro k hk c q cblock hcfind hcp hcblock
    rw [hg.tree.chain_eq hhas] at hk
    have hkp := BlockTree.has_of_mem_chain hhas hk
    exact hc.wellFormed k (hmem hk) c q cblock (by rw [← hi.kept k trivial, hcfind]) hcp
      (by rw [← hg.blockAt_eq hs hkp, hcblock])
  · intro k hk c hcfind
    rw [hg.tree.chain_eq hhas] at hk
    have hkp := BlockTree.has_of_mem_chain hhas hk
    rw [unspentOf, hg.ledger_eq hs hkp, hg.chainTxs_eq hs hkp]
    exact hc.supply k (hmem hk) c (by rw [← hi.kept k trivial, hcfind])

end Node

end Pinkcoin
