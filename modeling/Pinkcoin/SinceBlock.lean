/-
`listsinceblock`: the transactions since a block, and the block to ask from
the next time. That is the last one with the confirmations the caller waits
for. When it is not in the main chain any more, its locator leads to a block
before the fork.
-/
import Pinkcoin.Locator
import Pinkcoin.Paging
import Pinkcoin.SpentCoins

namespace Pinkcoin

/-! ## The call -/

/-- What a call sees: the node, and the wallet. -/
structure PollState where
  node : Node
  wallet : HistoryWallet

/-- What a call hands to `ListTransactions`, in its order, and what it returns
for the next call. -/
structure SinceBlock where
  listed : List HistoryTx
  lastblock : Uint256

/-- `"transactions"` of the result. -/
def SinceBlock.transactions (P : Params) (q : PollState) (r : SinceBlock) : List TransactionEntry :=
  r.listed.flatMap fun t =>
    { q.wallet.books with getDepthInMainChain := (·.getDepthInMainChain P q.node) }.listTransactions t.wtx
      t.strFromAccount "*" 0

/-- `CBlockLocator(hashBlock)`. -/
def CBlockLocator.ofHash (P : Params) (t : BlockTree) (hashBlock : Uint256) : List Uint256 :=
  if t.Has hashBlock then CBlockLocator.set P t hashBlock else []

/-- `"lastblock"`. -/
def lastBlock (s : Node) (target_confirms : Int) : Uint256 :=
  if target_confirms = 1 then s.hashBestChain
  else
    let target_height := ((s.best.map CBlockIndex.nHeight).getD 0 : Int) + 1 - target_confirms
    let blocks := (s.pindexBest.map s.mapBlockIndex.branch).getD []
    ((blocks.find? fun block => !decide (target_height < block.nHeight)).map CBlockIndex.phashBlock).getD 0

/-- `depth`. -/
def sinceDepth (s : Node) (pindex : Option Uint256) : Int :=
  match pindex with
  | some h => 1 + s.nBestHeight - ((s.mapBlockIndex.find h).map CBlockIndex.nHeight).getD 0
  | none => -1

/-- `listsinceblock`. The hash and the number may be left out. -/
def listsinceblock (P : Params) (q : PollState) (blockhash : Option Uint256) (target_confirmations : Option Int) :
    Except ListError SinceBlock :=
  let pindex := blockhash.bind fun blockId =>
    q.node.getBlockIndex (CBlockLocator.ofHash P q.node.mapBlockIndex blockId)
  let target_confirms := target_confirmations.getD 1
  if target_confirms < 1 then throw (.invalidParameter "Invalid parameter")
  else
    let depth := sinceDepth q.node pindex
    pure {
      listed := q.wallet.mapWallet.filter fun t => depth = -1 ∨ t.wtx.getDepthInMainChain P q.node < depth
      lastblock := lastBlock q.node target_confirms }

/-! ## Polling -/

/-- A series of calls: each but the first passes the block that the one before
it returned. -/
def poll (P : Params) (k : Int) (states : Nat → PollState) (first : Option Uint256) :
    Nat → Except ListError SinceBlock
  | 0 => listsinceblock P (states 0) first (some k)
  | i + 1 => do
    let r ← poll P k states first i
    listsinceblock P (states (i + 1)) (some r.lastblock) (some k)

/-- A transaction that the wallet takes: it pays to the wallet, or is from it. -/
def InvolvesWallet (b : WalletBooks) (tx : CTransaction) : Prop :=
  tx.vout.any b.own.isMine = true ∨ 0 < b.getDebit tx

/-- The transaction of the genesis block: a coinbase, and its output is empty. -/
def IsGenesisTx (tx : CTransaction) : Prop := tx.isCoinBase ∧ ∀ txout ∈ tx.vout, txout.scriptPubKey = []

/-- **A call is made in order**: the node is at a tip, no block and no
transaction has the hash 0, and the wallet has only what it takes. -/
structure PollState.InOrder (P : Params) (q : PollState) (tip : Uint256) : Prop where
  main : MainTo P q.node tip
  hashBestChain : q.node.hashBestChain = tip
  nBestHeight : q.node.nBestHeight = q.node.heightOf tip
  genesis : q.node.pindexGenesisBlock = some P.hashGenesisBlock
  zero : ¬ q.node.mapBlockIndex.Has 0
  null : q.wallet.books.mapWallet.lookup 0 = none
  involves : ∀ t ∈ q.wallet.mapWallet, InvolvesWallet q.wallet.books t.wtx.tx
  genesisTx : ∀ t ∈ q.wallet.mapWallet, t.wtx.hashBlock = P.hashGenesisBlock → IsGenesisTx t.wtx.tx

/-- The transaction's block has come into the main chain between two states. -/
def HistoryTx.Entered (t : HistoryTx) (s s' : Node) : Prop :=
  s'.Finds t.wtx.hashBlock ∧ ¬ s.Finds t.wtx.hashBlock

/-! ## The blocks of a state in order -/

section

variable {P : Params} {q q' : PollState} {tip tip' : Uint256}

/-- No transaction of the wallet is in the genesis block. -/
theorem PollState.InOrder.not_genesis (h : q.InOrder P tip) {t : HistoryTx} (ht : t ∈ q.wallet.mapWallet) :
    t.wtx.hashBlock ≠ P.hashGenesisBlock := by
  intro heq
  obtain ⟨hcoinbase, hempty⟩ := h.genesisTx t ht heq
  rcases h.involves t ht with hmine | hfrom
  · obtain ⟨txout, hout, hmine⟩ := List.any_eq_true.mp hmine
    have hskipped : txout.isSkipped = true := by simp [CTxOut.isSkipped, hempty txout hout]
    rw [isMine_of_skipped hskipped] at hmine
    cases hmine
  · obtain ⟨hone, ⟨txin, hhead, hnull⟩, -⟩ := hcoinbase
    obtain ⟨txin', hvin⟩ := List.length_eq_one_iff.mp hone
    rw [hvin] at hhead
    obtain rfl : txin' = txin := by simpa using hhead
    have hnone : q.wallet.books.getDebitIn txin' = 0 := by
      have hhash : txin'.prevout.hash = 0 := by
        rw [hnull]
        rfl
      have hspends : q.wallet.books.spends txin' = none := by
        rw [WalletBooks.spends, hhash, h.null]
        rfl
      rw [WalletBooks.getDebitIn, hspends]
    rw [WalletBooks.getDebit, hvin] at hfrom
    simp [hnone] at hfrom

/-- The genesis block has nothing before it. -/
theorem MainTo.chain_genesis {s : Node} (h : MainTo P s tip) :
    s.mapBlockIndex.chain P.hashGenesisBlock = [P.hashGenesisBlock] := by
  obtain ⟨r, hr, hroot⟩ := exists_root_mem_chain (F := s.mapBlockIndex.forest) tip
  obtain ⟨b, hb⟩ := Option.ne_none_iff_exists'.mp (BlockTree.has_of_mem_chain h.has hr)
  have hprev : b.pprev = none := by rwa [BlockTree.parent_eq hb] at hroot
  rw [← h.root r b hb hprev]
  exact Forest.chain_of_root hroot

/-- Of two blocks of the main chain, one that is not before the other is above it. -/
theorem heightOf_lt_of_notMem {s : Node} {found x : Uint256} (hfound : found ∈ s.mapBlockIndex.chain tip)
    (hx : x ∈ s.mapBlockIndex.chain tip) (hnot : x ∉ s.mapBlockIndex.chain found) :
    s.heightOf found < s.heightOf x := by
  by_contra hle
  exact hnot (Forest.mem_chain_of_rank_le hfound hx (Nat.not_lt.mp hle))

theorem heightOf_grows {s s' : Node} (hgrows : s.mapBlockIndex.Grows s'.mapBlockIndex) {x : Uint256}
    (hx : s.mapBlockIndex.Has x) : s'.heightOf x = s.heightOf x := by
  obtain ⟨b, hb⟩ := Option.ne_none_iff_exists'.mp hx
  obtain ⟨b', hb', hcore⟩ := hgrows x b hb
  rw [Node.heightOf, Node.heightOf, BlockTree.rank_eq hb, BlockTree.rank_eq hb', BlockTree.core_nHeight hcore]

/-! ## Where a call begins -/

/-- **The block that is passed on**: it is on the chain to the tip, with as
many confirmations as asked for, or there is no such block. -/
theorem lastBlock_spec (h : q.InOrder P tip) (k : Int) :
    (lastBlock q.node k ∈ q.node.mapBlockIndex.chain tip ∧
        (q.node.heightOf (lastBlock q.node k) : Int) ≤ q.node.heightOf tip + 1 - k) ∨ lastBlock q.node k = 0 := by
  by_cases hone : k = 1
  · refine .inl ⟨?_, ?_⟩
    · rw [lastBlock, if_pos hone, h.hashBestChain]
      exact Forest.self_mem_chain _
    · rw [lastBlock, if_pos hone, h.hashBestChain]
      omega
  · obtain ⟨best, hbest⟩ := Option.ne_none_iff_exists'.mp h.main.has
    have hheight : ((q.node.best.map CBlockIndex.nHeight).getD 0 : Int) = q.node.heightOf tip := by
      rw [Node.best, h.main.best, Node.heightOf, BlockTree.rank_eq hbest]
      simp [hbest]
    rw [lastBlock, if_neg hone, hheight, h.main.best]
    simp only [Option.map_some, Option.getD_some]
    cases hfind : (q.node.mapBlockIndex.branch tip).find? fun block =>
        !decide ((q.node.heightOf tip : Int) + 1 - k < block.nHeight) with
    | none => exact .inr rfl
    | some block =>
      have hlow := List.find?_some hfind
      obtain ⟨x, hx, hblock⟩ := List.mem_filterMap.mp (List.mem_of_find?_eq_some hfind)
      simp only [Bool.not_eq_true', decide_eq_false_iff_not, not_lt] at hlow
      rw [Option.map_some, Option.getD_some, BlockTree.find_hash hblock]
      refine .inl ⟨hx, ?_⟩
      rw [Node.heightOf, BlockTree.rank_eq hblock]
      exact hlow

/-- **Where the next call begins**: at a block of the main chain then and of the
main chain before, which had the confirmations asked for or is the genesis
block. -/
theorem exists_begin (h : q.InOrder P tip) (h' : q'.InOrder P tip')
    (hgrows : q.node.mapBlockIndex.Grows q'.node.mapBlockIndex) (k : Int) :
    ∃ found, q'.node.getBlockIndex (CBlockLocator.ofHash P q'.node.mapBlockIndex (lastBlock q.node k)) = some found ∧
      found ∈ q'.node.mapBlockIndex.chain tip' ∧ found ∈ q'.node.mapBlockIndex.chain tip ∧
      ((q'.node.heightOf found : Int) ≤ q'.node.heightOf tip + 1 - k ∨ found = P.hashGenesisBlock) := by
  have hhas := hgrows.has h.main.has
  have hchain := hgrows.chain_eq h.main.has
  rcases lastBlock_spec h k with ⟨hmem, hheight⟩ | hzero
  · have hlast := hgrows.has (BlockTree.has_of_mem_chain h.main.has hmem)
    obtain ⟨found, -, hfound, hmain, hbefore⟩ := exists_found h'.main hlast
    have hmem' : lastBlock q.node k ∈ q'.node.mapBlockIndex.chain tip := by rwa [hchain]
    refine ⟨found, ?_, hmain, Forest.mem_chain_trans hmem' hbefore, .inl ?_⟩
    · rw [CBlockLocator.ofHash, if_pos hlast, hfound]
    · have hle : q'.node.heightOf found ≤ q'.node.heightOf (lastBlock q.node k) := Forest.rank_le hbefore
      rw [heightOf_grows hgrows (BlockTree.has_of_mem_chain h.main.has hmem)] at hle
      rw [heightOf_grows hgrows h.main.has]
      omega
  · refine ⟨P.hashGenesisBlock, ?_, h'.main.genesis_mem h'.main.has, h'.main.genesis_mem hhas, .inr rfl⟩
    rw [hzero, CBlockLocator.ofHash, if_neg h'.zero]
    exact h'.genesis

/-! ## What is listed -/

/-- A transaction is in a block of the main chain, and its branch says so. -/
structure Confirmed (P : Params) (s : Node) (wtx : CWalletTx) (b : CBlockIndex) : Prop where
  seen : ¬ (wtx.hashBlock = 0 ∨ wtx.nIndex = -1)
  find : s.mapBlockIndex.find wtx.hashBlock = some b
  main : s.isInMainChain wtx.hashBlock
  branch : checkMerkleBranch P (wtx.tx.getHash P) wtx.vMerkleBranch wtx.nIndex = b.hashMerkleRoot

theorem exists_confirmed {s : Node} {wtx : CWalletTx} (h : 1 ≤ wtx.getDepthInMainChain P s) :
    ∃ b, Confirmed P s wtx b := by
  have hinternal : wtx.depthInternal P s ≠ 0 := by
    intro hzero
    rw [CWalletTx.getDepthInMainChain, hzero] at h
    split at h <;> omega
  unfold CWalletTx.depthInternal at hinternal
  split at hinternal
  · exact absurd rfl hinternal
  next hseen =>
    split at hinternal
    · exact absurd rfl hinternal
    next b hfind =>
      split at hinternal
      · exact absurd rfl hinternal
      next hmain =>
        split at hinternal
        · exact absurd rfl hinternal
        next hbranch => exact ⟨b, hseen, hfind, not_not.mp hmain, not_not.mp hbranch⟩

/-- The depth of such a transaction, counted from the tip. -/
theorem Confirmed.depth_eq (h : q.InOrder P tip) {wtx : CWalletTx} {b : CBlockIndex}
    (hc : Confirmed P q.node wtx b) : 1 ≤ wtx.getDepthInMainChain P q.node ∧
      wtx.getDepthInMainChain P q.node = q.node.heightOf tip - q.node.heightOf wtx.hashBlock + 1 := by
  obtain ⟨best, hbest⟩ := Option.ne_none_iff_exists'.mp h.main.has
  have hheight : ((q.node.best.map CBlockIndex.nHeight).getD 0 : Int) = q.node.heightOf tip := by
    rw [Node.best, h.main.best, Node.heightOf, BlockTree.rank_eq hbest]
    simp [hbest]
  have hinternal : wtx.depthInternal P q.node = q.node.heightOf tip - q.node.heightOf wtx.hashBlock + 1 := by
    simp only [CWalletTx.depthInternal, if_neg hc.seen, hc.find, hheight]
    rw [if_neg (not_not.mpr hc.main), if_neg (not_not.mpr hc.branch), Node.heightOf, Node.heightOf,
      BlockTree.rank_eq hc.find]
  have hmem := (h.main.finds_iff.mp ⟨BlockTree.has_of_find hc.find, hc.main⟩).2
  have hle : q.node.heightOf wtx.hashBlock ≤ q.node.heightOf tip := Forest.rank_le hmem
  have hdepth : wtx.getDepthInMainChain P q.node = wtx.depthInternal P q.node := by
    rw [CWalletTx.getDepthInMainChain, if_neg]
    rintro ⟨hzero, -⟩
    omega
  rw [hdepth, hinternal]
  exact ⟨by omega, rfl⟩

/-- The depth that the call compares with, and that it is one. -/
theorem sinceDepth_found (h : q.InOrder P tip) {found : Uint256} (hfound : found ∈ q.node.mapBlockIndex.chain tip) :
    sinceDepth q.node (some found) = 1 + q.node.heightOf tip - q.node.heightOf found ∧
      1 ≤ sinceDepth q.node (some found) := by
  have heq : sinceDepth q.node (some found) = 1 + q.node.heightOf tip - q.node.heightOf found := by
    rw [sinceDepth, h.nBestHeight]
    rfl
  have hle : q.node.heightOf found ≤ q.node.heightOf tip := Forest.rank_le hfound
  refine ⟨heq, ?_⟩
  omega

/-- **What came in, or was not deep enough, is not as deep as the call
looks.** -/
theorem depth_lt (h : q.InOrder P tip) (h' : q'.InOrder P tip')
    (hgrows : q.node.mapBlockIndex.Grows q'.node.mapBlockIndex) {k : Int} {t : HistoryTx}
    (ht : t ∈ q'.wallet.mapWallet)
    (hnew : t.Entered q.node q'.node ∨ t.wtx.getDepthInMainChain P q.node < k) {found : Uint256}
    (hmain : found ∈ q'.node.mapBlockIndex.chain tip') (hbefore : found ∈ q'.node.mapBlockIndex.chain tip)
    (hlow : (q'.node.heightOf found : Int) ≤ q'.node.heightOf tip + 1 - k ∨ found = P.hashGenesisBlock) :
    t.wtx.getDepthInMainChain P q'.node < sinceDepth q'.node (some found) := by
  obtain ⟨hdepth, hone⟩ := sinceDepth_found h' hmain
  by_cases hdeep : 1 ≤ t.wtx.getDepthInMainChain P q'.node
  · obtain ⟨b', hc'⟩ := exists_confirmed hdeep
    have hfinds' : q'.node.Finds t.wtx.hashBlock := ⟨BlockTree.has_of_find hc'.find, hc'.main⟩
    have hmem' := (h'.main.finds_iff.mp hfinds').2
    -- it remains that the block is above where the call begins
    suffices hlt : q'.node.heightOf found < q'.node.heightOf t.wtx.hashBlock by
      rw [hdepth, (hc'.depth_eq h').2]
      omega
    have hchain := hgrows.chain_eq h.main.has
    by_cases hold : t.wtx.hashBlock ∈ q'.node.mapBlockIndex.chain tip
    · have hhas : q.node.mapBlockIndex.Has t.wtx.hashBlock :=
        BlockTree.has_of_mem_chain h.main.has (hchain ▸ hold)
      have hfinds : q.node.Finds t.wtx.hashBlock := h.main.finds_iff.mpr ⟨hhas, hchain ▸ hold⟩
      have hfew : t.wtx.getDepthInMainChain P q.node < k := by
        rcases hnew with hentered | hfew
        · exact absurd hfinds hentered.2
        · exact hfew
      obtain ⟨b, hb⟩ := Option.ne_none_iff_exists'.mp hhas
      obtain ⟨b'', hb'', hcore⟩ := hgrows _ b hb
      obtain rfl : b'' = b' := Option.some.inj (hb''.symm.trans hc'.find)
      have hroot : b''.hashMerkleRoot = b.hashMerkleRoot := (congrArg CBlockIndex.hashMerkleRoot hcore :)
      have hc : Confirmed P q.node t.wtx b := ⟨hc'.seen, hb, hfinds.2, hc'.branch.trans hroot⟩
      have hbefore' := (hc.depth_eq h).2
      rcases hlow with hlow | rfl
      · have htip := heightOf_grows hgrows h.main.has
        have hblock := heightOf_grows hgrows hhas
        omega
      · refine heightOf_lt_of_notMem hmain hmem' ?_
        rw [h'.main.chain_genesis, List.mem_singleton]
        exact h'.not_genesis ht
    · exact heightOf_lt_of_notMem hmain hmem' fun hmem => hold (Forest.mem_chain_trans hbefore hmem)
  · omega

/-! ## A series of calls -/

theorem listsinceblock_ok {k : Int} (hk : 1 ≤ k) (q : PollState) (blockhash : Option Uint256) :
    ∃ r, listsinceblock P q blockhash (some k) = .ok r ∧ r.lastblock = lastBlock q.node k ∧
      ∀ pindex, blockhash.bind (fun blockId =>
          q.node.getBlockIndex (CBlockLocator.ofHash P q.node.mapBlockIndex blockId)) = some pindex → ∀ t ∈ q.wallet.mapWallet,
          t.wtx.getDepthInMainChain P q.node < sinceDepth q.node (some pindex) → t ∈ r.listed := by
  refine ⟨_, if_neg (by simpa using hk), rfl, fun pindex hpindex t ht hdepth => ?_⟩
  rw [hpindex]
  exact List.mem_filter.mpr ⟨ht, decide_eq_true (.inr hdepth)⟩

/-- Every call of a series returns, and says where to go on. -/
theorem poll_ok {k : Int} (hk : 1 ≤ k) (states : Nat → PollState) (first : Option Uint256) (i : Nat) :
    ∃ r, poll P k states first i = .ok r ∧ r.lastblock = lastBlock (states i).node k := by
  induction i with
  | zero =>
    obtain ⟨r, hr, hlast, -⟩ := listsinceblock_ok (P := P) hk (states 0) first
    exact ⟨r, hr, hlast⟩
  | succ i ih =>
    obtain ⟨r, hr, -⟩ := ih
    obtain ⟨r', hr', hlast', -⟩ := listsinceblock_ok (P := P) hk (states (i + 1)) (some r.lastblock)
    refine ⟨r', ?_, hlast'⟩
    rw [poll, hr]
    exact hr'

/-- **Polling misses nothing.** Whatever the main chain does between two calls,
the later one lists every transaction of the wallet that came into the main
chain since the earlier one, or had fewer confirmations then than asked for. -/
theorem poll_lists {k : Int} (hk : 1 ≤ k) (states : Nat → PollState) (tips : Nat → Uint256) (first : Option Uint256)
    (horder : ∀ i, (states i).InOrder P (tips i))
    (hgrows : ∀ i, (states i).node.mapBlockIndex.Grows (states (i + 1)).node.mapBlockIndex) (i : Nat) :
    ∃ r, poll P k states first (i + 1) = .ok r ∧ ∀ t ∈ (states (i + 1)).wallet.mapWallet,
      t.Entered (states i).node (states (i + 1)).node ∨ t.wtx.getDepthInMainChain P (states i).node < k →
        t ∈ r.listed := by
  obtain ⟨r, hr, hlast⟩ := poll_ok (P := P) hk states first i
  obtain ⟨r', hr', -, hlists⟩ := listsinceblock_ok (P := P) hk (states (i + 1)) (some r.lastblock)
  obtain ⟨found, hfound, hmain, hbefore, hlow⟩ := exists_begin (horder i) (horder (i + 1)) (hgrows i) k
  refine ⟨r', ?_, fun t ht hnew => ?_⟩
  · rw [poll, hr]
    exact hr'
  · rw [← hlast] at hfound
    exact hlists found hfound t ht (depth_lt (horder i) (horder (i + 1)) (hgrows i) ht hnew hmain hbefore hlow)

end

namespace Sample

/-- The node at the first of two blocks on the genesis block, and a wallet with
a transaction that is in no block. -/
def pollState : PollState where
  node := { forkNode with
    hashBestChain := 6
    nBestHeight := 1
    pindexGenesisBlock := some hashGenesisBlockTestNet }
  wallet := ⟨stakeBooks 100, [⟨.ofTx stakedTx, "", 0⟩], []⟩

theorem pollState_inOrder : pollState.InOrder (params true) 6 where
  main := ⟨mainTo_forkNode.best, mainTo_forkNode.has, mainTo_forkNode.marks, mainTo_forkNode.root⟩
  hashBestChain := rfl
  nBestHeight := by decide +kernel
  genesis := rfl
  zero := by decide +kernel
  null := by decide +kernel
  involves t ht := by
    rw [List.mem_singleton.mp ht]
    exact .inl (by decide +kernel)
  genesisTx t ht hgenesis := by
    rw [List.mem_singleton.mp ht] at hgenesis
    exact absurd hgenesis (by decide)

end Sample

/-- With a state that stays. -/
theorem poll_lists_sample : ∃ r, poll (Sample.params true) 3 (fun _ => Sample.pollState) none (0 + 1) = .ok r ∧
    ∀ t ∈ Sample.pollState.wallet.mapWallet, t.Entered Sample.pollState.node Sample.pollState.node ∨
      t.wtx.getDepthInMainChain (Sample.params true) Sample.pollState.node < 3 → t ∈ r.listed :=
  poll_lists (by decide) (fun _ => Sample.pollState) (fun _ => 6) none (fun _ => Sample.pollState_inOrder)
    (fun _ => .refl) 0

end Pinkcoin
