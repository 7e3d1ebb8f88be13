/-
How much a block adds to the money supply. A connected block adds what its
coinbase pays out, less the fees of its ordinary transactions, plus what its
transactions of the shape of a coinstake pay out beyond what they spend. Of
a proof-of-stake block the last part is one coinstake, whose gain is
checked; of a proof-of-work block nothing checks it.
-/
import Pinkcoin.RoundTrip

namespace Pinkcoin

open StateError

/-! ## What a transaction spends -/

/-- The transaction of that hash which a later transaction of the block
spends from: one of those before it, or the one the index has. -/
def prevTx (P : Params) (env : Env) (s : Node) (pre : List CTransaction) (hash : Uint256) : Option CTransaction :=
  (pre.find? fun tx => tx.getHash P = hash).or
    ((s.txdb.readTxIndex hash).bind fun txindex => s.txAt env hash txindex.pos)

/-- The value of the outputs a transaction spends, after the transactions `pre`. -/
def spentBy (P : Params) (env : Env) (s : Node) (pre : List CTransaction) (tx : CTransaction) : Int :=
  if tx.isCoinBase then 0
  else (tx.vin.map fun txin =>
    (((prevTx P env s pre txin.prevout.hash).bind fun prev => prev.vout[txin.prevout.n]?).map CTxOut.nValue).getD 0).sum

/-- A sum over a list of transactions, each taken with those before it. -/
def sumWithPrev (f : List CTransaction → CTransaction → Int) : List CTransaction → List CTransaction → Int
  | _, [] => 0
  | pre, tx :: vtx => f pre tx + sumWithPrev f (pre ++ [tx]) vtx

/-- What the transactions of the shape of a coinstake pay out beyond what
they spend. -/
def stakeGain (P : Params) (env : Env) (s : Node) : List CTransaction → List CTransaction → Int :=
  sumWithPrev fun pre tx => if tx.isCoinStake then tx.getValueOut - spentBy P env s pre tx else 0

/-- The fees of the ordinary transactions. -/
def ordinaryFees (P : Params) (env : Env) (s : Node) : List CTransaction → List CTransaction → Int :=
  sumWithPrev fun pre tx => if tx.isCoinBase ∨ tx.isCoinStake then 0 else spentBy P env s pre tx - tx.getValueOut

/-- What the coinbase transactions pay out. -/
def coinbaseOut : List CTransaction → Int
  | [] => 0
  | tx :: vtx => (if tx.isCoinBase then tx.getValueOut else 0) + coinbaseOut vtx

theorem coinbaseOut_of_none {vtx : List CTransaction} (h : ∀ tx ∈ vtx, ¬ tx.isCoinBase) : coinbaseOut vtx = 0 := by
  induction vtx with
  | nil => rfl
  | cons tx vtx ih => rw [coinbaseOut, if_neg (h tx (by simp)), ih fun u hu => h u (by simp [hu]), add_zero]

theorem stakeGain_of_none {P : Params} {env : Env} {s : Node} (pre : List CTransaction) {vtx : List CTransaction}
    (h : ∀ tx ∈ vtx, ¬ tx.isCoinStake) : stakeGain P env s pre vtx = 0 := by
  induction vtx generalizing pre with
  | nil => rfl
  | cons tx vtx ih =>
    have := ih (pre ++ [tx]) fun u hu => h u (by simp [hu])
    simp only [stakeGain] at this ⊢
    rw [sumWithPrev, if_neg (h tx (by simp)), this, add_zero]

namespace CBlock

variable {P : Params} {env : Env} {s : Node} {pindex : CBlockIndex}

/-- The previous transactions that `FetchInputs` returns are those a reader of
the block would take. The block has to be on disk where its record says. -/
theorem Turn.prevTx {block : CBlock} (pre : List CTransaction) {post : List CTransaction} {tx : CTransaction} {inputs : MapPrevTx}
    {acc acc' : ConnectAcc} (turn : Turn P env s pindex acc tx inputs acc')
    (hdisk : s.disk.block pindex.nFile pindex.nBlockPos = some block) (hv : block.vtx = pre ++ tx :: post)
    (hnd : (block.vtx.map (CTransaction.getHash P)).Nodup)
    (hbook : s.txdb.queuedBook acc.mapQueuedChanges = Ledger.connectAll s.txdb.book
      (Pinkcoin.ledgerTxs P pindex.nFile pindex.nBlockPos pre (pindex.nBlockPos + block.firstTxOffset)))
    {hash : Uint256} {prev : CTxIndex × CTransaction} (hl : inputs.lookup hash = some prev) :
    Pinkcoin.prevTx P env s pre hash = some prev.2 := by
  obtain ⟨hidx, hat⟩ := CTransaction.fetchPrev_ok.mp (turn.fetched hash prev hl)
  have hentry : Ledger.connectAll s.txdb.book
      (Pinkcoin.ledgerTxs P pindex.nFile pindex.nBlockPos pre (pindex.nBlockPos + block.firstTxOffset)) hash =
      some prev.1.entry := by
    rw [← hbook, CTxDB.queuedBook, hidx]
    rfl
  rcases Ledger.shape_connectAll hentry with ⟨t, ht, hid, hshape⟩ | ⟨hnone, e₀, he₀, hshape⟩
  · -- an earlier transaction of the block, read from its position on disk
    obtain ⟨a, u, b, rfl, rfl⟩ := mem_ledgerTxs ht
    obtain rfl : u.getHash P = hash := hid
    have hpos : prev.1.pos = some ⟨pindex.nFile, pindex.nBlockPos, pindex.nBlockPos + block.firstTxOffset
        + (a.map CTransaction.getSerializeSize).sum⟩ := congrArg Prod.fst hshape
    have hne : pindex.nBlockPos + block.firstTxOffset + (a.map CTransaction.getSerializeSize).sum ≠ 1 := by
      unfold firstTxOffset headerSize
      omega
    rw [Node.txAt, hpos, if_neg (by simp [hne])] at hat
    have htx := BlockFiles.tx_of_block hdisk (hv.trans (List.append_assoc a (u :: b) (tx :: post)))
    simp only [Node.readTx, Option.bind_some, htx] at hat
    have hu : u = prev.2 := by
      split at hat
      · exact Option.some.inj hat
      · simp at hat
    have ha : ∀ w ∈ a, ¬ decide (w.getHash P = u.getHash P) = true := by
      intro w hw
      rw [hv, List.append_assoc, List.map_append, List.nodup_append] at hnd
      simpa using hnd.2.2 _ (List.mem_map_of_mem hw) _ (List.mem_map_of_mem (by simp))
    rw [← hu, Pinkcoin.prevTx, List.find?_append, List.find?_eq_none.mpr ha]
    simp
  · -- a transaction of the index, whose position has not changed
    have hfind : (pre.find? fun tx => decide (tx.getHash P = hash)) = none := by
      refine List.find?_eq_none.mpr fun w hw => ?_
      have : w.getHash P ∈ (Pinkcoin.ledgerTxs P pindex.nFile pindex.nBlockPos pre
          (pindex.nBlockPos + block.firstTxOffset)).map Ledger.Tx.id := by
        rw [ledgerTxs_ids]
        exact List.mem_map_of_mem hw
      obtain ⟨t, ht, hid⟩ := List.mem_map.mp this
      simpa [← hid] using hnone t ht
    obtain ⟨e, he, rfl⟩ := Option.map_eq_some_iff.mp he₀
    have hpos : prev.1.pos = e.pos := congrArg Prod.fst hshape
    rw [Pinkcoin.prevTx, hfind, he, Option.none_or, Option.bind_some, ← hpos, hat]

/-- The value of the inputs is what the transaction spends. -/
theorem Turn.getValueIn {block : CBlock} (pre : List CTransaction) {post : List CTransaction} {tx : CTransaction} {inputs : MapPrevTx}
    {acc acc' : ConnectAcc} (turn : Turn P env s pindex acc tx inputs acc')
    (hdisk : s.disk.block pindex.nFile pindex.nBlockPos = some block) (hv : block.vtx = pre ++ tx :: post)
    (hnd : (block.vtx.map (CTransaction.getHash P)).Nodup)
    (hbook : s.txdb.queuedBook acc.mapQueuedChanges = Ledger.connectAll s.txdb.book
      (Pinkcoin.ledgerTxs P pindex.nFile pindex.nBlockPos pre (pindex.nBlockPos + block.firstTxOffset))) :
    tx.getValueIn inputs = spentBy P env s pre tx := by
  unfold CTransaction.getValueIn spentBy
  split
  next => rfl
  next hcb =>
    congr 1
    refine List.map_congr_left fun txin htx => ?_
    obtain ⟨prev, hprev, -, -⟩ := turn.inRange hcb txin htx
    simp only [CTransaction.valueFor, CTransaction.getOutputFor, Option.mem_def.mp hprev, Option.bind_some,
      turn.prevTx pre hdisk hv hnd hbook hprev]

/-! ## The sums of a block -/

/-- What the loop has added up when it ends. -/
theorem Turns.totals {block : CBlock} (hdisk : s.disk.block pindex.nFile pindex.nBlockPos = some block)
    (hnd : (block.vtx.map (CTransaction.getHash P)).Nodup) (pre : List CTransaction) {vtx : List CTransaction}
    {acc acc' : ConnectAcc} (h : Turns P env s pindex acc vtx acc') (hv : block.vtx = pre ++ vtx)
    (hpos : acc.nTxPos = pindex.nBlockPos + block.firstTxOffset + (pre.map CTransaction.getSerializeSize).sum)
    (hbook : s.txdb.queuedBook acc.mapQueuedChanges = Ledger.connectAll s.txdb.book
      (Pinkcoin.ledgerTxs P pindex.nFile pindex.nBlockPos pre (pindex.nBlockPos + block.firstTxOffset))) :
    acc'.nFees = acc.nFees + ordinaryFees P env s pre vtx ∧
      acc'.nValueOut - acc'.nValueIn = acc.nValueOut - acc.nValueIn + coinbaseOut vtx
        - ordinaryFees P env s pre vtx + stakeGain P env s pre vtx := by
  induction h generalizing pre with
  | nil acc => simp [ordinaryFees, stakeGain, sumWithPrev, coinbaseOut]
  | cons turn rest ih =>
    rename_i acc acc' acc'' tx vtx inputs
    have hin := turn.getValueIn pre hdisk hv hnd hbook
    obtain ⟨hfees, hvalues⟩ := ih (pre ++ [tx]) (by rw [hv, List.append_assoc]; rfl)
      (by rw [turn.nTxPos, hpos, List.map_append, List.sum_append]; simp [Nat.add_assoc])
      (by rw [turn.book, hbook, hpos, ledgerTxs_append, Ledger.connectAll_append]; rfl)
    have hf := turn.nFees
    have hvi := turn.nValueIn
    have hvo := turn.nValueOut
    rw [hin] at hf hvi
    simp only [ordinaryFees, stakeGain] at hfees hvalues ⊢
    simp only [sumWithPrev, coinbaseOut]
    by_cases hcb : tx.isCoinBase
    · have hcs := not_coinStake_of_coinBase hcb
      have hzero : spentBy P env s pre tx = 0 := if_pos hcb
      simp only [hcb, hcs, true_or, if_true, if_false] at hf ⊢
      constructor <;> omega
    · by_cases hcs : tx.isCoinStake
      · simp only [hcb, hcs, or_true, if_true, if_false] at hf ⊢
        constructor <;> omega
      · simp only [hcb, hcs, or_false, if_false] at hf ⊢
        constructor <;> omega

/-- The last coinstake's gain is what the loop leaves in `nStakeReward`. -/
theorem Turns.nStakeReward_of_none {vtx : List CTransaction} {acc acc' : ConnectAcc}
    (h : Turns P env s pindex acc vtx acc') (hnone : ∀ tx ∈ vtx, ¬ tx.isCoinStake) :
    acc'.nStakeReward = acc.nStakeReward := by
  induction h with
  | nil acc => rfl
  | cons turn rest ih =>
    rename_i tx vtx inputs
    rw [ih fun u hu => hnone u (by simp [hu]), turn.nStakeReward, if_neg (hnone tx (by simp))]

/-- The shape of a proof-of-stake block: an empty coinbase, one coinstake, and
ordinary transactions. -/
theorem WellFormed.stakeShape {block : CBlock} {fCheckSig : Bool} (h : block.WellFormed P env fCheckSig)
    (hpos : block.isProofOfStake) : ∃ coinbase coinstake vtx, block.vtx = coinbase :: coinstake :: vtx ∧
      coinbase.isCoinBase ∧ coinbase.getValueOut = 0 ∧ coinstake.isCoinStake ∧
      (∀ tx ∈ coinstake :: vtx, ¬ tx.isCoinBase) ∧ ∀ tx ∈ vtx, ¬ tx.isCoinStake := by
  have hs := h.stake hpos
  simp only [checkStake, except_bind_ok, except_rejectIf_ok, not_not, exists_const] at hs
  obtain ⟨⟨cb, hcb, hlen, o, ho, hempty⟩, ⟨cs, hcs, hstake⟩, hone, -⟩ := hs
  obtain ⟨cb', hcb', hbase⟩ := h.coinbase
  obtain rfl : cb = cb' := Option.some.inj (hcb.symm.trans hcb')
  rcases hvtx : block.vtx with _ | ⟨a, _ | ⟨b, vtx⟩⟩
  · simp [hvtx] at hcb
  · simp [hvtx] at hcs
  · simp only [hvtx, List.head?_cons, Option.mem_some_iff, List.getElem?_cons_succ, List.getElem?_cons_zero,
      List.drop_succ_cons, List.drop_zero] at hcb hcs hone
    subst hcb hcs
    refine ⟨a, b, vtx, rfl, hbase, ?_, hstake, ?_, fun tx htx hn => hone ⟨tx, htx, hn⟩⟩
    · rcases hvout : a.vout with _ | ⟨o', _ | ⟨_, _⟩⟩
      · simp [hvout] at hlen
      · simp only [hvout, List.head?_cons, Option.mem_some_iff] at ho
        simp [CTransaction.getValueOut, hvout, ho, hempty.1]
      · simp [hvout] at hlen
    · have := h.noOtherCoinbase
      rwa [hvtx, List.tail_cons] at this

/-! ## The bound -/

/-- The subsidy of a block, as `ConnectBlock` computes it: the reward without fees. -/
def subsidy (env : Env) (s : Node) (pindex : CBlockIndex) (block : CBlock) : Int :=
  if block.isProofOfStake then
    getProofOfStakeReward s.fDisablePOW ((block.vtx[1]?.bind (getCoinAge env s)).getD 0) 0 pindex.nHeight pindex.nTime
  else getProofOfWorkReward pindex.nHeight 0

/-- The transactions of the shape of a coinstake do no harm: the block is
proof-of-stake, or it has none of them, or what they pay out beyond what they
spend stays within the part of subsidy and fees that the coinbase leaves. -/
def StakesCovered (P : Params) (env : Env) (s : Node) (pindex : CBlockIndex) (block : CBlock) : Prop :=
  block.isProofOfStake ∨ (∀ tx ∈ block.vtx, ¬ tx.isCoinStake) ∨
    stakeGain P env s [] block.vtx ≤
      getProofOfWorkReward pindex.nHeight (ordinaryFees P env s [] block.vtx) - coinbaseOut block.vtx

instance (P : Params) (env : Env) (s : Node) (pindex : CBlockIndex) (block : CBlock) :
    Decidable (StakesCovered P env s pindex block) :=
  inferInstanceAs (Decidable (_ ∨ _ ∨ _))

/-- What `ConnectBlock` has added up for the block. -/
theorem Checked.totals {block : CBlock} {acc : ConnectAcc} (h : Checked P env s pindex block acc)
    (hdisk : s.disk.block pindex.nFile pindex.nBlockPos = some block) :
    acc.nFees = ordinaryFees P env s [] block.vtx ∧
      acc.nValueOut - acc.nValueIn =
        coinbaseOut block.vtx - ordinaryFees P env s [] block.vtx + stakeGain P env s [] block.vtx := by
  have := Turns.totals hdisk h.wellFormed.distinct [] h.turns rfl (by simp [acc₀])
    (by rw [acc₀, queuedBook_empty]; rfl)
  simpa [acc₀] using this

theorem getProofOfWorkReward_fees (nHeight : Nat) (nFees : Int) :
    getProofOfWorkReward nHeight nFees = getProofOfWorkReward nHeight 0 + nFees := by
  simp [getProofOfWorkReward]

theorem getProofOfStakeReward_fees (fDisablePOW : Bool) (nCoinAge nCoinAge' : Nat) (nFees : Int) (nHeight nTime : Nat) :
    getProofOfStakeReward fDisablePOW nCoinAge nFees nHeight nTime =
      getProofOfStakeReward fDisablePOW nCoinAge' 0 nHeight nTime + nFees := by
  simp [getProofOfStakeReward]

/-- A proof-of-stake block adds at most its subsidy. -/
theorem Checked.stake_bound {block : CBlock} {acc : ConnectAcc} (h : Checked P env s pindex block acc)
    (hdisk : s.disk.block pindex.nFile pindex.nBlockPos = some block) (hpos : block.isProofOfStake) :
    acc.nValueOut - acc.nValueIn ≤ block.subsidy env s pindex := by
  obtain ⟨cb, cs, vtx, hv, hbase, hzero, hstake, hother, hnone⟩ := h.wellFormed.stakeShape hpos
  obtain ⟨hfees, hvalues⟩ := h.totals hdisk
  have hout : coinbaseOut block.vtx = 0 := by
    rw [hv, coinbaseOut, if_pos hbase, hzero, coinbaseOut_of_none hother, add_zero]
  -- the gain is that of the second transaction, which is also the reward that is checked
  have hgain : stakeGain P env s [] block.vtx = acc.nStakeReward := by
    have hturns := h.turns
    rw [hv] at hturns
    cases hturns with
    | cons turn₁ rest₁ =>
      cases rest₁ with
      | cons turn₂ rest₂ =>
        have hin := turn₂.getValueIn [cb] hdisk hv h.wellFormed.distinct
          (by rw [turn₁.book, acc₀, queuedBook_empty]; rfl)
        have hrest : stakeGain P env s [cb, cs] vtx = 0 := stakeGain_of_none [cb, cs] hnone
        simp only [stakeGain] at hrest ⊢
        rw [rest₂.nStakeReward_of_none hnone, turn₂.nStakeReward, if_pos hstake, hin, hv]
        simp only [sumWithPrev, not_coinStake_of_coinBase hbase, hstake, if_true, if_false, List.nil_append,
          List.cons_append, hrest, zero_add, add_zero]
  have hreward := h.reward
  simp only [checkReward, isProofOfWork, hpos, not_true, if_false] at hreward
  cases hage : block.vtx[1]?.bind (getCoinAge env s) with
  | none => simp [hage] at hreward
  | some nCoinAge =>
    simp only [hage, except_rejectIf_ok, not_lt] at hreward
    rw [getProofOfStakeReward_fees _ nCoinAge nCoinAge, hfees] at hreward
    simp only [subsidy, hpos, if_true, hage, Option.getD_some]
    omega

/-- A proof-of-work block adds at most its subsidy when the gain of its
coinstakes is covered, and only then. -/
theorem Checked.work_bound_iff {block : CBlock} {acc : ConnectAcc} (h : Checked P env s pindex block acc)
    (hdisk : s.disk.block pindex.nFile pindex.nBlockPos = some block) (hpow : ¬ block.isProofOfStake) :
    acc.nValueOut - acc.nValueIn ≤ block.subsidy env s pindex ↔ block.StakesCovered P env s pindex := by
  obtain ⟨hfees, hvalues⟩ := h.totals hdisk
  have hsub : block.subsidy env s pindex = getProofOfWorkReward pindex.nHeight 0 := if_neg hpow
  have hfee := getProofOfWorkReward_fees pindex.nHeight (ordinaryFees P env s [] block.vtx)
  -- the coinbase keeps to subsidy and fees
  have hbase : coinbaseOut block.vtx ≤ getProofOfWorkReward pindex.nHeight (ordinaryFees P env s [] block.vtx) := by
    have hreward := h.reward
    simp only [checkReward, isProofOfWork, hpow, not_false_eq_true, if_true, except_rejectIf_ok] at hreward
    obtain ⟨cb, hcb, hcoin⟩ := h.wellFormed.coinbase
    have hother := h.wellFormed.noOtherCoinbase
    cases hv : block.vtx with
    | nil => simp [hv] at hcb
    | cons tx vtx =>
      rw [hv] at hcb hother hreward hfees
      rw [List.tail_cons] at hother
      obtain rfl : tx = cb := by simpa using hcb
      rw [coinbaseOut, if_pos hcoin, coinbaseOut_of_none hother, add_zero, ← hfees]
      simpa using hreward
  unfold StakesCovered
  constructor
  · intro hle
    exact .inr (.inr (by omega))
  · rintro (hpos | hnone | hle)
    · exact absurd hpos hpow
    · rw [stakeGain_of_none [] hnone] at hvalues
      omega
    · omega

/-- **When a block keeps to its subsidy.** A block that `ConnectBlock` accepts
adds at most its subsidy to the money supply if and only if the transactions
of the shape of a coinstake in it are covered. -/
theorem supply_growth_iff {block : CBlock} {pindex' : CBlockIndex} {s' : Node}
    (h : block.connectBlock P env pindex false s = .ok pindex' s')
    (hdisk : s.disk.block pindex.nFile pindex.nBlockPos = some block) :
    pindex'.nMoneySupply - ((pindex.pprev.bind s.mapBlockIndex.find).map CBlockIndex.nMoneySupply).getD 0
        ≤ block.subsidy env s pindex ↔ block.StakesCovered P env s pindex := by
  obtain ⟨acc, hchecked, rfl, -⟩ := connectBlock_ok h
  have hgrowth : (withSupply s pindex acc).nMoneySupply
      - ((pindex.pprev.bind s.mapBlockIndex.find).map CBlockIndex.nMoneySupply).getD 0 =
      acc.nValueOut - acc.nValueIn := by
    simp only [withSupply]
    omega
  rw [hgrowth]
  by_cases hpos : block.isProofOfStake
  · exact ⟨fun _ => .inl hpos, fun _ => hchecked.stake_bound hdisk hpos⟩
  · exact hchecked.work_bound_iff hdisk hpos

/-- The minting block of the sample chain is connected, and is not covered. -/
theorem supply_growth_iff_sample :
    let P := Sample.params true
    let s := { Sample.matured with disk := Sample.matured.disk.append Sample.mintingBlock }
    let pindex := { CBlockIndex.ofBlock Sample.matured.disk.nextFile Sample.matured.disk.nextPos Sample.mintingBlock with
      phashBlock := 112, pprev := some 111, nHeight := 12 }
    ∃ pindex' s', Sample.mintingBlock.connectBlock P Sample.env pindex false s = .ok pindex' s' ∧
      ¬ pindex'.nMoneySupply - ((pindex.pprev.bind s.mapBlockIndex.find).map CBlockIndex.nMoneySupply).getD 0
        ≤ Sample.mintingBlock.subsidy Sample.env s pindex := by
  intro P s pindex
  obtain ⟨pindex', s', h⟩ := exists_of_isOk (r := Sample.mintingBlock.connectBlock P Sample.env pindex false s)
    (by decide +kernel)
  have hdisk : s.disk.block pindex.nFile pindex.nBlockPos = some Sample.mintingBlock := by decide +kernel
  have hopen : ¬ Sample.mintingBlock.StakesCovered P Sample.env s pindex := by decide +kernel
  exact ⟨pindex', s', h, mt (supply_growth_iff h hdisk).mp hopen⟩

/-- The minting block passes `CheckBlock`, `AcceptBlock` and `ConnectBlock`, and
the supply grows by 999 coins at a height where the subsidy is nothing. -/
theorem mintingBlock_inflates :
    let P := Sample.params true
    Sample.mintingBlock.checkBlock P Sample.env true true true = .ok () ∧
      isOk (Sample.mintingBlock.acceptBlock P Sample.env Sample.matured) ∧
      ∃ pindex ∈ (Sample.after Sample.matured (Sample.mintingBlock.acceptBlock P Sample.env)).best,
        ∃ pprev ∈ pindex.pprev.bind Sample.matured.mapBlockIndex.find,
          pindex.phashBlock = Sample.mintingBlock.getHash P ∧ Sample.mintingBlock.isProofOfWork ∧
            getProofOfWorkReward pindex.nHeight 0 < pindex.nMoneySupply - pprev.nMoneySupply := by
  decide +kernel

end CBlock

end Pinkcoin
