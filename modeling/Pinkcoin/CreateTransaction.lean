/-
Making a transaction that pays: the payees' outputs, the coins for them, the
change, the signatures, and a fee that is raised until it covers the size.
-/
import Mathlib.Tactic.Ring
import Pinkcoin.Coins
import Pinkcoin.Lib.Rounds
import Pinkcoin.Stake.StakeOut
import Pinkcoin.WalletSpent

namespace Pinkcoin

open Rounds (Turn)

/-! ## The coins there are -/

/-- What is asked of a wallet transaction that the chain, the memory pool and
the clock decide. -/
structure CoinView where
  isFinal : CWalletTx → Bool
  isTrusted : CWalletTx → Bool
  getBlocksToMaturity : CWalletTx → Int
  getDepthInMainChain : CWalletTx → Int

/-- `CCoinControl`. No destination is a `CNoDestination`. -/
structure CCoinControl where
  destChange : Option CTxDestination
  fReturnChange : Bool
  setSelected : Finset COutPoint

namespace CCoinControl

def hasSelected (c : CCoinControl) : Bool := decide (c.setSelected ≠ ∅)
def isSelected (c : CCoinControl) (o : COutPoint) : Bool := decide (o ∈ c.setSelected)

end CCoinControl

namespace CWallet

variable (P : Params) (w : CWallet) (view : CoinView) (coinControl : Option CCoinControl)

/-- The condition on an output in `AvailableCoins`. -/
def isAvailable (hash : Uint256) (pcoin : CWalletTx) (txout : CTxOut) (i : Nat) : Bool :=
  decide (¬ pcoin.isSpent i ∧ w.isMine P txout ∧ P.nMinimumInputValue ≤ txout.nValue) &&
    coinControl.all fun c => !c.hasSelected || c.isSelected ⟨hash, i⟩

/-- The body of the loop of `AvailableCoins`. -/
def coinsOf (fOnlyConfirmed : Bool) (hash : Uint256) (pcoin : CWalletTx) : List COutput :=
  if ¬ view.isFinal pcoin then []
  else if fOnlyConfirmed ∧ ¬ view.isTrusted pcoin then []
  else if pcoin.tx.isCoinBase ∧ 0 < view.getBlocksToMaturity pcoin then []
  else if pcoin.tx.isCoinStake ∧ 0 < view.getBlocksToMaturity pcoin then []
  else
    let nDepth := view.getDepthInMainChain pcoin
    if nDepth < 0 then []
    else
      (pcoin.tx.vout.zipIdx.filter fun (txout, i) => w.isAvailable P coinControl hash pcoin txout i).map fun (_, i) =>
        ⟨hash, i, nDepth⟩

/-- `AvailableCoins`. -/
def availableCoins (fOnlyConfirmed : Bool) : List COutput :=
  w.mapWallet.entries.flatMap fun e => w.coinsOf P view coinControl fOnlyConfirmed e.1 e.2

/-- `SelectCoins`, with what chance decides in each of its three attempts. -/
def selectCoins (d : Nat → Draws) (nTargetValue : Int) (nSpendTime : Nat) : Bool × Selection :=
  let vCoins := w.availableCoins P view coinControl true
  if coinControl.any CCoinControl.hasSelected then
    let sel := (vCoins.map w.valued).foldl Selection.add .empty
    (decide (nTargetValue ≤ sel.nValue), sel)
  else
    let r := w.selectCoinsMinConf P (d 0) nTargetValue nSpendTime 1 10 vCoins
    if r.1 then r
    else
      let r := w.selectCoinsMinConf P (d 1) nTargetValue nSpendTime 1 1 vCoins
      if r.1 then r else w.selectCoinsMinConf P (d 2) nTargetValue nSpendTime 0 1 vCoins

/-- `pcoin->vout[i].scriptPubKey`. -/
def scriptAt (o : COutPoint) : CScript :=
  (((w.mapWallet.lookup o.hash).bind fun pcoin => pcoin.tx.vout[o.n]?).map CTxOut.scriptPubKey).getD []

/-- `CTxIn(coin.first->GetHash(), coin.second)`. -/
def inputOf (coin : COutPoint) : CTxIn :=
  ⟨⟨((w.mapWallet.lookup coin.hash).map fun pcoin => pcoin.tx.getHash P).getD 0, coin.n⟩, [], UINT_MAX⟩

end CWallet

/-! ## The outputs -/

/-- The loop that adds up the values, which ends where the sum so far is
negative. -/
def sumOfSend : List (CScript × Int) → Int → Option Int
  | [], nValue => some nValue
  | s :: vecSend, nValue => if nValue < 0 then none else sumOfSend vecSend (nValue + s.2)

/-- The outputs to one payee: its value in `n` parts, the remainder in the
last. -/
def splitOut (n : Nat) (s : CScript × Int) : List CTxOut :=
  (List.range n).map fun nCount =>
    if nCount = n - 1 then ⟨s.2.tdiv n + s.2.tmod n, s.1⟩ else ⟨s.2.tdiv n, s.1⟩

/-- The outputs to the payees. -/
def payeeOuts (fSplitBlock : Bool) (nSplitBlock : Int) (vecSend : List (CScript × Int)) : List CTxOut :=
  if ¬ fSplitBlock then vecSend.map fun s => ⟨s.2, s.1⟩
  else vecSend.flatMap (splitOut (if nSplitBlock < 1 then 1 else nSplitBlock).toNat)

/-- The scan back over outputs without a value, to the begin at most. -/
def scanBack (vout : List CTxOut) : Nat → Nat
  | 0 => 0
  | position + 1 =>
    if ((vout[position + 1]?).map CTxOut.nValue).getD 0 ≠ 0 then position + 1 else scanBack vout position

/-- Where the change goes, for a position that was drawn. -/
def changePosition (vout : List CTxOut) (position : Nat) : Nat :=
  if 0 < position ∧ position < vout.length then scanBack vout position else position

/-! ## CreateTransaction -/

/-- What one round of the loop meets: the draws, the order of a set of coins,
the reserved key if there is any, and the signatures, each of which may fail. -/
structure RoundEnv where
  draws : Nat → Draws
  order : Finset COutPoint → List COutPoint
  order_nodup : ∀ setCoins, (order setCoins).Nodup
  order_toFinset : ∀ setCoins, (order setCoins).toFinset = setCoins
  getRandInt : Nat → Nat
  getRandInt_lt : ∀ nMax, 0 < nMax → getRandInt nMax < nMax
  reservedKey : Option CKeyID
  sign : CTransaction → CTransaction → Nat → Option CScript

/-- The request: the payees, the split count and the coin control, and the
globals it is made under. -/
structure SendRequest where
  vecSend : List (CScript × Int)
  nSplitBlock : Int
  coinControl : Option CCoinControl
  fSplitBlock : Bool
  nTransactionFee : Int
  hash160 : List UInt8 → Bytes 20

/-- How `CreateTransaction` ends: it returns false, its assertion on the
reserved key fails, or it returns true with the transaction and `nFeeRet`. -/
inductive CreateResult
  | failed
  | aborted
  | created (tx : CTransaction) (nFeeRet : Int)
  deriving DecidableEq

namespace SendRequest

variable (r : SendRequest)

/-- The script of the change. -/
def changeScript (utxoAddress : Option CTxDestination) (reservedKey : Option CKeyID) : Option CScript :=
  match r.coinControl with
  | none => reservedKey.map fun id => setDestination (.keyID id)
  | some c =>
    if c.fReturnChange then some ((utxoAddress.map setDestination).getD [])
    else
      match c.destChange with
      | some dest => some (setDestination dest)
      | none => reservedKey.map fun id => setDestination (.keyID id)

/-- What of the change is moved to the fee. -/
def moveToFee (nChange nFeeRet : Int) : Int :=
  if nFeeRet < MIN_TX_FEE ∧ 0 < nChange ∧ nChange < CENT then min nChange (MIN_TX_FEE - nFeeRet) else 0

/-- The outputs with the change, if there is any, or nothing where the
assertion fails. -/
def outsWithChange (e : RoundEnv) (utxoAddress : Option CTxDestination) (nChange : Int) : Option (List CTxOut) :=
  let vout := payeeOuts r.fSplitBlock r.nSplitBlock r.vecSend
  if 0 < nChange then
    (r.changeScript utxoAddress e.reservedKey).map fun scriptChange =>
      vout.insertIdx (changePosition vout (e.getRandInt (vout.length + 1))) ⟨nChange, scriptChange⟩
  else some vout

end SendRequest

namespace CWallet

variable (P : Params) (w : CWallet) (view : CoinView) (r : SendRequest) (wtxNew : CTransaction)

/-- The loop that signs. -/
def signCoins (sign : CTransaction → CTransaction → Nat → Option CScript) :
    List COutPoint → Nat → CTransaction → Option CTransaction
  | [], _, tx => some tx
  | coin :: coins, nIn, tx =>
    match w.mapWallet.lookup coin.hash with
    | none => none
    | some txFrom =>
      match sign txFrom.tx tx nIn with
      | none => none
      | some scriptSig =>
        signCoins sign coins (nIn + 1) { tx with vin := tx.vin.modify nIn fun txin => { txin with scriptSig := scriptSig } }

/-- The last address that one of the coins is paid to. -/
def utxoAddress (coins : List COutPoint) : Option CTxDestination :=
  coins.foldl (fun address coin => (extractDestination r.hash160 (w.scriptAt coin)).or address) none

/-- A round, for payments of `nValue` and the fee so far. -/
def createRound (nValue : Int) (e : RoundEnv) (nFeeRet : Int) : Turn Int CreateResult :=
  let (fSelected, sel) := w.selectCoins P view r.coinControl e.draws (nValue + nFeeRet) wtxNew.nTime
  if ¬ fSelected then .done .failed
  else
    let coins := e.order sel.setCoins
    let nChange := sel.nValue - nValue - nFeeRet
    let nMoveToFee := SendRequest.moveToFee nChange nFeeRet
    let nFeeRet := nFeeRet + nMoveToFee
    match r.outsWithChange e (w.utxoAddress r coins) (nChange - nMoveToFee) with
    | none => .done .aborted
    | some vout =>
      match w.signCoins e.sign coins 0 { wtxNew with vin := coins.map (w.inputOf P), vout := vout } with
      | none => .done .failed
      | some tx =>
        let nBytes := tx.getSerializeSize
        if MAX_BLOCK_SIZE_GEN / 5 ≤ nBytes then .done .failed
        else
          let nPayFee := r.nTransactionFee * (1 + (nBytes : Int) / 1000)
          let nMinFee := tx.getMinFee 1 .gmfSend nBytes
          if nFeeRet < max nPayFee nMinFee then .again (max nPayFee nMinFee) else .done (.created tx nFeeRet)

/-- `CreateTransaction`, its loop cut after `fuel` rounds. -/
def createTransaction (env : Nat → RoundEnv) (fuel : Nat) : Option CreateResult :=
  match sumOfSend r.vecSend 0 with
  | none => some .failed
  | some nValue =>
    if r.vecSend = [] ∨ nValue < 0 then some .failed
    else
      Rounds.loop (fun n => w.createRound P view r wtxNew nValue (env n)) fuel 0
        (if r.fSplitBlock then COIN / 100 else r.nTransactionFee)

end CWallet

/-! ## What is selected -/

namespace CWallet

variable {P : Params} {w : CWallet} {view : CoinView} {coinControl : Option CCoinControl} {fOnlyConfirmed : Bool}

/-- The coins of one transaction are outputs of it. -/
theorem mem_coinsOf {hash : Uint256} {pcoin : CWalletTx} {out : COutput}
    (hout : out ∈ w.coinsOf P view coinControl fOnlyConfirmed hash pcoin) :
    out.tx = hash ∧ out.i < pcoin.tx.vout.length := by
  unfold coinsOf at hout
  split at hout
  · exact nomatch hout
  split at hout
  · exact nomatch hout
  split at hout
  · exact nomatch hout
  split at hout
  · exact nomatch hout
  dsimp only at hout
  split at hout
  · exact nomatch hout
  obtain ⟨⟨txout, i⟩, hmem, rfl⟩ := List.mem_map.mp hout
  exact ⟨rfl, List.snd_lt_of_mem_zipIdx (List.mem_of_mem_filter hmem)⟩

theorem nodup_coinsOf (hash : Uint256) (pcoin : CWalletTx) :
    ((w.coinsOf P view coinControl fOnlyConfirmed hash pcoin).map COutput.coin).Nodup := by
  unfold coinsOf
  split
  · exact List.nodup_nil
  split
  · exact List.nodup_nil
  split
  · exact List.nodup_nil
  split
  · exact List.nodup_nil
  dsimp only
  split
  · exact List.nodup_nil
  rw [List.map_map]
  have hindexes : (pcoin.tx.vout.zipIdx.map Prod.snd).Nodup := by
    rw [List.zipIdx_map_snd]
    exact List.nodup_range'
  have hkept := hindexes.sublist ((List.filter_sublist (p := fun (txout, i) =>
    w.isAvailable P coinControl hash pcoin txout i)).map Prod.snd)
  have hpoint : Function.Injective fun i : Nat => (⟨hash, i⟩ : COutPoint) := fun i j heq => congrArg COutPoint.n heq
  have hmap := hkept.map hpoint
  rw [List.map_map] at hmap
  exact hmap

/-- **Every coin is an output of a wallet transaction**, and is there once. -/
theorem mem_availableCoins {out : COutput} (hout : out ∈ w.availableCoins P view coinControl fOnlyConfirmed) :
    ∃ pcoin, w.mapWallet.lookup out.tx = some pcoin ∧ out.i < pcoin.tx.vout.length := by
  obtain ⟨e, he, hout⟩ := List.mem_flatMap.mp hout
  obtain ⟨hhash, hi⟩ := mem_coinsOf hout
  refine ⟨e.2, ?_, hi⟩
  rw [hhash]
  exact AList.mem_lookup_iff.mpr he

theorem nodup_availableCoins : ((w.availableCoins P view coinControl fOnlyConfirmed).map COutput.coin).Nodup := by
  unfold availableCoins
  rw [List.map_flatMap, List.nodup_flatMap]
  refine ⟨fun e _ => nodup_coinsOf e.1 e.2, ?_⟩
  have hkeys : w.mapWallet.entries.Pairwise fun e e' => e.1 ≠ e'.1 := List.nodupKeys_iff_pairwise.mp w.mapWallet.nodupKeys
  refine hkeys.imp fun {e e'} hne o ho ho' => hne ?_
  obtain ⟨out, hout, rfl⟩ := List.mem_map.mp ho
  obtain ⟨out', hout', heq⟩ := List.mem_map.mp ho'
  rw [← (mem_coinsOf hout).1, ← (mem_coinsOf hout').1]
  exact (congrArg COutPoint.hash heq).symm

theorem Selects.of_subset {nTargetValue : Int} {coins coins' : List COutput} {sel : Selection}
    (h : Selects w nTargetValue coins sel) (hsub : coins ⊆ coins') : Selects w nTargetValue coins' sel :=
  ⟨fun o ho => by
    obtain ⟨out, hout, heq⟩ := h.subset o ho
    exact ⟨out, hsub hout, heq⟩, h.sum, h.enough⟩

/-- **What `SelectCoins` selects**: coins that are there, with their sum, which
reaches the target. -/
theorem selectCoins_selects {d : Nat → Draws} {nTargetValue : Int} {nSpendTime : Nat}
    (h : (w.selectCoins P view coinControl d nTargetValue nSpendTime).1 = true) :
    Selects w nTargetValue (w.availableCoins P view coinControl true)
      (w.selectCoins P view coinControl d nTargetValue nSpendTime).2 := by
  have hdistinct : ((w.availableCoins P view coinControl true).map COutput.coin).Nodup := nodup_availableCoins
  -- each of the three attempts selects among the coins that are deep enough for it
  have hattempt : ∀ d nConfMine nConfTheirs,
      (w.selectCoinsMinConf P d nTargetValue nSpendTime nConfMine nConfTheirs (w.availableCoins P view coinControl true)).1 = true →
      Selects w nTargetValue (w.availableCoins P view coinControl true)
        (w.selectCoinsMinConf P d nTargetValue nSpendTime nConfMine nConfTheirs (w.availableCoins P view coinControl true)).2 := by
    intro d nConfMine nConfTheirs htrue
    rcases selectCoinsMinConf_cases d hdistinct with ⟨-, hselects, -⟩ | ⟨hfalse, -, -⟩
    · exact hselects.of_subset fun out hout => List.mem_of_mem_filter hout
    · exact nomatch hfalse.symm.trans htrue
  unfold selectCoins at h ⊢
  dsimp only at h ⊢
  by_cases hcontrol : coinControl.any CCoinControl.hasSelected = true
  · rw [if_pos hcontrol] at h ⊢
    have hkeys : (((w.availableCoins P view coinControl true).map w.valued).map Prod.snd).Nodup := by
      rw [List.map_map]
      exact hdistinct
    have hvalues : ∀ coin ∈ (w.availableCoins P view coinControl true).map w.valued, coin.1 = w.valueAt coin.2 := by
      intro coin hcoin
      obtain ⟨out, -, rfl⟩ := List.mem_map.mp hcoin
      rfl
    obtain ⟨hset, -, hsum⟩ := @foldl_add w _ .empty hkeys (fun _ _ h => (nomatch h)) hvalues rfl
    refine ⟨fun o ho => ?_, hsum, by simpa using h⟩
    rcases (hset o).mp ho with hnone | hcoin
    · exact nomatch hnone
    · rw [List.map_map] at hcoin
      exact List.mem_map.mp hcoin
  · rw [if_neg hcontrol] at h ⊢
    by_cases hfirst : (w.selectCoinsMinConf P (d 0) nTargetValue nSpendTime 1 10 (w.availableCoins P view coinControl true)).1
    · rw [if_pos hfirst]
      exact hattempt _ _ _ hfirst
    · rw [if_neg hfirst] at h ⊢
      by_cases hsecond : (w.selectCoinsMinConf P (d 1) nTargetValue nSpendTime 1 1 (w.availableCoins P view coinControl true)).1
      · rw [if_pos hsecond]
        exact hattempt _ _ _ hsecond
      · rw [if_neg hsecond] at h ⊢
        exact hattempt _ _ _ h

/-! ## The inputs -/

/-- An input of a coin spends that coin. -/
theorem prevout_inputOf (hkeyed : w.Keyed P) {coin : COutPoint}
    (hcoin : ∃ out ∈ w.availableCoins P view coinControl fOnlyConfirmed, out.coin = coin) : (w.inputOf P coin).prevout = coin := by
  obtain ⟨out, hout, rfl⟩ := hcoin
  obtain ⟨pcoin, hlookup, -⟩ := mem_availableCoins hout
  have hhash : w.mapWallet.lookup out.coin.hash = some pcoin := hlookup
  unfold inputOf
  rw [hhash]
  exact congrArg (COutPoint.mk · out.i) (hkeyed _ _ hlookup)

theorem map_prevout_modify (vin : List CTxIn) (nIn : Nat) (scriptSig : CScript) :
    (vin.modify nIn fun txin => { txin with scriptSig := scriptSig }).map CTxIn.prevout = vin.map CTxIn.prevout := by
  induction vin generalizing nIn with
  | nil => cases nIn <;> rfl
  | cons txin vin ih =>
    cases nIn with
    | zero => rfl
    | succ nIn => exact congrArg (txin.prevout :: ·) (ih nIn)

/-- Signing changes the scripts of the inputs only. -/
theorem signCoins_keeps {sign : CTransaction → CTransaction → Nat → Option CScript} {coins : List COutPoint} {nIn : Nat}
    {tx tx' : CTransaction} (h : w.signCoins sign coins nIn tx = some tx') :
    tx'.vout = tx.vout ∧ tx'.vin.map CTxIn.prevout = tx.vin.map CTxIn.prevout := by
  induction coins generalizing nIn tx with
  | nil =>
    obtain rfl : tx = tx' := Option.some.inj h
    exact ⟨rfl, rfl⟩
  | cons coin coins ih =>
    unfold signCoins at h
    split at h
    · exact nomatch h
    next txFrom _ =>
      split at h
      · exact nomatch h
      next scriptSig _ =>
        obtain ⟨hvout, hvin⟩ := ih h
        refine ⟨hvout, hvin.trans ?_⟩
        exact map_prevout_modify _ _ _

end CWallet

/-! ## The outputs -/

/-- The outputs come in groups, one for each payee, whose outputs have the
script of the payee and are of its value together. -/
def PaidInGroups (vecSend : List (CScript × Int)) (vout : List CTxOut) : Prop :=
  ∃ groups : List (List CTxOut),
    List.Forall₂ (fun s group => (group.map CTxOut.nValue).sum = s.2 ∧ ∀ txout ∈ group, txout.scriptPubKey = s.1) vecSend groups ∧
      groups.flatten = vout

theorem splitOut_succ (n : Nat) (s : CScript × Int) :
    splitOut (n + 1) s =
      List.replicate n ⟨s.2.tdiv (n + 1 : Nat), s.1⟩ ++ [⟨s.2.tdiv (n + 1 : Nat) + s.2.tmod (n + 1 : Nat), s.1⟩] := by
  have hfirst : ∀ nCount ∈ List.range n, (if nCount = n + 1 - 1 then
      (⟨s.2.tdiv (n + 1 : Nat) + s.2.tmod (n + 1 : Nat), s.1⟩ : CTxOut) else ⟨s.2.tdiv (n + 1 : Nat), s.1⟩) =
        ⟨s.2.tdiv (n + 1 : Nat), s.1⟩ := by
    intro nCount hcount
    have hlt := List.mem_range.mp hcount
    rw [if_neg (by omega)]
  unfold splitOut
  rw [List.range_succ, List.map_append, List.map_congr_left hfirst, List.map_const', List.length_range]
  simp

/-- **The parts of a payment make up its value.** -/
theorem sum_splitOut {n : Nat} (hn : 0 < n) (s : CScript × Int) : ((splitOut n s).map CTxOut.nValue).sum = s.2 := by
  obtain ⟨n, rfl⟩ : ∃ k, n = k + 1 := ⟨n - 1, by omega⟩
  have hdiv := Int.mul_tdiv_add_tmod s.2 ((n + 1 : Nat) : Int)
  rw [splitOut_succ, List.map_append, List.sum_append, List.map_replicate, List.sum_replicate]
  simp only [List.map_cons, List.map_nil, List.sum_cons, List.sum_nil, nsmul_eq_mul, add_zero]
  generalize s.2.tdiv ((n + 1 : Nat) : Int) = q at hdiv ⊢
  generalize s.2.tmod ((n + 1 : Nat) : Int) = m at hdiv ⊢
  rw [← hdiv]
  push_cast
  ring

theorem script_splitOut {n : Nat} {s : CScript × Int} {txout : CTxOut} (hout : txout ∈ splitOut n s) :
    txout.scriptPubKey = s.1 := by
  obtain ⟨nCount, -, rfl⟩ := List.mem_map.mp hout
  split <;> rfl

theorem paidInGroups_payeeOuts (fSplitBlock : Bool) (nSplitBlock : Int) (vecSend : List (CScript × Int)) :
    PaidInGroups vecSend (payeeOuts fSplitBlock nSplitBlock vecSend) := by
  unfold payeeOuts
  split
  · refine ⟨vecSend.map fun s => [⟨s.2, s.1⟩], ?_, ?_⟩
    · rw [List.forall₂_map_right_iff]
      refine List.forall₂_same.mpr fun s _ => ⟨by simp, fun txout hout => ?_⟩
      rw [List.mem_singleton.mp hout]
    · rw [← List.flatMap_def, ← List.map_eq_flatMap]
  · refine ⟨vecSend.map (splitOut _), ?_, rfl⟩
    rw [List.forall₂_map_right_iff]
    refine List.forall₂_same.mpr fun s _ => ⟨sum_splitOut ?_ s, fun txout hout => script_splitOut hout⟩
    split
    · decide
    · omega

/-- The outputs of the groups are of the value of all payments. -/
theorem PaidInGroups.sum {vecSend : List (CScript × Int)} {vout : List CTxOut} (h : PaidInGroups vecSend vout) :
    (vout.map CTxOut.nValue).sum = (vecSend.map Prod.snd).sum := by
  obtain ⟨groups, hgroups, rfl⟩ := h
  induction hgroups with
  | nil => rfl
  | cons hgroup _ ih =>
    rw [List.flatten_cons, List.map_append, List.sum_append, hgroup.1, ih, List.map_cons, List.sum_cons]

theorem sumOfSend_eq {vecSend : List (CScript × Int)} {nValue nValue' : Int} (h : sumOfSend vecSend nValue = some nValue') :
    nValue' = nValue + (vecSend.map Prod.snd).sum := by
  induction vecSend generalizing nValue with
  | nil =>
    obtain rfl : nValue = nValue' := Option.some.inj h
    simp
  | cons s vecSend ih =>
    unfold sumOfSend at h
    split at h
    · exact nomatch h
    · rw [ih h, List.map_cons, List.sum_cons, add_assoc]

theorem scanBack_le (vout : List CTxOut) (position : Nat) : scanBack vout position ≤ position := by
  induction position with
  | zero => exact le_rfl
  | succ position ih =>
    unfold scanBack
    split
    · exact le_rfl
    · exact Nat.le_succ_of_le ih

theorem changePosition_le (vout : List CTxOut) (position : Nat) : changePosition vout position ≤ position := by
  unfold changePosition
  split
  · exact scanBack_le vout position
  · exact le_rfl

namespace SendRequest

variable {r : SendRequest} {e : RoundEnv} {address : Option CTxDestination} {nChange : Int} {vout : List CTxOut}

/-- **The outputs of a round**: those to the payees, and the change among them
if there is any. -/
theorem outsWithChange_eq (h : r.outsWithChange e address nChange = some vout) :
    (¬ 0 < nChange ∧ vout = payeeOuts r.fSplitBlock r.nSplitBlock r.vecSend) ∨
      0 < nChange ∧ ∃ position scriptChange, position ≤ (payeeOuts r.fSplitBlock r.nSplitBlock r.vecSend).length ∧
        r.changeScript address e.reservedKey = some scriptChange ∧ vout = (payeeOuts r.fSplitBlock r.nSplitBlock r.vecSend).insertIdx
          (changePosition (payeeOuts r.fSplitBlock r.nSplitBlock r.vecSend) position) ⟨nChange, scriptChange⟩ := by
  unfold outsWithChange at h
  dsimp only at h
  split at h
  next hpos =>
    obtain ⟨scriptChange, hscript, rfl⟩ := Option.map_eq_some_iff.mp h
    exact .inr ⟨hpos, _, scriptChange, Nat.lt_succ_iff.mp (e.getRandInt_lt _ (Nat.succ_pos _)), hscript, rfl⟩
  next hnone => exact .inl ⟨hnone, (Option.some.inj h).symm⟩

theorem sum_outsWithChange (h : r.outsWithChange e address nChange = some vout) (hnonneg : 0 ≤ nChange) :
    (vout.map CTxOut.nValue).sum = (r.vecSend.map Prod.snd).sum + nChange := by
  have hsum := (paidInGroups_payeeOuts r.fSplitBlock r.nSplitBlock r.vecSend).sum
  rcases outsWithChange_eq h with ⟨hnone, rfl⟩ | ⟨-, position, scriptChange, hle, -, rfl⟩
  · rw [hsum]
    omega
  · have hperm := List.perm_insertIdx (⟨nChange, scriptChange⟩ : CTxOut) (payeeOuts r.fSplitBlock r.nSplitBlock r.vecSend)
      ((changePosition_le (payeeOuts r.fSplitBlock r.nSplitBlock r.vecSend) position).trans hle)
    rw [(hperm.map CTxOut.nValue).sum_eq, List.map_cons, List.sum_cons, hsum, add_comm]

/-- What is moved to the fee is part of the change. -/
theorem moveToFee_bounds {nFeeRet : Int} (hnonneg : 0 ≤ nChange) :
    0 ≤ moveToFee nChange nFeeRet ∧ moveToFee nChange nFeeRet ≤ nChange := by
  unfold moveToFee
  split <;> omega

/-- No fee that a round asks for is above this. -/
def feeBound (r : SendRequest) : Int := |r.nTransactionFee| * MAX_BLOCK_SIZE_GEN + MAX_MONEY

end SendRequest

theorem CTransaction.getMinFee_le (tx : CTransaction) (nBlockSize : Nat) (mode : GetMinFeeMode) (nBytes : Nat) :
    tx.getMinFee nBlockSize mode nBytes ≤ MAX_MONEY := by
  unfold CTransaction.getMinFee
  dsimp only
  generalize (if nBlockSize ≠ 1 ∧ MAX_BLOCK_SIZE_GEN / 2 ≤ nBlockSize + nBytes then _ else _ : Int) = nMinFee
  by_cases hfull : (nBlockSize ≠ 1 ∧ MAX_BLOCK_SIZE_GEN / 2 ≤ nBlockSize + nBytes) ∧ MAX_BLOCK_SIZE_GEN ≤ nBlockSize + nBytes
  · rw [if_pos hfull]
  · rw [if_neg hfull]
    by_cases hrange : moneyRange nMinFee
    · rw [if_neg (not_not.mpr hrange)]
      exact hrange.2
    · rw [if_pos hrange]

/-! ## A round -/

namespace CWallet

variable {P : Params} {w : CWallet} {view : CoinView} {r : SendRequest} {wtxNew tx : CTransaction} {e : RoundEnv}
  {nValue nFeeRet nFeeRet' : Int}

/-- The fee that a transaction of this size needs. -/
def neededFee (r : SendRequest) (tx : CTransaction) : Int :=
  max (r.nTransactionFee * (1 + (tx.getSerializeSize : Int) / 1000)) (tx.getMinFee 1 .gmfSend tx.getSerializeSize)

theorem neededFee_le (hsize : tx.getSerializeSize < MAX_BLOCK_SIZE_GEN / 5) : neededFee r tx ≤ r.feeBound := by
  have hkilo : 1 + (tx.getSerializeSize : Int) / 1000 ≤ MAX_BLOCK_SIZE_GEN := by
    have hmax : MAX_BLOCK_SIZE_GEN / 5 + 1 ≤ MAX_BLOCK_SIZE_GEN := by decide
    omega
  have hpay : r.nTransactionFee * (1 + (tx.getSerializeSize : Int) / 1000) ≤ |r.nTransactionFee| * MAX_BLOCK_SIZE_GEN :=
    calc r.nTransactionFee * (1 + (tx.getSerializeSize : Int) / 1000)
        ≤ |r.nTransactionFee| * (1 + (tx.getSerializeSize : Int) / 1000) :=
          mul_le_mul_of_nonneg_right (le_abs_self _) (by omega)
      _ ≤ |r.nTransactionFee| * MAX_BLOCK_SIZE_GEN := mul_le_mul_of_nonneg_left hkilo (abs_nonneg _)
  have hmin := tx.getMinFee_le 1 .gmfSend tx.getSerializeSize
  have hmoney : 0 ≤ MAX_MONEY := by decide
  have hbound : 0 ≤ |r.nTransactionFee| * (MAX_BLOCK_SIZE_GEN : Int) := mul_nonneg (abs_nonneg _) (Int.natCast_nonneg _)
  unfold neededFee SendRequest.feeBound
  omega

/-- A round that gets to the fee: what it selected, what it moved to the fee,
and what it signed. -/
structure Reaches (P : Params) (w : CWallet) (view : CoinView) (r : SendRequest) (nValue : Int)
    (e : RoundEnv) (nFeeRet : Int) (sel : Selection) (nMoveToFee : Int) (tx : CTransaction) : Prop where
  selects : Selects w (nValue + nFeeRet) (w.availableCoins P view r.coinControl true) sel
  moves : 0 ≤ nMoveToFee ∧ nMoveToFee ≤ sel.nValue - nValue - nFeeRet
  outs : ∃ address, r.outsWithChange e address (sel.nValue - nValue - nFeeRet - nMoveToFee) = some tx.vout
  ins : tx.vin.map CTxIn.prevout = (e.order sel.setCoins).map fun coin => (w.inputOf P coin).prevout
  size : tx.getSerializeSize < MAX_BLOCK_SIZE_GEN / 5

/-- **What a round does**: it ends the loop without a transaction, or reaches
the fee, which it raises to the one needed or takes as it is. -/
theorem createRound_cases (P : Params) (w : CWallet) (view : CoinView) (r : SendRequest) (wtxNew : CTransaction) (nValue : Int)
    (e : RoundEnv) (nFeeRet : Int) :
    w.createRound P view r wtxNew nValue e nFeeRet = .done .failed ∨
      w.createRound P view r wtxNew nValue e nFeeRet = .done .aborted ∨
      ∃ sel nMoveToFee tx, Reaches P w view r nValue e nFeeRet sel nMoveToFee tx ∧
        w.createRound P view r wtxNew nValue e nFeeRet =
          if nFeeRet + nMoveToFee < neededFee r tx then .again (neededFee r tx) else .done (.created tx (nFeeRet + nMoveToFee)) := by
  unfold createRound
  have hselects := @selectCoins_selects P w view r.coinControl e.draws (nValue + nFeeRet) wtxNew.nTime
  generalize w.selectCoins P view r.coinControl e.draws (nValue + nFeeRet) wtxNew.nTime = selected at hselects ⊢
  obtain ⟨fSelected, sel⟩ := selected
  dsimp only
  by_cases hselected : fSelected = true
  · rw [if_neg (not_not.mpr hselected)]
    have hsel := hselects hselected
    have henough : nValue + nFeeRet ≤ sel.nValue := hsel.enough
    have hmoves := @SendRequest.moveToFee_bounds (sel.nValue - nValue - nFeeRet) nFeeRet (by omega)
    cases houts : r.outsWithChange e (w.utxoAddress r (e.order sel.setCoins))
        (sel.nValue - nValue - nFeeRet - SendRequest.moveToFee (sel.nValue - nValue - nFeeRet) nFeeRet) with
    | none => exact .inr (.inl rfl)
    | some vout =>
      dsimp only
      cases hsign : w.signCoins e.sign (e.order sel.setCoins) 0
          { wtxNew with vin := (e.order sel.setCoins).map (w.inputOf P), vout := vout } with
      | none => exact .inl rfl
      | some tx =>
        obtain ⟨hvout, hvin⟩ := signCoins_keeps hsign
        dsimp only at hvout hvin ⊢
        by_cases hsize : MAX_BLOCK_SIZE_GEN / 5 ≤ tx.getSerializeSize
        · exact .inl (if_pos hsize)
        · rw [if_neg hsize]
          refine .inr (.inr ⟨sel, _, tx, ⟨hsel, hmoves, ⟨_, hvout ▸ houts⟩, ?_, not_le.mp hsize⟩, rfl⟩)
          rw [hvin, List.map_map]
          rfl
  · exact .inl (if_pos hselected)

/-- **A round that is not the last raises the fee**, to no more than the bound. -/
theorem createRound_again (h : w.createRound P view r wtxNew nValue e nFeeRet = .again nFeeRet') :
    nFeeRet < nFeeRet' ∧ nFeeRet' ≤ r.feeBound := by
  rcases createRound_cases P w view r wtxNew nValue e nFeeRet with hfailed | haborted | ⟨sel, nMoveToFee, tx, hreaches, hround⟩
  · exact nomatch hfailed.symm.trans h
  · exact nomatch haborted.symm.trans h
  · rw [hround] at h
    split at h
    next hless =>
      have heq : neededFee r tx = nFeeRet' := Turn.again.inj h
      have hmoves := hreaches.moves
      exact ⟨by omega, heq ▸ neededFee_le hreaches.size⟩
    next => exact nomatch h

/-- The last round, where it makes a transaction. -/
theorem createRound_created (h : w.createRound P view r wtxNew nValue e nFeeRet = .done (.created tx nFeeRet')) :
    ∃ e nFeeRet sel nMoveToFee, Reaches P w view r nValue e nFeeRet sel nMoveToFee tx ∧
      neededFee r tx ≤ nFeeRet' ∧ nFeeRet' = nFeeRet + nMoveToFee := by
  rcases createRound_cases P w view r wtxNew nValue e nFeeRet with hfailed | haborted | ⟨sel, nMoveToFee, tx', hreaches, hround⟩
  · exact nomatch hfailed.symm.trans h
  · exact nomatch haborted.symm.trans h
  · rw [hround] at h
    split at h
    · exact nomatch h
    next hcovered =>
      cases h
      exact ⟨e, nFeeRet, sel, nMoveToFee, hreaches, not_lt.mp hcovered, rfl⟩

/-! ## The transaction -/

/-- What is promised of a transaction and its fee. -/
structure Pays (P : Params) (w : CWallet) (view : CoinView) (r : SendRequest) (tx : CTransaction) (nFeeRet : Int) : Prop where
  once : (tx.vin.map CTxIn.prevout).Nodup
  owned : ∀ txin ∈ tx.vin, ∃ out ∈ w.availableCoins P view r.coinControl true, out.coin = txin.prevout
  payees : ∃ vout, PaidInGroups r.vecSend vout ∧
    (tx.vout = vout ∨ ∃ position change, position ≤ vout.length ∧ tx.vout = vout.insertIdx position change)
  conserved : (tx.vin.map fun txin => w.valueAt txin.prevout).sum - (tx.vout.map CTxOut.nValue).sum = nFeeRet
  covered : neededFee r tx ≤ nFeeRet

/-- **The transaction of a round that takes the fee as it is pays**, where the
wallet has each transaction under its hash. -/
theorem pays_of_reaches {sel : Selection} {nMoveToFee : Int} (hkeyed : w.Keyed P)
    (hreaches : Reaches P w view r (r.vecSend.map Prod.snd).sum e nFeeRet sel nMoveToFee tx)
    (hcovered : neededFee r tx ≤ nFeeRet + nMoveToFee) : Pays P w view r tx (nFeeRet + nMoveToFee) := by
  obtain ⟨hselects, hmoves, ⟨address, houts⟩, hins, -⟩ := hreaches
  -- the inputs are the selected coins, in the order of the set
  have hprevouts : tx.vin.map CTxIn.prevout = e.order sel.setCoins := by
    rw [hins]
    refine (List.map_congr_left fun coin hcoin => ?_).trans (List.map_id _)
    refine prevout_inputOf hkeyed (hselects.subset coin ?_)
    rw [← e.order_toFinset sel.setCoins]
    exact List.mem_toFinset.mpr hcoin
  refine ⟨?_, fun txin htxin => ?_, ?_, ?_, hcovered⟩
  · rw [hprevouts]
    exact e.order_nodup _
  · refine hselects.subset _ ?_
    rw [← e.order_toFinset sel.setCoins, ← hprevouts]
    exact List.mem_toFinset.mpr (List.mem_map_of_mem htxin)
  · refine ⟨_, paidInGroups_payeeOuts r.fSplitBlock r.nSplitBlock r.vecSend, ?_⟩
    rcases SendRequest.outsWithChange_eq houts with ⟨-, hvout⟩ | ⟨-, position, scriptChange, hle, -, hvout⟩
    · exact .inl hvout
    · exact .inr ⟨_, _, (changePosition_le _ _).trans hle, hvout⟩
  · have hout := SendRequest.sum_outsWithChange houts (by omega)
    have hin : (tx.vin.map fun txin => w.valueAt txin.prevout).sum = sel.nValue := by
      rw [hselects.sum]
      conv_rhs => rw [← e.order_toFinset sel.setCoins]
      rw [List.sum_toFinset _ (e.order_nodup _), ← hprevouts, List.map_map]
      rfl
    rw [hin, hout]
    omega

/-- A transaction comes from a round that takes the fee as it is. -/
theorem exists_round {env : Nat → RoundEnv} {fuel : Nat}
    (h : w.createTransaction P view r wtxNew env fuel = some (.created tx nFeeRet)) :
    ∃ e nFeeRet' sel nMoveToFee, Reaches P w view r (r.vecSend.map Prod.snd).sum e nFeeRet' sel nMoveToFee tx ∧
      neededFee r tx ≤ nFeeRet ∧ nFeeRet = nFeeRet' + nMoveToFee ∧ r.vecSend ≠ [] := by
  unfold createTransaction at h
  cases hsum : sumOfSend r.vecSend 0 with
  | none =>
    rw [hsum] at h
    exact nomatch h
  | some nValue =>
    rw [hsum] at h
    dsimp only at h
    obtain rfl : nValue = (r.vecSend.map Prod.snd).sum := (sumOfSend_eq hsum).trans (zero_add _)
    split at h
    · exact nomatch h
    next hsome =>
      have hpost := @Rounds.loop_meets _ _
        (fun n => w.createRound P view r wtxNew (r.vecSend.map Prod.snd).sum (env n)) (fun _ => True)
        (fun result => ∀ tx nFeeRet, result = .created tx nFeeRet →
          ∃ e nFeeRet' sel nMoveToFee, Reaches P w view r (r.vecSend.map Prod.snd).sum e nFeeRet' sel nMoveToFee tx ∧
            neededFee r tx ≤ nFeeRet ∧ nFeeRet = nFeeRet' + nMoveToFee) fuel 0 _ _ (fun _ _ _ _ _ => trivial)
        (fun n nFeeRet result _ hround tx nFeeRet' hresult => createRound_created (hresult ▸ hround)) trivial h
      obtain ⟨e, nFeeRet', sel, nMoveToFee, hreaches, hcovered, heq⟩ := hpost tx nFeeRet rfl
      exact ⟨e, nFeeRet', sel, nMoveToFee, hreaches, hcovered, heq, fun hnone => hsome (.inl hnone)⟩

/-- **`CreateTransaction`, for every wallet, request and outcome of chance**:
its loop ends, and when it returns true the transaction spends coins of the
wallet, each once, pays every payee its value with one output of change at
most, and leaves the fee, which covers its size. -/
theorem createTransaction_spec (P : Params) (w : CWallet) (view : CoinView) (r : SendRequest) (wtxNew : CTransaction)
    (env : Nat → RoundEnv) (hkeyed : w.Keyed P) :
    (∃ result enough, ∀ fuel, enough ≤ fuel → w.createTransaction P view r wtxNew env fuel = some result) ∧
      ∀ fuel tx nFeeRet, w.createTransaction P view r wtxNew env fuel = some (.created tx nFeeRet) →
        Pays P w view r tx nFeeRet := by
  refine ⟨?_, fun fuel tx nFeeRet h => ?_⟩
  · unfold createTransaction
    cases hsum : sumOfSend r.vecSend 0 with
    | none => exact ⟨.failed, 0, fun _ _ => rfl⟩
    | some nValue =>
      dsimp only
      split
      · exact ⟨.failed, 0, fun _ _ => rfl⟩
      · -- the fee rises and stays below the bound
        obtain ⟨result, hresult⟩ := @Rounds.loop_ends _ _ (fun n => w.createRound P view r wtxNew nValue (env n)) 0
          (if r.fSplitBlock then COIN / 100 else r.nTransactionFee) (fun nFeeRet => (r.feeBound - nFeeRet).toNat)
          fun n nFeeRet nFeeRet' hround => by
            obtain ⟨hrises, hbound⟩ := createRound_again hround
            omega
        exact ⟨result, _, fun fuel hfuel => hresult fuel (Nat.lt_of_succ_le hfuel)⟩
  · obtain ⟨e, nFeeRet', sel, nMoveToFee, hreaches, hcovered, rfl, -⟩ := exists_round h
    exact pays_of_reaches hkeyed hreaches hcovered

end CWallet

/-! ## A payment of four coins out of five -/

namespace Sample

/-- Every transaction is final, trusted and deep. -/
def coinView : CoinView := ⟨fun _ => true, fun _ => true, fun _ => 0, fun _ => 20⟩

/-- No key is reserved, and each signature is empty. -/
noncomputable def roundEnv : RoundEnv where
  draws _ := draws
  order setCoins := if setCoins = {⟨1000, 0⟩} then [⟨1000, 0⟩] else setCoins.toList
  order_nodup setCoins := by
    split
    · exact List.nodup_singleton _
    · exact setCoins.nodup_toList
  order_toFinset setCoins := by
    split
    next heq => exact heq.symm
    next => exact setCoins.toList_toFinset
  getRandInt _ := 0
  getRandInt_lt _ h := h
  reservedKey := none
  sign _ _ _ := some []

/-- Four coins, out of the output of five. -/
def sendRequest : SendRequest where
  vecSend := [([9], 4 * COIN)]
  nSplitBlock := 1
  coinControl := some ⟨some (.keyID (List.Vector.replicate 20 0)), false, {⟨1000, 0⟩}⟩
  fSplitBlock := false
  nTransactionFee := 0
  hash160 _ := List.Vector.replicate 20 0

def unsent : CTransaction := ⟨1, 2000, [], [], 0⟩

theorem lookup_coinWallet {hash : Uint256} {wtx : CWalletTx} (h : coinWallet.mapWallet.lookup hash = some wtx) :
    hash = 1000 ∧ wtx = .ofTx threeCoins := by
  unfold coinWallet at h
  by_cases heq : hash = 1000
  · subst heq
    rw [AList.lookup_insert] at h
    exact ⟨rfl, (Option.some.inj h).symm⟩
  · rw [AList.lookup_insert_ne heq, AList.lookup_empty] at h
    exact nomatch h

theorem keyed_coinWallet : coinWallet.Keyed (params true) := by
  intro hash wtx hlookup
  obtain ⟨rfl, rfl⟩ := lookup_coinWallet hlookup
  rfl

end Sample

/-- The fee is raised once, and the change comes first. -/
example : Sample.coinWallet.createTransaction (Sample.params true) Sample.coinView Sample.sendRequest Sample.unsent
    (fun _ => Sample.roundEnv) 2 =
      some (.created ⟨1, 2000, [⟨⟨1000, 0⟩, [], UINT_MAX⟩],
        [⟨COIN - MIN_TX_FEE, setDestination (.keyID (List.Vector.replicate 20 0))⟩, ⟨4 * COIN, [9]⟩], 0⟩ MIN_TX_FEE) := by
  decide +kernel

theorem CWallet.createTransaction_spec_sample :
    (∃ result enough, ∀ fuel, enough ≤ fuel →
        Sample.coinWallet.createTransaction (Sample.params true) Sample.coinView Sample.sendRequest Sample.unsent
          (fun _ => Sample.roundEnv) fuel = some result) ∧
      ∀ fuel tx nFeeRet,
        Sample.coinWallet.createTransaction (Sample.params true) Sample.coinView Sample.sendRequest Sample.unsent
          (fun _ => Sample.roundEnv) fuel = some (.created tx nFeeRet) →
        CWallet.Pays (Sample.params true) Sample.coinWallet Sample.coinView Sample.sendRequest tx nFeeRet :=
  CWallet.createTransaction_spec (Sample.params true) Sample.coinWallet Sample.coinView Sample.sendRequest Sample.unsent
    (fun _ => Sample.roundEnv) Sample.keyed_coinWallet

end Pinkcoin
