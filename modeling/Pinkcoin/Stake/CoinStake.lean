/-
`CreateCoinStake`: the search for a kernel among the coins of the wallet, the
inputs that are added to it, and the outputs of the reward, of which some are
shared.
-/
import Pinkcoin.AcceptBlock
import Pinkcoin.Stake.StakeOut

namespace Pinkcoin

open CScript
open StateError (rejectIf)

/-! ## The inputs -/

/-- An output of a wallet transaction. -/
structure StakeCoin where
  tx : CTransaction
  n : Nat

namespace StakeCoin

def txOut (coin : StakeCoin) : CTxOut := (coin.tx.vout[coin.n]?).getD CTxOut.empty

/-- The input that spends it. It is not signed yet. -/
def txIn (P : Params) (coin : StakeCoin) : CTxIn := ⟨⟨coin.tx.getHash P, coin.n⟩, [], UINT_MAX⟩

end StakeCoin

/-- What `CreateCoinStake` meets in the wallet: `GetBalance`, the coins of
`SelectCoinsForStaking`, the public keys of the keys it has, `SignSignature`,
the table of shares, and its settings. -/
structure StakeWallet where
  nBalance : Int
  setCoins : List StakeCoin
  getPubKey : CKeyID → Option (List UInt8)
  hash160 : List UInt8 → Bytes 20
  signSignature : CTransaction → CTransaction → Nat → Option CScript
  mapAddressPercent : List StakeOut
  nReserveBalance : Int
  nSplitThreshold : Int
  nCombineThreshold : Int

/-- `nMaxStakeSearchInterval`. -/
def nMaxStakeSearchInterval : Nat := 60

section

variable (P : Params) (env : Env) (s : Node) (w : StakeWallet)

/-- How many seconds before `nTime` the coin is a kernel, if it is one. -/
def kernelOffset (nBits : Nat) (nSearchInterval : Int) (nTime : Nat) (coin : StakeCoin) : Option Nat := do
  let txindex ← s.txdb.readTxIndex (coin.tx.getHash P)
  let pos ← txindex.pos
  let block ← s.readBlock env pos.nFile pos.nBlockPos
  if (nTime + 2 ^ 32 - nMaxStakeSearchInterval) % 2 ^ 32 < block.nTime + nStakeMinAge then none
  else
    (List.range (min nSearchInterval nMaxStakeSearchInterval).toNat).find? fun n =>
      (checkStakeKernelHash P s.mapBlockIndex s.fDisablePOW nBits block (pos.nTxPos - pos.nBlockPos) coin.tx
        ⟨coin.tx.getHash P, coin.n⟩ ((nTime + 2 ^ 32 - n) % 2 ^ 32)).isOk

/-- The script of the outputs: a payment to the key of the kernel. -/
def kernelScriptOut (scriptPubKeyKernel : CScript) : Option CScript :=
  match solver scriptPubKeyKernel with
  | (true, .TX_PUBKEYHASH, vSolutions) =>
    (w.getPubKey (uint160OfVch (vSolutions.headD []))).map fun vchPubKey => push vchPubKey ++ [UInt8.ofNat OP_CHECKSIG]
  | (true, .TX_PUBKEY, vSolutions) =>
    let vchPubKey := vSolutions.headD []
    if w.getPubKey (w.hash160 vchPubKey) = some vchPubKey then some scriptPubKeyKernel else none
  | _ => none

/-- The loop over the coins: the first that is a kernel of a key of the
wallet, when it is one, and the script of the outputs. -/
def findKernel (nBits : Nat) (nSearchInterval : Int) (nTime : Nat) : List StakeCoin → Option (StakeCoin × Nat × CScript)
  | [] => none
  | coin :: rest =>
    match kernelOffset P env s nBits nSearchInterval nTime coin with
    | none => findKernel nBits nSearchInterval nTime rest
    | some n =>
      match kernelScriptOut w coin.txOut.scriptPubKey with
      | none => findKernel nBits nSearchInterval nTime rest
      | some scriptPubKeyOut => some (coin, (nTime + 2 ^ 32 - n) % 2 ^ 32, scriptPubKeyOut)

/-- Whether the stake is split: the kernel with its reward is above the
threshold. -/
def splitsStake (pindexBest : CBlockIndex) (coin : StakeCoin) (txNew : CTransaction) : Bool :=
  match getCoinAge env s txNew with
  | none => false
  | some nCoinAge =>
    decide (w.nSplitThreshold * COIN <
      coin.txOut.nValue + getProofOfStakeReward s.fDisablePOW nCoinAge 0 (pindexBest.nHeight + 1) txNew.nTime)

/-- The loop that adds inputs to the kernel, with the inputs and their value
so far. -/
def addInputs (kernel : StakeCoin) (scriptPubKeyOut : CScript) (nTime : Nat) :
    List StakeCoin → List StakeCoin → Int → List StakeCoin × Int
  | [], coins, nCredit => (coins, nCredit)
  | coin :: rest, coins, nCredit =>
    let nValue := coin.txOut.nValue
    let fFlashStake := s.fDisablePOW && isFlashStake (env.adjustedTime % 2 ^ 32).toNat
    if (coin.txOut.scriptPubKey = kernel.txOut.scriptPubKey ∨ coin.txOut.scriptPubKey = scriptPubKeyOut) ∧
        coin.tx.getHash P ≠ kernel.tx.getHash P then
      if 100 ≤ coins.length then (coins, nCredit)
      else if w.nCombineThreshold * COIN ≤ nCredit then (coins, nCredit)
      else if w.nBalance - w.nReserveBalance < nCredit + nValue then (coins, nCredit)
      else if w.nCombineThreshold * COIN ≤ nValue then addInputs kernel scriptPubKeyOut nTime rest coins nCredit
      else if getWeight coin.tx.nTime nTime fFlashStake < nStakeMinAge then
        addInputs kernel scriptPubKeyOut nTime rest coins nCredit
      else addInputs kernel scriptPubKeyOut nTime rest (coins ++ [coin]) (nCredit + nValue)
    else addInputs kernel scriptPubKeyOut nTime rest coins nCredit

/-- A coinstake before its outputs get their values: the coins it spends, the
kernel first, what they are worth, and the reward. -/
structure Staked where
  txNew : CTransaction
  coins : List StakeCoin
  scriptPubKeyOut : CScript
  fSplit : Bool
  nCredit : Int
  nReward : Int

/-- `CreateCoinStake` up to the reward. -/
def findStake (nBits : Nat) (nSearchInterval nFees : Int) (txNew : CTransaction) : Except Reject Staked := do
  rejectIf (w.nBalance ≤ w.nReserveBalance) failed
  rejectIf w.setCoins.isEmpty failed
  match s.best, findKernel P env s w nBits nSearchInterval txNew.nTime w.setCoins with
  | some pindexBest, some (kernel, nTime, scriptPubKeyOut) =>
    let txKernel := { txNew with nTime := nTime, vin := [kernel.txIn P], vout := [CTxOut.empty, ⟨0, scriptPubKeyOut⟩] }
    let fSplit := splitsStake env s w pindexBest kernel txKernel
    let nCredit := kernel.txOut.nValue
    rejectIf (nCredit = 0 ∨ w.nBalance - w.nReserveBalance < nCredit) failed
    -- inputs are added where the stake is not split
    let (coins, nCredit) :=
      if fSplit then ([kernel], nCredit) else addInputs P env s w kernel scriptPubKeyOut nTime w.setCoins [kernel] nCredit
    let txNew := { txKernel with
      vin := coins.map (StakeCoin.txIn P)
      vout := if fSplit then txKernel.vout ++ [⟨0, scriptPubKeyOut⟩] else txKernel.vout }
    match getCoinAge env s txNew with
    | none => throw (error "CreateCoinStake : failed to calculate coin age")
    | some nCoinAge =>
      let nReward := getProofOfStakeReward s.fDisablePOW nCoinAge nFees (pindexBest.nHeight + 1) nTime
      rejectIf (nReward ≤ 0 ∧ 16240 < pindexBest.nHeight) failed
      pure ⟨txNew, coins, scriptPubKeyOut, fSplit, nCredit, nReward⟩
  | _, _ => throw failed

/-! ## The outputs -/

/-- An output gets its value. -/
def setValue (vout : List CTxOut) (i : Nat) (nValue : Int) : List CTxOut :=
  vout.modify i fun txout => { txout with nValue := nValue }

/-- The outputs: the shares are appended, and what is left goes to one output
or to two, by what the number of outputs tells. -/
def payStake (staked : Staked) : List CTxOut :=
  let stakeOutCount := countStakeOut w.mapAddressPercent
  let (stakeOutReward, vout) := aggregateStakeOut w.mapAddressPercent staked.txNew.vout staked.nReward
  let nCredit := staked.nCredit + (staked.nReward - stakeOutReward)
  if vout.length = 3 + stakeOutCount then
    let nValue := ((nCredit.tdiv 2).tdiv CENT) * CENT
    setValue (setValue vout 1 nValue) 2 (nCredit - nValue)
  else setValue vout 1 nCredit

/-- The loop that signs the inputs. -/
def signStake : List StakeCoin → Nat → CTransaction → Except Reject CTransaction
  | [], _, txNew => pure txNew
  | coin :: rest, nIn, txNew =>
    match w.signSignature coin.tx txNew nIn with
    | none => throw (error "CreateCoinStake : failed to sign coinstake")
    | some scriptSig =>
      signStake rest (nIn + 1) { txNew with vin := txNew.vin.modify nIn fun txin => { txin with scriptSig := scriptSig } }

/-- `CreateCoinStake`. -/
def createCoinStake (nBits : Nat) (nSearchInterval nFees : Int) (txNew : CTransaction) : Except Reject CTransaction := do
  let staked ← findStake P env s w nBits nSearchInterval nFees txNew
  let txNew ← signStake w staked.coins 0 { staked.txNew with vout := payStake w staked }
  rejectIf (MAX_BLOCK_SIZE_GEN / 5 ≤ txNew.getSerializeSize) (error "CreateCoinStake : exceeded coinstake size limit")
  pure txNew

end

/-! ## What the outputs should be -/

/-- The value of the inputs. -/
def Staked.inputs (staked : Staked) : Int := valueOf (staked.coins.map StakeCoin.txOut)

/-- **The coinstake pays** each accepted address its share, and the rest to the
key of the kernel. -/
structure Staked.Pays (P : Params) (w : StakeWallet) (staked : Staked) (tx : CTransaction) : Prop where
  spends : tx.vin.map CTxIn.prevout = staked.coins.map fun coin => ⟨coin.tx.getHash P, coin.n⟩
  outputs : ∃ own, tx.vout = CTxOut.empty :: (own ++ (accepted w.mapAddressPercent).map (shareOut staked.nReward)) ∧
    (∀ txout ∈ own, txout.scriptPubKey = staked.scriptPubKeyOut) ∧
    valueOf own =
      staked.inputs + staked.nReward - valueOf ((accepted w.mapAddressPercent).map (shareOut staked.nReward))
  total : valueOf tx.vout = staked.inputs + staked.nReward

/-- The number of outputs tells whether the stake is split, or there is
nothing left to pay. -/
def Staked.Told (w : StakeWallet) (staked : Staked) : Prop :=
  staked.fSplit ∨ (accepted w.mapAddressPercent).length ≠ countStakeOut w.mapAddressPercent + 1 ∨
    (staked.inputs + staked.nReward = valueOf ((accepted w.mapAddressPercent).map (shareOut staked.nReward)) ∧
      ∀ share ∈ (accepted w.mapAddressPercent).head?, rewardPC staked.nReward share.2 = 0)

/-! ## What the search leaves -/

section

variable {P : Params} {env : Env} {s : Node} {w : StakeWallet} {staked : Staked} {tx txNew : CTransaction}
  {nBits : Nat} {nSearchInterval nFees : Int}

@[simp] theorem valueOf_nil : valueOf [] = 0 := rfl

@[simp] theorem valueOf_cons (txout : CTxOut) (vout : List CTxOut) : valueOf (txout :: vout) = txout.nValue + valueOf vout := by
  simp [valueOf]

@[simp] theorem valueOf_append (vout vout' : List CTxOut) : valueOf (vout ++ vout') = valueOf vout + valueOf vout' := by
  simp [valueOf]

/-- The value that is kept is that of the inputs. -/
theorem addInputs_value (kernel : StakeCoin) (scriptPubKeyOut : CScript) (nTime : Nat) (setCoins : List StakeCoin) :
    ∀ coins nCredit, nCredit = valueOf (coins.map StakeCoin.txOut) →
      (addInputs P env s w kernel scriptPubKeyOut nTime setCoins coins nCredit).2 =
        valueOf ((addInputs P env s w kernel scriptPubKeyOut nTime setCoins coins nCredit).1.map StakeCoin.txOut) := by
  induction setCoins with
  | nil => exact fun _ _ h => h
  | cons coin rest ih =>
    intro coins nCredit h
    rw [addInputs]
    split
    · split
      · exact h
      · split
        · exact h
        · split
          · exact h
          · split
            · exact ih _ _ h
            · split
              · exact ih _ _ h
              · refine ih _ _ ?_
                simp [h]
    · exact ih _ _ h

/-- A coinstake before it is paid: its inputs are the coins, and it has an
empty output and those of the kernel's key. -/
structure Staked.Sound (P : Params) (staked : Staked) : Prop where
  vin : staked.txNew.vin = staked.coins.map (StakeCoin.txIn P)
  vout : staked.txNew.vout = CTxOut.empty :: List.replicate (if staked.fSplit then 2 else 1) ⟨0, staked.scriptPubKeyOut⟩
  nCredit : staked.nCredit = staked.inputs

theorem findStake_sound (h : findStake P env s w nBits nSearchInterval nFees txNew = .ok staked) : staked.Sound P := by
  unfold findStake at h
  simp only [StateError.except_bind_ok, StateError.except_rejectIf_ok] at h
  obtain ⟨-, -, -, -, h⟩ := h
  split at h
  next pindexBest kernel nTime scriptPubKeyOut hbest hkernel =>
    simp only [StateError.except_bind_ok, StateError.except_rejectIf_ok] at h
    obtain ⟨-, -, h⟩ := h
    cases hsplit : splitsStake env s w pindexBest kernel
        { txNew with nTime := nTime, vin := [kernel.txIn P], vout := [CTxOut.empty, ⟨0, scriptPubKeyOut⟩] } with
    | true =>
      rw [hsplit] at h
      simp only [if_true] at h
      split at h
      next => cases h
      next nCoinAge hage =>
        simp only [StateError.except_bind_ok, StateError.except_rejectIf_ok, StateError.except_pure_ok] at h
        obtain ⟨-, -, rfl⟩ := h
        exact ⟨rfl, rfl, by simp [Staked.inputs]⟩
    | false =>
      rw [hsplit] at h
      simp only [Bool.false_eq_true, if_false] at h
      split at h
      next => cases h
      next nCoinAge hage =>
        simp only [StateError.except_bind_ok, StateError.except_rejectIf_ok, StateError.except_pure_ok] at h
        obtain ⟨-, -, rfl⟩ := h
        refine ⟨rfl, rfl, ?_⟩
        exact addInputs_value kernel scriptPubKeyOut nTime w.setCoins _ _ (by simp)
  next => cases h

/-- Signing changes the scripts of the inputs only. -/
theorem signStake_ok (coins : List StakeCoin) : ∀ nIn txNew, signStake w coins nIn txNew = .ok tx →
    tx.vout = txNew.vout ∧ tx.vin.map CTxIn.prevout = txNew.vin.map CTxIn.prevout := by
  induction coins with
  | nil =>
    intro nIn txNew h
    obtain rfl := StateError.except_pure_ok.mp h
    exact ⟨rfl, rfl⟩
  | cons coin rest ih =>
    intro nIn txNew h
    rw [signStake] at h
    split at h
    next => cases h
    next scriptSig hsign =>
      obtain ⟨hvout, hvin⟩ := ih _ _ h
      refine ⟨hvout, hvin.trans ?_⟩
      refine List.ext_getElem? fun i => ?_
      simp only [List.getElem?_map, List.getElem?_modify]
      split
      · cases txNew.vin[i]? with
        | none => rfl
        | some txin => rfl
      · cases txNew.vin[i]? with
        | none => rfl
        | some txin => rfl

/-! ## What is paid -/

/-- Half of what is left, in whole cents. -/
def halfOf (nCredit : Int) : Int := (nCredit.tdiv 2).tdiv CENT * CENT

/-- The outputs, by the number of those that are appended: what is left is in
the first own output, or in that and the next output, whichever it is. -/
theorem payStake_eq (h : staked.Sound P) (shares : List CTxOut)
    (hshares : (accepted w.mapAddressPercent).map (shareOut staked.nReward) = shares) :
    payStake w staked =
      if staked.fSplit then
        if shares.length = countStakeOut w.mapAddressPercent then
          [CTxOut.empty, ⟨halfOf (staked.inputs + (staked.nReward - valueOf shares)), staked.scriptPubKeyOut⟩,
            ⟨staked.inputs + (staked.nReward - valueOf shares) - halfOf (staked.inputs + (staked.nReward - valueOf shares)),
              staked.scriptPubKeyOut⟩] ++ shares
        else [CTxOut.empty, ⟨staked.inputs + (staked.nReward - valueOf shares), staked.scriptPubKeyOut⟩,
          ⟨0, staked.scriptPubKeyOut⟩] ++ shares
      else if shares.length = countStakeOut w.mapAddressPercent + 1 then
        [CTxOut.empty, ⟨halfOf (staked.inputs + (staked.nReward - valueOf shares)), staked.scriptPubKeyOut⟩] ++
          setValue shares 0
            (staked.inputs + (staked.nReward - valueOf shares) - halfOf (staked.inputs + (staked.nReward - valueOf shares)))
      else [CTxOut.empty, ⟨staked.inputs + (staked.nReward - valueOf shares), staked.scriptPubKeyOut⟩] ++ shares := by
  simp only [payStake, aggregateStakeOut_eq, hshares, h.vout, h.nCredit]
  cases hsplit : staked.fSplit with
  | true =>
    simp only [if_true, List.replicate, List.cons_append, List.nil_append, List.length_cons]
    by_cases hcount : shares.length = countStakeOut w.mapAddressPercent
    · rw [if_pos (by omega), if_pos hcount]
      rfl
    · rw [if_neg (by omega), if_neg hcount]
      rfl
  | false =>
    simp only [Bool.false_eq_true, if_false, List.replicate, List.cons_append, List.nil_append, List.length_cons]
    by_cases hcount : shares.length = countStakeOut w.mapAddressPercent + 1
    · rw [if_pos (by omega), if_pos hcount]
      rfl
    · rw [if_neg (by omega), if_neg hcount]
      rfl

/-- Outputs of the kernel's key with all that is left, and the shares. -/
theorem Staked.Pays.of_own (own : List CTxOut)
    (hspends : tx.vin.map CTxIn.prevout = staked.coins.map fun coin => ⟨coin.tx.getHash P, coin.n⟩)
    (hvout : tx.vout = CTxOut.empty :: (own ++ (accepted w.mapAddressPercent).map (shareOut staked.nReward)))
    (hown : ∀ txout ∈ own, txout.scriptPubKey = staked.scriptPubKeyOut)
    (hvalue : valueOf own = staked.inputs + (staked.nReward -
      valueOf ((accepted w.mapAddressPercent).map (shareOut staked.nReward)))) : staked.Pays P w tx where
  spends := hspends
  outputs := ⟨own, hvout, hown, by omega⟩
  total := by
    rw [hvout, valueOf_cons, valueOf_append, hvalue]
    show 0 + _ = _
    omega

theorem eq_zero_of_halfOf {nCredit : Int} (h : halfOf nCredit = nCredit) : nCredit = 0 := by
  have habs : nCredit.natAbs / 2 / 1000000 * 1000000 = nCredit.natAbs := by
    have h' := congrArg Int.natAbs h
    rw [halfOf, Int.natAbs_mul, Int.natAbs_tdiv, Int.natAbs_tdiv] at h'
    exact h'
  omega

/-- One output is left for the kernel's key where the next one is taken for
it too. -/
theorem pays_misread_iff {own share : CTxOut} {rest : List CTxOut} {nCredit : Int}
    (hspends : tx.vin.map CTxIn.prevout = staked.coins.map fun coin => ⟨coin.tx.getHash P, coin.n⟩)
    (hshares : (accepted w.mapAddressPercent).map (shareOut staked.nReward) = share :: rest)
    (hcredit : nCredit = staked.inputs + (staked.nReward - valueOf (share :: rest)))
    (hown : own = ⟨halfOf nCredit, staked.scriptPubKeyOut⟩)
    (hvout : tx.vout = CTxOut.empty :: own :: { share with nValue := nCredit - halfOf nCredit } :: rest) :
    staked.Pays P w tx ↔ nCredit = 0 ∧ share.nValue = 0 := by
  constructor
  · intro h
    obtain ⟨own', hvout', -, hvalue⟩ := h.outputs
    rw [hshares] at hvout' hvalue
    have hlength := congrArg List.length (hvout.symm.trans hvout')
    simp only [List.length_cons, List.length_append] at hlength
    obtain ⟨txout, rfl⟩ := List.length_eq_one_iff.mp (show own'.length = 1 by omega)
    rw [hvout] at hvout'
    simp only [List.cons_append, List.nil_append, List.cons.injEq, true_and] at hvout'
    obtain ⟨rfl, hshare, -⟩ := hvout'
    have hhalf : halfOf nCredit = nCredit := by
      rw [hown] at hvalue
      simp only [valueOf_cons, valueOf_nil] at hvalue hcredit
      omega
    have hzero := eq_zero_of_halfOf hhalf
    refine ⟨hzero, ?_⟩
    rw [← hshare, hhalf]
    exact Int.sub_self _
  · intro ⟨hzero, hshare⟩
    have hhalf : halfOf nCredit = 0 := by
      rw [hzero]
      rfl
    refine .of_own [own] hspends ?_ ?_ ?_
    · have hsame : { share with nValue := nCredit - halfOf nCredit } = share := by
        rw [hhalf, hzero]
        cases share
        cases hshare
        rfl
      rw [hvout, hshares, hsame]
      rfl
    · intro txout htxout
      rw [List.mem_singleton.mp htxout, hown]
    · rw [hown, hshares, ← hcredit, hzero]
      rfl

/-- What the outputs are worth is as they should be exactly where the number of
outputs tells whether the stake is split. -/
theorem pays_iff (hsound : staked.Sound P)
    (hspends : tx.vin.map CTxIn.prevout = staked.coins.map fun coin => ⟨coin.tx.getHash P, coin.n⟩)
    (hvout : tx.vout = payStake w staked) : staked.Pays P w tx ↔ staked.Told w := by
  obtain ⟨shares, hshares⟩ : ∃ shares, (accepted w.mapAddressPercent).map (shareOut staked.nReward) = shares := ⟨_, rfl⟩
  have hlength : (accepted w.mapAddressPercent).length = shares.length := by rw [← hshares, List.length_map]
  obtain ⟨nCredit, hcredit⟩ : ∃ nCredit, nCredit = staked.inputs + (staked.nReward - valueOf shares) := ⟨_, rfl⟩
  rw [payStake_eq hsound shares hshares, ← hcredit] at hvout
  unfold Staked.Told
  rw [hshares, hlength]
  cases hsplit : staked.fSplit with
  | true =>
    refine iff_of_true ?_ (.inl rfl)
    rw [hsplit, if_pos rfl] at hvout
    -- however the value is spread over the two, both have the kernel's script
    have htwo : ∀ a b, a + b = nCredit →
        tx.vout = [CTxOut.empty, ⟨a, staked.scriptPubKeyOut⟩, ⟨b, staked.scriptPubKeyOut⟩] ++ shares → staked.Pays P w tx := by
      intro a b hsum hboth
      refine .of_own [⟨a, staked.scriptPubKeyOut⟩, ⟨b, staked.scriptPubKeyOut⟩] hspends ?_ ?_ ?_
      · rw [hboth, hshares]
        rfl
      · simp
      · rw [hshares, ← hcredit, ← hsum]
        simp
    by_cases hcount : shares.length = countStakeOut w.mapAddressPercent
    · rw [if_pos hcount] at hvout
      exact htwo _ _ (by omega) hvout
    · rw [if_neg hcount] at hvout
      exact htwo _ _ (by omega) hvout
  | false =>
    rw [hsplit, if_neg Bool.false_ne_true] at hvout
    by_cases hcount : shares.length = countStakeOut w.mapAddressPercent + 1
    · rw [if_pos hcount] at hvout
      cases shares with
      | nil => cases hcount
      | cons share rest =>
        rw [pays_misread_iff hspends hshares hcredit rfl hvout]
        have hhead : (accepted w.mapAddressPercent).head?.map (shareOut staked.nReward) = some share := by
          rw [← List.head?_map, hshares]
          rfl
        obtain ⟨first, hfirst, rfl⟩ := Option.map_eq_some_iff.mp hhead
        rw [hfirst]
        constructor
        · intro ⟨hzero, hnone⟩
          refine .inr (.inr ⟨by omega, ?_⟩)
          intro share' hshare'
          obtain rfl := Option.mem_some_iff.mp hshare'
          exact hnone
        · rintro (hfalse | hne | ⟨hzero, hnone⟩)
          · cases hfalse
          · exact absurd hcount hne
          · exact ⟨by omega, hnone _ rfl⟩
    · rw [if_neg hcount] at hvout
      refine iff_of_true ?_ (.inr (.inl hcount))
      refine .of_own [⟨nCredit, staked.scriptPubKeyOut⟩] hspends ?_ ?_ ?_
      · rw [hvout, hshares]
        rfl
      · simp
      · rw [hshares, ← hcredit]
        simp

/-- **The coinstake pays every address its share and the rest to the kernel's
key** exactly where the number of outputs tells whether the stake is split. -/
theorem createCoinStake_pays_iff (hfind : findStake P env s w nBits nSearchInterval nFees txNew = .ok staked)
    (htx : createCoinStake P env s w nBits nSearchInterval nFees txNew = .ok tx) : staked.Pays P w tx ↔ staked.Told w := by
  have hsound := findStake_sound hfind
  simp only [createCoinStake, hfind, StateError.except_bind_ok, StateError.except_rejectIf_ok, StateError.except_pure_ok,
    Except.ok.injEq] at htx
  obtain ⟨_, rfl, signed, hsign, -, -, rfl⟩ := htx
  obtain ⟨hvout, hvin⟩ := signStake_ok _ _ _ hsign
  refine pays_iff hsound ?_ hvout
  rw [hvin]
  show staked.txNew.vin.map CTxIn.prevout = _
  rw [hsound.vin, List.map_map]
  rfl

end

/-! ## A share that gets half of the stake -/

namespace Sample

/-- The key of the staker, and its hash. -/
def stakerKey : List UInt8 := 2 :: List.replicate 32 9

def stakerID : CKeyID := .replicate 20 9

/-- Block `n` of a chain of blocks twenty minutes apart. The first pays a coin
to the staker. -/
def slowBlock (n : Nat) : CBlock :=
  mine true (100 + n) (if n = 1 then hashGenesisBlockTestNet else 99 + n) (start + 1200 * n)
    [coinbase n (start + 1200 * n) (if n = 1 then COIN else 0) (payToKeyID stakerID)]

/-- The node after eight blocks. -/
def staking : Node :=
  (List.range 8).foldl (fun s n => after s ((slowBlock (n + 1)).acceptBlock (params true) env)) (fresh true)

/-- The wallet of the staker, with shares for some addresses. -/
def staker (percents : List ℚ) : StakeWallet where
  nBalance := COIN
  setCoins := [⟨coinbase 1 (start + 1200) COIN (payToKeyID stakerID), 0⟩]
  getPubKey id := if id = stakerID then some stakerKey else none
  hash160 _ := stakerID
  signSignature _ _ _ := some [1]
  mapAddressPercent := percents.zipIdx.map fun (p, i) => ⟨some (.keyID (.replicate 20 (UInt8.ofNat i))), p⟩
  nReserveBalance := 0
  nSplitThreshold := 2000
  nCombineThreshold := 1000

def stake : CTransaction := ⟨1, start + 10800, [], [], 0⟩

/-- The bits of a target of proof-of-stake. -/
def stakeBits : Nat := 0x1e0fffff

/-- The coinstake of a wallet with some shares, and what it is made from. -/
def found (percents : List ℚ) : Except Reject Staked := findStake (params true) env staking (staker percents) stakeBits 60 CENT stake

def created (percents : List ℚ) : Except Reject CTransaction :=
  createCoinStake (params true) env staking (staker percents) stakeBits 60 CENT stake

theorem exists_ok {ε α : Type} {x : Except ε α} (h : x.isOk) : ∃ a, x = .ok a := by
  cases x with
  | error e => cases h
  | ok a => exact ⟨a, rfl⟩

end Sample

/-- Shares of 60% and 40%. -/
theorem createCoinStake_pays_iff_sample : ∃ staked tx, Sample.found [60, 40] = .ok staked ∧ Sample.created [60, 40] = .ok tx ∧
    staked.Pays (Sample.params true) (Sample.staker [60, 40]) tx := by
  obtain ⟨staked, hfind⟩ := Sample.exists_ok (x := Sample.found [60, 40]) (by decide +kernel)
  obtain ⟨tx, htx⟩ := Sample.exists_ok (x := Sample.created [60, 40]) (by decide +kernel)
  exact ⟨staked, tx, hfind, htx, (createCoinStake_pays_iff hfind htx).mpr (.inr (.inl (by decide +kernel)))⟩

/-- **Half of the stake is given away**: with shares of 60%, 50% and 40% the
first gets half of the staker's coin, and not its part of the reward. -/
theorem createCoinStake_misread : ∃ staked tx, Sample.found [60, 50, 40] = .ok staked ∧
    Sample.created [60, 50, 40] = .ok tx ∧ tx.vout.map CTxOut.nValue = [0, COIN / 2, COIN / 2, 400000] ∧
    (accepted (Sample.staker [60, 50, 40]).mapAddressPercent).map (fun share => rewardPC staked.nReward share.2) =
      [600000, 400000] ∧
    ¬ staked.Pays (Sample.params true) (Sample.staker [60, 50, 40]) tx := by
  obtain ⟨staked, hfind⟩ := Sample.exists_ok (x := Sample.found [60, 50, 40]) (by decide +kernel)
  obtain ⟨tx, htx⟩ := Sample.exists_ok (x := Sample.created [60, 50, 40]) (by decide +kernel)
  have hreward : (Sample.found [60, 50, 40]).toOption.map Staked.nReward = some CENT := by decide +kernel
  have hvalues : (Sample.created [60, 50, 40]).toOption.map (fun tx => tx.vout.map CTxOut.nValue) =
      some [0, COIN / 2, COIN / 2, 400000] := by decide +kernel
  rw [hfind] at hreward
  rw [htx] at hvalues
  have hreward : staked.nReward = CENT := Option.some.inj hreward
  have hvalues : tx.vout.map CTxOut.nValue = [0, COIN / 2, COIN / 2, 400000] := Option.some.inj hvalues
  have hshares : (accepted (Sample.staker [60, 50, 40]).mapAddressPercent).map (fun share => rewardPC CENT share.2) =
      [600000, 400000] := by decide +kernel
  refine ⟨staked, tx, hfind, htx, hvalues, by rw [hreward]; exact hshares, ?_⟩
  intro hpays
  obtain ⟨own, hvout, -, -⟩ := hpays.outputs
  have hends : [600000, 400000] <:+ [0, COIN / 2, COIN / 2, 400000] := by
    rw [← hvalues, ← hshares, hvout, hreward]
    simp only [List.map_cons, List.map_append, List.map_map]
    exact ⟨_ :: own.map CTxOut.nValue, rfl⟩
  exact absurd hends (by decide)

end Pinkcoin
