/-
What a wallet transaction is worth to the wallet: whose its outputs are, what it
takes from the wallet and what it brings, and the lists of what was received
and what was sent. A value is never out of range here, as the outputs of no
transaction that is accepted are.
-/
import Pinkcoin.CheckBlock
import Pinkcoin.Interp.Standard
import Pinkcoin.Wallet

namespace Pinkcoin

open CScript (getOp isPayToScriptHash OP_RETURN OP_PUSHDATA4)

/-! ## Whose an output is -/

/-- What decides whose an output is: the keys, the redeem scripts, and the
address book. Redeem scripts are followed so deep. -/
structure Ownership where
  hash160 : List UInt8 → Bytes 20
  haveKey : CKeyID → Bool
  getCScript : Bytes 20 → Option CScript
  mapAddressBook : CTxDestination → Option String
  nNested : Nat

namespace Ownership

variable (o : Ownership)

/-- `IsMine(keystore, dest)`. It asks for a redeem script only. -/
def isMineDest : CTxDestination → Bool
  | .keyID keyID => o.haveKey keyID
  | .scriptID scriptID => (o.getCScript scriptID).isSome

/-- `IsMine(keystore, scriptPubKey)`. -/
def isMineScript : Nat → CScript → Bool
  | 0, _ => false
  | depth + 1, scriptPubKey =>
    match solver scriptPubKey with
    | (true, .TX_PUBKEY, vSolutions) => o.haveKey (o.hash160 (vSolutions.headD []))
    | (true, .TX_PUBKEYHASH, vSolutions) => o.haveKey (uint160OfVch (vSolutions.headD []))
    | (true, .TX_SCRIPTHASH, vSolutions) =>
      match o.getCScript (uint160OfVch (vSolutions.headD [])) with
      | none => false
      | some subscript => isMineScript depth subscript
    | (true, .TX_MULTISIG, vSolutions) => ((vSolutions.drop 1).dropLast).all fun vch => o.haveKey (o.hash160 vch)
    | _ => false

def isMine (txout : CTxOut) : Bool := o.isMineScript o.nNested txout.scriptPubKey

/-- `ExtractDestination`. -/
def address (txout : CTxOut) : Option CTxDestination := extractDestination o.hash160 txout.scriptPubKey

/-- `IsChange`. -/
def isChange (txout : CTxOut) : Bool :=
  (o.address txout).any fun address => o.isMineDest address && (o.mapAddressBook address).isNone

end Ownership

/-- The first operation is `OP_RETURN`. -/
def CTxOut.isReturn (txout : CTxOut) : Bool := (getOp txout.scriptPubKey).any fun op => decide (op.1 = OP_RETURN)

/-- An output that `GetAmounts` skips. -/
def CTxOut.isSkipped (txout : CTxOut) : Bool := decide (txout.scriptPubKey = []) || txout.isReturn

/-! ## Transactions -/

/-- The transactions of the wallet, with what the chain and the clock decide
about them. `isConfirmed` is the walk over the supporting transactions. -/
structure WalletBooks where
  own : Ownership
  mapWallet : Map Uint256 CWalletTx
  nCoinbaseMaturity : Int
  fConfChange : Bool
  isFinal : CWalletTx → Bool
  getDepthInMainChain : CWalletTx → Int
  isConfirmed : CWalletTx → Bool

/-- What `GetAmounts` returns. -/
structure Amounts where
  listReceived : List (Option CTxDestination × Int)
  listSent : List (Option CTxDestination × Int)
  nFee : Int

namespace WalletBooks

variable (b : WalletBooks) (wtx : CWalletTx)

/-- The output that an input spends, where the wallet has its transaction. -/
def spends (txin : CTxIn) : Option CTxOut :=
  (b.mapWallet.lookup txin.prevout.hash).bind fun prev => prev.tx.vout[txin.prevout.n]?

/-- `IsMine(txin)`. -/
def isMineIn (txin : CTxIn) : Bool := (b.spends txin).any b.own.isMine

/-- `GetDebit(txin)`. -/
def getDebitIn (txin : CTxIn) : Int :=
  match b.spends txin with
  | none => 0
  | some txout => if b.own.isMine txout then txout.nValue else 0

/-- `GetDebit(tx)`. -/
def getDebit (tx : CTransaction) : Int := (tx.vin.map b.getDebitIn).sum

/-- The sum of the outputs of some kind. -/
def sumOf (p : CTxOut → Bool) (vout : List CTxOut) : Int :=
  (vout.map fun txout => if p txout then txout.nValue else 0).sum

/-- `GetCredit(tx)`. -/
def getCreditTx (tx : CTransaction) : Int := sumOf b.own.isMine tx.vout

/-- `GetChange(tx)`. -/
def getChange (tx : CTransaction) : Int := sumOf b.own.isChange tx.vout

def isFromMe : Bool := decide (0 < b.getDebit wtx.tx)

def isGenerated : Bool := decide (wtx.tx.isCoinBase ∨ wtx.tx.isCoinStake)

def getBlocksToMaturity : Int :=
  if ¬ isGenerated wtx then 0 else max 0 (b.nCoinbaseMaturity + 10 - b.getDepthInMainChain wtx)

/-- `IsTrusted`. -/
def isTrusted : Bool :=
  if ¬ b.isFinal wtx then false
  else if 1 ≤ b.getDepthInMainChain wtx then true
  else if b.getDepthInMainChain wtx < 0 then false
  else if b.fConfChange ∨ ¬ b.isFromMe wtx then false
  else b.isConfirmed wtx

/-- A generation that is not safely deep enough. -/
def isImmature : Bool := isGenerated wtx && decide (0 < b.getBlocksToMaturity wtx)

/-- `GetCredit()`. -/
def getCredit : Int := if b.isImmature wtx then 0 else b.getCreditTx wtx.tx

/-- `GetAvailableCredit()`. -/
def getAvailableCredit : Int :=
  if b.isImmature wtx then 0
  else (wtx.tx.vout.zipIdx.map fun out => if ¬ wtx.isSpent out.2 ∧ b.own.isMine out.1 then out.1.nValue else 0).sum

/-! ## GetAmounts -/

/-- The body of the loop over the outputs. -/
def addOutput (nDebit : Int) (a : Amounts) (txout : CTxOut) : Amounts :=
  if txout.isSkipped then a
  else
    let fIsMine := b.own.isMine txout
    if if 0 < nDebit then b.own.isChange txout else !fIsMine then a
    else
      let entry := (b.own.address txout, txout.nValue)
      let a := if 0 < nDebit then { a with listSent := a.listSent ++ [entry] } else a
      if fIsMine then { a with listReceived := a.listReceived ++ [entry] } else a

/-- `GetAmounts`. -/
def getAmounts : Amounts :=
  let nDebit := b.getDebit wtx.tx
  let nFee := if 0 < nDebit then nDebit - wtx.tx.getValueOut else 0
  wtx.tx.vout.foldl (b.addOutput nDebit) ⟨[], [], nFee⟩

end WalletBooks

/-! ## Outputs that are skipped -/

section

variable {o : Ownership} {txout : CTxOut}

theorem getOp_of_ops {script : CScript} {opcode : Nat} {vch : List UInt8} {ops : List (Nat × List UInt8)}
    (h : Ops script ((opcode, vch) :: ops)) : ∃ pc, getOp script = some (opcode, vch, pc) := by
  obtain ⟨pc, hop, -⟩ := h.tail
  exact ⟨pc, hop⟩

/-- **A script that is skipped has none of the forms that have an owner**, as
its first operation is another. -/
theorem not_solved_of_skipped (h : txout.isSkipped = true) {type : TxnOutType} {found : List (List UInt8)}
    (hsolved : solver txout.scriptPubKey = (true, type, found)) : type = .TX_NULL_DATA ∨ type = .TX_NONSTANDARD := by
  have hno : ∀ opcode vch ops, Ops txout.scriptPubKey ((opcode, vch) :: ops) →
      opcode ≠ OP_RETURN ∨ vch ≠ [] → False := by
    intro opcode vch ops hops hother
    obtain ⟨pc, hop⟩ := getOp_of_ops hops
    rcases Bool.or_eq_true_iff.mp h with hempty | hreturn
    · rw [of_decide_eq_true hempty] at hop
      exact nomatch hop
    · rw [CTxOut.isReturn, hop] at hreturn
      have hopcode : opcode = OP_RETURN := of_decide_eq_true hreturn
      have hdata : vch = [] := data_nil hop (by rw [hopcode]; decide)
      rcases hother with hother | hother
      · exact hother hopcode
      · exact hother hdata
  cases type with
  | TX_NONSTANDARD => exact .inr rfl
  | TX_NULL_DATA => exact .inl rfl
  | TX_PUBKEY =>
    obtain ⟨opcode, vchPubKey, -, hlength, -, hops⟩ := solver_pubKey hsolved
    refine (hno _ _ _ hops (.inr fun hempty => ?_)).elim
    rw [hempty] at hlength
    exact absurd hlength (by decide)
  | TX_PUBKEYHASH =>
    obtain ⟨opcode, hash, -, -, hops⟩ := solver_pubKeyHash hsolved
    exact (hno _ _ _ hops (.inl (by decide))).elim
  | TX_SCRIPTHASH =>
    obtain ⟨hhash, -⟩ := solver_scriptHash hsolved
    exact (hno _ _ _ (ops_payToScriptHash hhash).2 (.inl (by decide))).elim
  | TX_MULTISIG =>
    obtain ⟨m, keys, -, hm, hle, hmax, -, hops⟩ := solver_multisig hsolved
    refine (hno _ _ _ hops (.inl fun hreturn => ?_)).elim
    have hone : CScript.OP_1 = 81 := rfl
    have hreturn' : OP_RETURN = 106 := rfl
    omega

theorem isMine_of_skipped (h : txout.isSkipped = true) : o.isMine txout = false := by
  unfold Ownership.isMine
  cases o.nNested with
  | zero => rfl
  | succ depth =>
    unfold Ownership.isMineScript
    split
    next hsolved => rcases not_solved_of_skipped h hsolved with hno | hno <;> exact nomatch hno
    next hsolved => rcases not_solved_of_skipped h hsolved with hno | hno <;> exact nomatch hno
    next hsolved => rcases not_solved_of_skipped h hsolved with hno | hno <;> exact nomatch hno
    next hsolved => rcases not_solved_of_skipped h hsolved with hno | hno <;> exact nomatch hno
    next => rfl

end

/-! ## Sums -/

namespace WalletBooks

theorem sumOf_cons (p : CTxOut → Bool) (txout : CTxOut) (vout : List CTxOut) :
    sumOf p (txout :: vout) = (if p txout then txout.nValue else 0) + sumOf p vout := List.sum_cons

variable {b : WalletBooks} {wtx : CWalletTx} {nDebit : Int}

theorem getDebit_nonneg (h : ∀ hash wtx, b.mapWallet.lookup hash = some wtx → ∀ txout ∈ wtx.tx.vout, 0 ≤ txout.nValue)
    (tx : CTransaction) : 0 ≤ b.getDebit tx := by
  refine List.sum_nonneg fun n hn => ?_
  obtain ⟨txin, -, rfl⟩ := List.mem_map.mp hn
  unfold getDebitIn spends
  cases hlookup : b.mapWallet.lookup txin.prevout.hash with
  | none => exact Int.le_refl 0
  | some wtx =>
    rw [Option.bind_some]
    cases hout : wtx.tx.vout[txin.prevout.n]? with
    | none => exact Int.le_refl 0
    | some txout =>
      dsimp only
      split
      · exact h _ wtx hlookup txout (List.mem_of_getElem? hout)
      · exact Int.le_refl 0

/-- The received outputs. -/
def isReceived (b : WalletBooks) (nDebit : Int) (txout : CTxOut) : Bool :=
  b.own.isMine txout && !(decide (0 < nDebit) && b.own.isChange txout)

/-- The sent ones. -/
def isSent (b : WalletBooks) (nDebit : Int) (txout : CTxOut) : Bool :=
  decide (0 < nDebit) && !txout.isSkipped && !b.own.isChange txout

/-- What one output adds to the lists. -/
theorem addOutput_eq (a : Amounts) (txout : CTxOut) : b.addOutput nDebit a txout =
    { listReceived := a.listReceived ++ if b.isReceived nDebit txout then [(b.own.address txout, txout.nValue)] else []
      listSent := a.listSent ++ if b.isSent nDebit txout then [(b.own.address txout, txout.nValue)] else []
      nFee := a.nFee } := by
  unfold addOutput isReceived isSent
  by_cases hskip : txout.isSkipped = true
  · simp [hskip, isMine_of_skipped (o := b.own) hskip]
  · by_cases hdebit : 0 < nDebit <;> by_cases hchange : b.own.isChange txout = true <;>
      by_cases hmine : b.own.isMine txout = true <;> simp [hskip, hdebit, hchange, hmine]

theorem foldl_addOutput (vout : List CTxOut) (a : Amounts) : vout.foldl (b.addOutput nDebit) a =
    { listReceived := a.listReceived ++
        (vout.filter (b.isReceived nDebit)).map fun txout => (b.own.address txout, txout.nValue)
      listSent := a.listSent ++ (vout.filter (b.isSent nDebit)).map fun txout => (b.own.address txout, txout.nValue)
      nFee := a.nFee } := by
  induction vout generalizing a with
  | nil => simp
  | cons txout vout ih =>
    rw [List.foldl_cons, addOutput_eq, ih]
    by_cases hreceived : b.isReceived nDebit txout = true <;> by_cases hsent : b.isSent nDebit txout = true <;>
      simp [hreceived, hsent]

/-- **What `GetAmounts` returns**: the received outputs and the sent ones, in
their order. -/
theorem getAmounts_eq (b : WalletBooks) (wtx : CWalletTx) : b.getAmounts wtx =
    { listReceived :=
        (wtx.tx.vout.filter (b.isReceived (b.getDebit wtx.tx))).map fun txout => (b.own.address txout, txout.nValue)
      listSent :=
        (wtx.tx.vout.filter (b.isSent (b.getDebit wtx.tx))).map fun txout => (b.own.address txout, txout.nValue)
      nFee := if 0 < b.getDebit wtx.tx then b.getDebit wtx.tx - wtx.tx.getValueOut else 0 } := by
  unfold getAmounts
  rw [foldl_addOutput]
  simp

theorem sum_filter (p : CTxOut → Bool) (o : Ownership) (vout : List CTxOut) :
    (((vout.filter p).map fun txout => (o.address txout, txout.nValue)).map Prod.snd).sum = sumOf p vout := by
  induction vout with
  | nil => rfl
  | cons txout vout ih =>
    rw [sumOf_cons, ← ih]
    by_cases hp : p txout = true <;> simp [hp]

theorem sum_received (b : WalletBooks) (wtx : CWalletTx) :
    ((b.getAmounts wtx).listReceived.map Prod.snd).sum = sumOf (b.isReceived (b.getDebit wtx.tx)) wtx.tx.vout := by
  rw [getAmounts_eq, sum_filter]

theorem sum_sent (b : WalletBooks) (wtx : CWalletTx) :
    ((b.getAmounts wtx).listSent.map Prod.snd).sum = sumOf (b.isSent (b.getDebit wtx.tx)) wtx.tx.vout := by
  rw [getAmounts_eq, sum_filter]

end WalletBooks

end Pinkcoin
