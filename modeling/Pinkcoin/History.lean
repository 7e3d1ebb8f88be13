/-
The history that is shown of a wallet transaction: the records of the window,
and the entries of the list of transactions.
-/
import Pinkcoin.Balances

namespace Pinkcoin

/-! ## Records -/

inductive RecordType
  | other
  | generated
  | stakeMint
  | sendToAddress
  | sendToOther
  | recvWithAddress
  | recvFromOther
  | sendToSelf
  deriving DecidableEq

/-- The text of an address, or what the transaction says in its place. -/
inductive RecordAddress
  | dest (address : CTxDestination)
  | text (s : String)
  deriving DecidableEq

structure TransactionRecord where
  hash : Uint256
  time : Int
  type : RecordType
  address : RecordAddress
  note : String
  debit : Int
  credit : Int
  idx : Nat
  deriving DecidableEq

/-- What the list of transactions has of a payment. -/
inductive EntryCategory
  | send
  | orphan
  | immature
  | generate
  | receive
  deriving DecidableEq

structure TransactionEntry where
  account : String
  address : Option CTxDestination
  category : EntryCategory
  amount : Int
  fee : Option Int
  deriving DecidableEq

namespace WalletBooks

section

variable (b : WalletBooks) (hash : Uint256) (nTime : Int) (wtx : CWalletTx)

/-- `mapValue[key]`, of the copy. -/
def mapValueAt (key : String) : String := (wtx.mapValue.lookup key).getD ""

/-- The note of an output. -/
def noteAt (nOut : Nat) : String := mapValueAt wtx s!"n_{nOut}"

/-- The address of an output, or what the transaction says. -/
def recordAddress (txout : CTxOut) (otherwise : String) : RecordAddress :=
  ((b.own.address txout).map RecordAddress.dest).getD (.text otherwise)

/-- The body of the loop over the outputs that are credited. That for a
coinstake is never reached. -/
def creditRecord (parts : List TransactionRecord) (out : CTxOut × Nat) : List TransactionRecord :=
  if b.own.isMine out.1 then
    let fAddress := (b.own.address out.1).any b.own.isMineDest
    parts ++ [{
      hash := hash
      time := nTime
      type := if wtx.tx.isCoinBase then .generated else if fAddress then .recvWithAddress else .recvFromOther
      address := if fAddress then b.recordAddress out.1 "" else .text (mapValueAt wtx "from")
      note := noteAt wtx out.2
      debit := 0
      credit := out.1.nValue
      idx := parts.length }]
  else parts

/-- The body of the loop over the outputs that are debited, with the fee that
goes to the first. -/
def debitRecord (s : List TransactionRecord × Int) (out : CTxOut × Nat) : List TransactionRecord × Int :=
  let (parts, nTxFee) := s
  if out.1.isReturn then s
  else if b.own.isMine out.1 then s
  else
    (parts ++ [{
      hash := hash
      time := nTime
      type := if (b.own.address out.1).isSome then .sendToAddress else .sendToOther
      address := b.recordAddress out.1 (mapValueAt wtx "to")
      note := noteAt wtx out.2
      debit := -(if 0 < nTxFee then out.1.nValue + nTxFee else out.1.nValue)
      credit := 0
      idx := parts.length }],
     if 0 < nTxFee then 0 else nTxFee)

def fAllFromMe : Bool := wtx.tx.vin.all b.isMineIn

def fAllToMe : Bool := wtx.tx.vout.all fun txout => txout.isReturn || b.own.isMine txout

/-- The address of the output at an index. -/
def addressAt (nOut : Nat) : RecordAddress :=
  ((wtx.tx.vout[nOut]?).map fun txout => b.recordAddress txout "").getD (.text "")

/-- `TransactionRecord::decomposeTransaction`. -/
def decomposeTransaction : List TransactionRecord :=
  let nCredit := b.getCredit wtx
  let nDebit := b.getDebit wtx.tx
  let nNet := nCredit - nDebit
  if wtx.tx.isCoinStake then
    [{ hash := hash, time := nTime, type := .stakeMint, address := b.addressAt wtx 1, note := "", debit := -nDebit,
       credit := wtx.tx.getValueOut, idx := 0 }]
  else if 0 < nNet ∨ wtx.tx.isCoinBase then wtx.tx.vout.zipIdx.foldl (b.creditRecord hash nTime wtx) []
  else if b.fAllFromMe wtx ∧ b.fAllToMe wtx then
    -- payment to self
    let nChange := b.getChange wtx.tx
    [{ hash := hash, time := nTime, type := .sendToSelf, address := b.addressAt wtx 0,
       note := ((wtx.mapValue.find? fun mi => mi.1.toList.take 2 = ['n', '_']).map Prod.snd).getD "",
       debit := -(nDebit - nChange), credit := nCredit - nChange, idx := 0 }]
  else if b.fAllFromMe wtx then
    (wtx.tx.vout.zipIdx.foldl (b.debitRecord hash nTime wtx) ([], nDebit - wtx.tx.getValueOut)).1
  else
    -- mixed debit transaction, can't break down payees
    [{ hash := hash, time := nTime, type := .other, address := .text "", note := "", debit := nNet, credit := 0,
       idx := 0 }]

/-- The account of a destination. -/
def accountOf (address : Option CTxDestination) : String := (address.bind b.own.mapAddressBook).getD ""

/-- What the received outputs of a transaction are listed as. -/
def receivedCategory : EntryCategory :=
  if isGenerated wtx then
    if b.getDepthInMainChain wtx < 1 then .orphan
    else if 0 < b.getBlocksToMaturity wtx then .immature
    else .generate
  else .receive

/-- The first part of `ListTransactions`, for the account a transaction is from. -/
def sentEntries (strSentAccount strAccount : String) : List TransactionEntry :=
  let a := b.getAmounts wtx
  if ¬ wtx.tx.isCoinStake ∧ (a.listSent ≠ [] ∨ a.nFee ≠ 0) ∧ (strAccount = "*" ∨ strAccount = strSentAccount) then
    a.listSent.map fun s => ⟨strSentAccount, s.1, .send, -s.2, some (-a.nFee)⟩
  else []

/-- The second part. Of a coinstake only one output is listed. -/
def receivedEntries (strAccount : String) (nMinDepth : Int) : List TransactionEntry :=
  let a := b.getAmounts wtx
  if a.listReceived ≠ [] ∧ nMinDepth ≤ b.getDepthInMainChain wtx then
    let shown := a.listReceived.filter fun r => decide (strAccount = "*" ∨ b.accountOf r.1 = strAccount)
    if wtx.tx.isCoinStake then
      (shown.take 1).map fun r => ⟨b.accountOf r.1, r.1, b.receivedCategory wtx, -a.nFee, none⟩
    else shown.map fun r => ⟨b.accountOf r.1, r.1, b.receivedCategory wtx, r.2, none⟩
  else []

/-- `ListTransactions`. What is the same for all entries is left out. -/
def listTransactions (strSentAccount strAccount : String) (nMinDepth : Int) : List TransactionEntry :=
  b.sentEntries wtx strSentAccount strAccount ++ b.receivedEntries wtx strAccount nMinDepth

/-- The fee that is shown with the payments that are sent. -/
def shownFee (entries : List TransactionEntry) : Int := ((entries.filterMap TransactionEntry.fee).head?).getD 0

/-- An output that is neither a note nor the wallet's: one that is debited. -/
def isPaid (txout : CTxOut) : Bool := !txout.isReturn && !b.own.isMine txout

/-- An output that is not listed, and not the wallet's. -/
def isUnlisted (txout : CTxOut) : Bool := txout.isSkipped || (b.own.isChange txout && !b.own.isMine txout)

/-- **What the chain promises of a transaction of the wallet**: no value is
negative, and one that is not generated pays no more than it takes. -/
structure Settled : Prop where
  values : ∀ hash wtx', b.mapWallet.lookup hash = some wtx' → ∀ txout ∈ wtx'.tx.vout, 0 ≤ txout.nValue
  paid : isGenerated wtx = false → b.fAllFromMe wtx = true → wtx.tx.getValueOut ≤ b.getDebit wtx.tx

/-- **When a coinstake is shown for what it is worth**: all it pays is the
wallet's, and the wallet staked it or has nothing of it. -/
def StakeShown : Prop :=
  sumOf (fun txout => !b.own.isMine txout) wtx.tx.vout = 0 ∧ (0 < b.getDebit wtx.tx ∨ b.getCreditTx wtx.tx = 0)

/-- **When a payment is**: one that brings more than it takes takes nothing; the
notes of one that pays others are worth nothing; and so is what is not listed
of one that is. -/
structure PaymentShown : Prop where
  gain : b.getDebit wtx.tx < b.getCreditTx wtx.tx ∨ wtx.tx.isCoinBase → b.getDebit wtx.tx = 0
  notes : ¬ (b.getDebit wtx.tx < b.getCreditTx wtx.tx ∨ wtx.tx.isCoinBase) → b.fAllFromMe wtx = true →
    b.fAllToMe wtx = false → sumOf CTxOut.isReturn wtx.tx.vout = 0
  listed : 0 < b.getDebit wtx.tx → wtx.tx.vout.any (b.isSent (b.getDebit wtx.tx)) = true →
    sumOf b.isUnlisted wtx.tx.vout = 0

def Shown : Prop := if wtx.tx.isCoinStake then b.StakeShown wtx else b.PaymentShown wtx

end

/-! ## Sums of records and entries -/

def recordSum (parts : List TransactionRecord) : Int := (parts.map fun r => r.credit + r.debit).sum

def entrySum (entries : List TransactionEntry) : Int := (entries.map TransactionEntry.amount).sum

variable {b : WalletBooks} {hash : Uint256} {nTime : Int} {wtx : CWalletTx}

theorem recordSum_append (parts : List TransactionRecord) (r : TransactionRecord) :
    recordSum (parts ++ [r]) = recordSum parts + (r.credit + r.debit) := by
  simp [recordSum]

theorem recordSum_singleton (r : TransactionRecord) : recordSum [r] = r.credit + r.debit := by simp [recordSum]

theorem entrySum_append (entries entries' : List TransactionEntry) :
    entrySum (entries ++ entries') = entrySum entries + entrySum entries' := by
  simp [entrySum]

/-- The two kinds of outputs of a partition. -/
theorem sumOf_add {p q r : CTxOut → Bool} {vout : List CTxOut}
    (h : ∀ txout ∈ vout, (r txout = true ↔ p txout = true ∨ q txout = true) ∧ (p txout = true → q txout = false)) :
    sumOf r vout = sumOf p vout + sumOf q vout := by
  induction vout with
  | nil => rfl
  | cons txout vout ih =>
    obtain ⟨hr, hpq⟩ := h txout List.mem_cons_self
    have hrest := ih fun txout' hmem => h txout' (List.mem_cons_of_mem _ hmem)
    rw [sumOf_cons, sumOf_cons, sumOf_cons, hrest]
    cases hp : p txout with
    | true =>
      rw [hpq hp, hr.mpr (.inl hp)]
      simp
      omega
    | false =>
      have heq : r txout = q txout := by
        rw [hp] at hr
        cases hq : q txout <;> simp [hq] at hr <;> simp [hr]
      rw [heq]
      simp
      omega

/-- A loop over the outputs in which each adds its value, when it is of some
kind. -/
theorem foldl_zipIdx_sum {α : Type} {step : α → CTxOut × Nat → α} (m : α → Int) {p : CTxOut → Bool}
    (h : ∀ s out, m (step s out) = m s + if p out.1 then out.1.nValue else 0) (vout : List CTxOut) (k : Nat)
    (s : α) : m ((vout.zipIdx k).foldl step s) = m s + sumOf p vout := by
  induction vout generalizing k s with
  | nil => exact (Int.add_zero _).symm
  | cons txout vout ih =>
    rw [List.zipIdx_cons, List.foldl_cons, ih, h, sumOf_cons]
    exact Int.add_assoc ..

/-! ## The records -/

theorem recordSum_creditRecord (parts : List TransactionRecord) (out : CTxOut × Nat) :
    recordSum (b.creditRecord hash nTime wtx parts out) =
      recordSum parts + if b.own.isMine out.1 then out.1.nValue else 0 := by
  unfold creditRecord
  by_cases hmine : b.own.isMine out.1 = true
  · rw [if_pos hmine, if_pos hmine, recordSum_append]
    simp
  · rw [if_neg hmine, if_neg hmine, Int.add_zero]

/-- What is left of the fee, less the records, grows by what is paid. -/
theorem debitRecord_measure (b : WalletBooks) (hash : Uint256) (nTime : Int) (wtx : CWalletTx)
    (s : List TransactionRecord × Int) (out : CTxOut × Nat) :
    (b.debitRecord hash nTime wtx s out).2 - recordSum (b.debitRecord hash nTime wtx s out).1 =
      s.2 - recordSum s.1 + if b.isPaid out.1 then out.1.nValue else 0 := by
  unfold debitRecord isPaid
  by_cases hreturn : out.1.isReturn = true
  · simp [hreturn]
  by_cases hmine : b.own.isMine out.1 = true
  · simp [hmine]
  simp only [hreturn, hmine, if_false, Bool.false_eq_true, recordSum_append]
  by_cases hfee : 0 < s.2 <;> simp [hfee] <;> omega

theorem debitRecord_snd (b : WalletBooks) (hash : Uint256) (nTime : Int) (wtx : CWalletTx)
    (s : List TransactionRecord × Int) (out : CTxOut × Nat) :
    (b.debitRecord hash nTime wtx s out).2 = if b.isPaid out.1 ∧ 0 < s.2 then 0 else s.2 := by
  unfold debitRecord isPaid
  by_cases hreturn : out.1.isReturn = true
  · simp [hreturn]
  by_cases hmine : b.own.isMine out.1 = true <;> simp [hreturn, hmine]

/-- Once something is paid no fee is left. -/
theorem foldl_debitRecord_snd (b : WalletBooks) (hash : Uint256) (nTime : Int) (wtx : CWalletTx) (vout : List CTxOut)
    (k : Nat) {s : List TransactionRecord × Int} (hfee : 0 ≤ s.2) :
    ((vout.zipIdx k).foldl (b.debitRecord hash nTime wtx) s).2 = if vout.any b.isPaid then 0 else s.2 := by
  induction vout generalizing k s with
  | nil => rfl
  | cons txout vout ih =>
    have hstep := debitRecord_snd b hash nTime wtx s (txout, k)
    rw [List.zipIdx_cons, List.foldl_cons, List.any_cons, ih, hstep]
    · by_cases hpaid : b.isPaid txout = true
      · by_cases hpos : 0 < s.2
        · simp [hpaid, hpos]
        · simp [hpaid, hpos]
          omega
      · simp [hpaid]
    · rw [hstep]
      split <;> omega

theorem any_isPaid : wtx.tx.vout.any b.isPaid = !b.fAllToMe wtx := by
  unfold fAllToMe isPaid
  rw [List.not_all_eq_any_not]
  congr 1
  funext txout
  cases txout.isReturn <;> rfl

/-- A note is nobody's. -/
theorem isMine_of_return {txout : CTxOut} (h : txout.isReturn = true) : b.own.isMine txout = false :=
  isMine_of_skipped (Bool.or_eq_true_iff.mpr (.inr h))

/-- All that is paid, noted or the wallet's. -/
theorem valueOut_eq (b : WalletBooks) (wtx : CWalletTx) : wtx.tx.getValueOut =
    sumOf b.isPaid wtx.tx.vout + (sumOf CTxOut.isReturn wtx.tx.vout + b.getCreditTx wtx.tx) := by
  have hrest : sumOf (fun txout => txout.isReturn || b.own.isMine txout) wtx.tx.vout =
      sumOf CTxOut.isReturn wtx.tx.vout + b.getCreditTx wtx.tx :=
    sumOf_add fun txout _ => ⟨Bool.or_eq_true_iff, isMine_of_return⟩
  rw [← hrest]
  refine sumOf_add (r := fun _ => true) fun txout _ => ?_
  unfold isPaid
  cases txout.isReturn <;> cases b.own.isMine txout <;> simp

/-- **The records of a payment to others** lack the notes. -/
theorem recordSum_debits (hash : Uint256) (nTime : Int) (hfee : wtx.tx.getValueOut ≤ b.getDebit wtx.tx)
    (hpays : b.fAllToMe wtx = false) :
    recordSum (wtx.tx.vout.zipIdx.foldl (b.debitRecord hash nTime wtx)
        ([], b.getDebit wtx.tx - wtx.tx.getValueOut)).1 =
      b.getCreditTx wtx.tx - b.getDebit wtx.tx + sumOf CTxOut.isReturn wtx.tx.vout := by
  have hsum := foldl_zipIdx_sum (fun s => s.2 - recordSum s.1) (debitRecord_measure b hash nTime wtx) wtx.tx.vout 0
    ([], b.getDebit wtx.tx - wtx.tx.getValueOut)
  have hleft := foldl_debitRecord_snd b hash nTime wtx wtx.tx.vout 0
    (s := ([], b.getDebit wtx.tx - wtx.tx.getValueOut)) (by dsimp only; omega)
  rw [any_isPaid, hpays, Bool.not_false, if_pos rfl] at hleft
  have hout := valueOut_eq b wtx
  have hnil : recordSum [] = 0 := rfl
  dsimp only at hsum
  omega

/-- **What the records add up to**, for a coinstake and for the others. -/
theorem recordSum_stake (hstake : wtx.tx.isCoinStake) (hcredit : b.getCredit wtx = b.getCreditTx wtx.tx) :
    recordSum (b.decomposeTransaction hash nTime wtx) = b.getCredit wtx - b.getDebit wtx.tx ↔
      sumOf (fun txout => !b.own.isMine txout) wtx.tx.vout = 0 := by
  have hout : wtx.tx.getValueOut = b.getCreditTx wtx.tx + sumOf (fun txout => !b.own.isMine txout) wtx.tx.vout :=
    sumOf_add (r := fun _ => true) fun txout _ => by cases b.own.isMine txout <;> simp
  unfold decomposeTransaction
  dsimp only
  rw [if_pos hstake, recordSum_singleton, hcredit, hout]
  dsimp only
  omega

theorem recordSum_payment (hsettled : b.Settled wtx) (hstake : ¬ wtx.tx.isCoinStake)
    (hcredit : b.getCredit wtx = b.getCreditTx wtx.tx) :
    recordSum (b.decomposeTransaction hash nTime wtx) = b.getCredit wtx - b.getDebit wtx.tx ↔
      ((b.getDebit wtx.tx < b.getCreditTx wtx.tx ∨ wtx.tx.isCoinBase → b.getDebit wtx.tx = 0) ∧
        (¬ (b.getDebit wtx.tx < b.getCreditTx wtx.tx ∨ wtx.tx.isCoinBase) → b.fAllFromMe wtx = true →
          b.fAllToMe wtx = false → sumOf CTxOut.isReturn wtx.tx.vout = 0)) := by
  unfold decomposeTransaction
  dsimp only
  rw [if_neg hstake, hcredit]
  by_cases hgain : b.getDebit wtx.tx < b.getCreditTx wtx.tx ∨ wtx.tx.isCoinBase
  · -- the own outputs are credited, and nothing is debited
    have hnet : 0 < b.getCreditTx wtx.tx - b.getDebit wtx.tx ∨ wtx.tx.isCoinBase := hgain.imp_left (by omega)
    rw [if_pos hnet, foldl_zipIdx_sum recordSum recordSum_creditRecord]
    have hnil : recordSum [] = 0 := rfl
    have hown : sumOf b.own.isMine wtx.tx.vout = b.getCreditTx wtx.tx := rfl
    simp only [hgain, forall_const, not_true_eq_false, false_implies, and_true]
    omega
  · have hnet : ¬ (0 < b.getCreditTx wtx.tx - b.getDebit wtx.tx ∨ wtx.tx.isCoinBase) :=
      fun h => hgain (h.imp_left (by omega))
    rw [if_neg hnet]
    simp only [hgain, false_implies, not_false_eq_true, forall_const, true_and]
    cases hfrom : b.fAllFromMe wtx with
    | false =>
      simp [recordSum_singleton]
    | true =>
      cases hto : b.fAllToMe wtx with
      | true =>
        simp [recordSum_singleton]
      | false =>
        have hgenerated : isGenerated wtx = false :=
          decide_eq_false fun h => h.elim (fun h => hgain (.inr h)) hstake
        have hsum := recordSum_debits hash nTime (hsettled.paid hgenerated hfrom) hto
        simp [hsum]

/-! ## The entries -/

section

variable {strSentAccount : String} {nMinDepth : Int}

/-- All the sent outputs are listed, but not those of a coinstake. -/
theorem sentEntries_all : b.sentEntries wtx strSentAccount "*" = if wtx.tx.isCoinStake then []
    else (b.getAmounts wtx).listSent.map fun s =>
      ⟨strSentAccount, s.1, .send, -s.2, some (-(b.getAmounts wtx).nFee)⟩ := by
  unfold sentEntries
  by_cases hstake : wtx.tx.isCoinStake
  · simp [hstake]
  · cases hsent : (b.getAmounts wtx).listSent with
    | nil => simp [hstake, hsent]
    | cons s sent => simp [hstake, hsent]

/-- All the received outputs are listed, and the first of a coinstake. -/
theorem receivedEntries_all (hmin : nMinDepth ≤ b.getDepthInMainChain wtx) : b.receivedEntries wtx "*" nMinDepth =
    if wtx.tx.isCoinStake then ((b.getAmounts wtx).listReceived.take 1).map fun r =>
      ⟨b.accountOf r.1, r.1, b.receivedCategory wtx, -(b.getAmounts wtx).nFee, none⟩
    else (b.getAmounts wtx).listReceived.map fun r =>
      ⟨b.accountOf r.1, r.1, b.receivedCategory wtx, r.2, none⟩ := by
  unfold receivedEntries
  cases hreceived : (b.getAmounts wtx).listReceived with
  | nil => by_cases hstake : wtx.tx.isCoinStake <;> simp [hstake, hreceived]
  | cons r received => simp [hmin, hreceived]

theorem fees_received : (b.receivedEntries wtx "*" nMinDepth).filterMap TransactionEntry.fee = [] := by
  rw [List.filterMap_eq_nil_iff]
  unfold receivedEntries
  dsimp only
  intro entry hentry
  split at hentry
  · split at hentry
    all_goals
      obtain ⟨r, -, rfl⟩ := List.mem_map.mp hentry
      rfl
  · exact absurd hentry List.not_mem_nil

/-- The fee is with every payment that is sent, and nowhere else. -/
theorem shownFee_eq : shownFee (b.listTransactions wtx strSentAccount "*" nMinDepth) =
    if wtx.tx.isCoinStake ∨ (b.getAmounts wtx).listSent = [] then 0 else -(b.getAmounts wtx).nFee := by
  unfold shownFee listTransactions
  rw [List.filterMap_append, fees_received, List.append_nil, sentEntries_all]
  by_cases hstake : wtx.tx.isCoinStake
  · simp [hstake]
  · cases hsent : (b.getAmounts wtx).listSent with
    | nil => simp [hstake]
    | cons s sent => simp [hstake]

/-- **What the entries of a payment add up to**: what was received less what was
sent. -/
theorem entrySum_payment (hmin : nMinDepth ≤ b.getDepthInMainChain wtx) (hstake : ¬ wtx.tx.isCoinStake) :
    entrySum (b.listTransactions wtx strSentAccount "*" nMinDepth) =
      ((b.getAmounts wtx).listReceived.map Prod.snd).sum - ((b.getAmounts wtx).listSent.map Prod.snd).sum := by
  have hneg : ∀ l : List (Option CTxDestination × Int), (l.map fun s => -s.2).sum = -(l.map Prod.snd).sum := by
    intro l
    induction l with
    | nil => rfl
    | cons s l ih =>
      rw [List.map_cons, List.map_cons, List.sum_cons, List.sum_cons, ih]
      omega
  unfold listTransactions
  rw [entrySum_append, sentEntries_all, receivedEntries_all hmin, if_neg hstake, if_neg hstake, entrySum, entrySum,
    List.map_map, List.map_map]
  have hsent := hneg (b.getAmounts wtx).listSent
  change ((b.getAmounts wtx).listSent.map fun s => -s.2).sum + ((b.getAmounts wtx).listReceived.map Prod.snd).sum = _
  omega

/-- A coinstake shows what it brings, once. -/
theorem entrySum_stake (hmin : nMinDepth ≤ b.getDepthInMainChain wtx) (hstake : wtx.tx.isCoinStake)
    (hreceived : (b.getAmounts wtx).listReceived ≠ []) :
    entrySum (b.listTransactions wtx strSentAccount "*" nMinDepth) = -(b.getAmounts wtx).nFee := by
  obtain ⟨r, received, hlist⟩ := List.exists_cons_of_ne_nil hreceived
  unfold listTransactions
  rw [sentEntries_all, receivedEntries_all hmin, if_pos hstake, if_pos hstake, hlist]
  simp [entrySum]

theorem listTransactions_nil_iff (hmin : nMinDepth ≤ b.getDepthInMainChain wtx) :
    b.listTransactions wtx strSentAccount "*" nMinDepth = [] ↔
      (b.getAmounts wtx).listReceived = [] ∧ (wtx.tx.isCoinStake ∨ (b.getAmounts wtx).listSent = []) := by
  unfold listTransactions
  rw [List.append_eq_nil_iff, sentEntries_all, receivedEntries_all hmin]
  by_cases hstake : wtx.tx.isCoinStake
  · simp [hstake]
  · simp [hstake]
    exact And.comm

end

/-- What is received is also sent, when the wallet is debited. -/
theorem isSent_of_isReceived {nDebit : Int} {txout : CTxOut} (hdebit : 0 < nDebit)
    (h : b.isReceived nDebit txout = true) : b.isSent nDebit txout = true := by
  unfold isReceived isSent at *
  rw [decide_eq_true hdebit, Bool.true_and] at *
  obtain ⟨hmine, hchange⟩ := Bool.and_eq_true_iff.mp h
  cases hskip : txout.isSkipped with
  | true =>
    rw [isMine_of_skipped hskip] at hmine
    exact nomatch hmine
  | false => simpa using hchange

/-- What is received when the wallet is not debited. -/
theorem sumOf_isReceived {nDebit : Int} (hdebit : ¬ 0 < nDebit) (vout : List CTxOut) :
    sumOf (b.isReceived nDebit) vout = sumOf b.own.isMine vout := by
  have hall : b.isReceived nDebit = b.own.isMine := by
    funext txout
    rw [isReceived, decide_eq_false hdebit]
    simp
  rw [hall]

theorem listReceived_nil_iff :
    (b.getAmounts wtx).listReceived = [] ↔ wtx.tx.vout.any (b.isReceived (b.getDebit wtx.tx)) = false := by
  rw [getAmounts_eq, List.map_eq_nil_iff, List.filter_eq_nil_iff, List.any_eq_false]

theorem listSent_nil_iff :
    (b.getAmounts wtx).listSent = [] ↔ wtx.tx.vout.any (b.isSent (b.getDebit wtx.tx)) = false := by
  rw [getAmounts_eq, List.map_eq_nil_iff, List.filter_eq_nil_iff, List.any_eq_false]

theorem nFee_eq : (b.getAmounts wtx).nFee =
    if 0 < b.getDebit wtx.tx then b.getDebit wtx.tx - wtx.tx.getValueOut else 0 := by rw [getAmounts_eq]

theorem isUnseen_of_mature (h : b.isImmature wtx = false) : b.isUnseen wtx = b.isUnlisted := by
  funext txout
  simp [isUnseen, isUnlisted, h]

section

variable {strSentAccount : String} {nMinDepth : Int}

theorem entries_stake (hmin : nMinDepth ≤ b.getDepthInMainChain wtx) (hstake : wtx.tx.isCoinStake)
    (hdebit : 0 ≤ b.getDebit wtx.tx) (hforeign : wtx.tx.getValueOut = b.getCreditTx wtx.tx) :
    (b.listTransactions wtx strSentAccount "*" nMinDepth ≠ [] →
      entrySum (b.listTransactions wtx strSentAccount "*" nMinDepth) +
        shownFee (b.listTransactions wtx strSentAccount "*" nMinDepth) = b.getCreditTx wtx.tx - b.getDebit wtx.tx) ↔
      (0 < b.getDebit wtx.tx ∨ b.getCreditTx wtx.tx = 0) := by
  rw [ne_eq, listTransactions_nil_iff hmin, shownFee_eq, if_pos (.inl hstake)]
  by_cases hreceived : (b.getAmounts wtx).listReceived = []
  · refine iff_of_true (fun h => absurd ⟨hreceived, .inl hstake⟩ h) ?_
    by_cases hpos : 0 < b.getDebit wtx.tx
    · exact .inl hpos
    · right
      have hsum := sum_received b wtx
      rw [hreceived, sumOf_isReceived hpos] at hsum
      exact hsum.symm
  · rw [entrySum_stake hmin hstake hreceived, nFee_eq]
    have hsome : ¬ ((b.getAmounts wtx).listReceived = [] ∧ (wtx.tx.isCoinStake ∨ (b.getAmounts wtx).listSent = [])) :=
      fun h => hreceived h.1
    simp only [hsome, not_false_eq_true, forall_const]
    split <;> omega

theorem entries_payment (hmin : nMinDepth ≤ b.getDepthInMainChain wtx) (hstake : ¬ wtx.tx.isCoinStake)
    (hmature : b.isImmature wtx = false) (hdebit : 0 ≤ b.getDebit wtx.tx) :
    (b.listTransactions wtx strSentAccount "*" nMinDepth ≠ [] →
      entrySum (b.listTransactions wtx strSentAccount "*" nMinDepth) +
        shownFee (b.listTransactions wtx strSentAccount "*" nMinDepth) = b.getCreditTx wtx.tx - b.getDebit wtx.tx) ↔
      (0 < b.getDebit wtx.tx → wtx.tx.vout.any (b.isSent (b.getDebit wtx.tx)) = true →
        sumOf b.isUnlisted wtx.tx.vout = 0) := by
  rw [ne_eq, listTransactions_nil_iff hmin, shownFee_eq, entrySum_payment hmin hstake, sum_received, sum_sent, nFee_eq]
  by_cases hpos : 0 < b.getDebit wtx.tx
  · cases hsent : wtx.tx.vout.any (b.isSent (b.getDebit wtx.tx)) with
    | false =>
      -- nothing is listed
      have hreceived : wtx.tx.vout.any (b.isReceived (b.getDebit wtx.tx)) = false := by
        rw [List.any_eq_false] at *
        exact fun txout hmem h => hsent txout hmem (isSent_of_isReceived hpos h)
      simp [listReceived_nil_iff.mpr hreceived, listSent_nil_iff.mpr hsent]
    | true =>
      have hlist : (b.getAmounts wtx).listSent ≠ [] := fun h => by
        rw [listSent_nil_iff.mp h] at hsent
        exact nomatch hsent
      have hsum := sum_of_debit true (by rw [hmature]; rfl : true = !b.isImmature wtx) wtx.tx.vout hpos
      rw [isUnseen_of_mature hmature] at hsum
      have hout : sumOf (fun _ => true) wtx.tx.vout = wtx.tx.getValueOut := rfl
      have hown : sumOf b.own.isMine wtx.tx.vout = b.getCreditTx wtx.tx := rfl
      simp [hstake, hlist, hpos] at hsum ⊢
      omega
  · -- nothing is sent
    have hnone : wtx.tx.vout.any (b.isSent (b.getDebit wtx.tx)) = false := by
      rw [List.any_eq_false]
      intro txout _
      rw [isSent, decide_eq_false hpos]
      simp
    have hsent := sum_sent b wtx
    rw [listSent_nil_iff.mpr hnone] at hsent
    have hown : sumOf b.own.isMine wtx.tx.vout = b.getCreditTx wtx.tx := rfl
    rw [sumOf_isReceived hpos, ← hsent, if_neg hpos, listSent_nil_iff.mpr hnone]
    simp [hpos]
    omega

end

/-! ## What is shown -/

/-- **The history of a mature transaction adds up exactly where nothing of worth
is hidden from it**: a coinstake pays the wallet only, and is its own stake; a
payment that brings more than it takes takes nothing, the notes of one to
others are worth nothing, and so are the outputs of a listed one that are
neither listed nor the wallet's. -/
theorem shown_iff (b : WalletBooks) (hash : Uint256) (wtx : CWalletTx) (nTime : Int) (strSentAccount : String)
    (nMinDepth : Int) (hsettled : b.Settled wtx) (hmature : b.getBlocksToMaturity wtx = 0)
    (hmin : nMinDepth ≤ b.getDepthInMainChain wtx) :
    (recordSum (b.decomposeTransaction hash nTime wtx) = b.getCredit wtx - b.getDebit wtx.tx ∧
      (b.listTransactions wtx strSentAccount "*" nMinDepth ≠ [] →
        entrySum (b.listTransactions wtx strSentAccount "*" nMinDepth) +
          shownFee (b.listTransactions wtx strSentAccount "*" nMinDepth) = b.getCredit wtx - b.getDebit wtx.tx)) ↔
      b.Shown wtx := by
  have himmature := mature_iff.mp hmature
  have hcredit : b.getCredit wtx = b.getCreditTx wtx.tx := by
    rw [getCredit, himmature]
    exact if_neg (by decide)
  have hdebit := getDebit_nonneg hsettled.values wtx.tx
  unfold Shown
  by_cases hstake : wtx.tx.isCoinStake
  · have hout : wtx.tx.getValueOut = b.getCreditTx wtx.tx + sumOf (fun txout => !b.own.isMine txout) wtx.tx.vout :=
      sumOf_add (r := fun _ => true) fun txout _ => by cases b.own.isMine txout <;> simp
    rw [if_pos hstake, recordSum_stake hstake hcredit, hcredit, StakeShown]
    refine and_congr_right fun hforeign => entries_stake hmin hstake hdebit ?_
    omega
  · rw [if_neg hstake, recordSum_payment hsettled hstake hcredit, hcredit,
      entries_payment hmin hstake himmature hdebit]
    exact ⟨fun h => ⟨h.1.1, h.1.2, h.2⟩, fun h => ⟨⟨h.gain, h.notes⟩, h.listed⟩⟩

end WalletBooks

/-! ## A stake that is paid out -/

namespace Sample

/-- A coinstake that stakes ten coins, and gives half a coin of its reward to
the key of another. -/
def stakeOutTx : CTransaction :=
  ⟨1, 2000, [⟨⟨1, 0⟩, [], UINT_MAX⟩],
    [⟨0, []⟩, ⟨10 * COIN + COIN / 2, payToKeyID stakeKey⟩, ⟨COIN / 2, payToKeyID (List.Vector.replicate 20 2)⟩], 0⟩

def stakeOutBooks : WalletBooks :=
  { stakeBooks 100 with
    mapWallet := ((∅ : Map Uint256 CWalletTx).insert 1 (.ofTx stakedTx)).insert 2 (.ofTx stakeOutTx) }

theorem settled_stakeBooks {nDepth : Int} (h : 1 ≤ nDepth) : (stakeBooks nDepth).Settled (.ofTx stakingTx) where
  values := (exact_stakeBooks h).values
  paid hgenerated := nomatch hgenerated

theorem settled_stakeOutBooks : stakeOutBooks.Settled (.ofTx stakeOutTx) where
  values hash wtx hlookup txout hout := by
    have hall : ∀ vout : List CTxOut, vout.all (fun txout => decide (0 ≤ txout.nValue)) = true → txout ∈ vout →
        0 ≤ txout.nValue := fun vout h hmem => of_decide_eq_true (List.all_eq_true.mp h txout hmem)
    unfold stakeOutBooks at hlookup
    by_cases htwo : hash = 2
    · subst htwo
      rw [AList.lookup_insert] at hlookup
      rw [← Option.some.inj hlookup] at hout
      exact hall stakeOutTx.vout (by decide) hout
    · rw [AList.lookup_insert_ne htwo] at hlookup
      by_cases hone : hash = 1
      · subst hone
        rw [AList.lookup_insert] at hlookup
        rw [← Option.some.inj hlookup] at hout
        exact hall stakedTx.vout (by decide) hout
      · rw [AList.lookup_insert_ne hone, AList.lookup_empty] at hlookup
        exact nomatch hlookup
  paid hgenerated := nomatch hgenerated

end Sample

namespace WalletBooks

theorem shown_iff_sample :
    recordSum ((Sample.stakeBooks 100).decomposeTransaction 2 2000 (.ofTx Sample.stakingTx)) = COIN := by
  have hshown : (Sample.stakeBooks 100).Shown (.ofTx Sample.stakingTx) := by
    unfold Shown
    rw [if_pos (by decide +kernel)]
    exact ⟨by decide +kernel, .inl (by decide +kernel)⟩
  have hrecords := ((shown_iff (Sample.stakeBooks 100) 2 (.ofTx Sample.stakingTx) 2000 "" 0
    (Sample.settled_stakeBooks (by decide)) (by decide +kernel) (by decide +kernel)).mpr hshown).1
  exact hrecords.trans (by decide +kernel)

/-- **A stake that is paid out is shown as the wallet's own**: the record says a
coin, of which the wallet has half. -/
theorem not_shown : ¬ ∀ (b : WalletBooks) (hash : Uint256) (wtx : CWalletTx) (nTime : Int) (strSentAccount : String)
    (nMinDepth : Int), b.Settled wtx → b.getBlocksToMaturity wtx = 0 → nMinDepth ≤ b.getDepthInMainChain wtx →
      recordSum (b.decomposeTransaction hash nTime wtx) = b.getCredit wtx - b.getDebit wtx.tx ∧
        (b.listTransactions wtx strSentAccount "*" nMinDepth ≠ [] →
          entrySum (b.listTransactions wtx strSentAccount "*" nMinDepth) +
            shownFee (b.listTransactions wtx strSentAccount "*" nMinDepth) = b.getCredit wtx - b.getDebit wtx.tx) := by
  intro hall
  have hrecords := (hall Sample.stakeOutBooks 2 (.ofTx Sample.stakeOutTx) 2000 "" 0 Sample.settled_stakeOutBooks
    (by decide +kernel) (by decide +kernel)).1
  have hone : recordSum (Sample.stakeOutBooks.decomposeTransaction 2 2000 (.ofTx Sample.stakeOutTx)) = COIN := by
    decide +kernel
  have hhalf : Sample.stakeOutBooks.getCredit (.ofTx Sample.stakeOutTx) -
      Sample.stakeOutBooks.getDebit Sample.stakeOutTx = COIN / 2 := by decide +kernel
  rw [hone] at hrecords
  have hhalf' : COIN = COIN / 2 := hrecords.trans hhalf
  exact absurd hhalf' (by decide)

end WalletBooks

end Pinkcoin
