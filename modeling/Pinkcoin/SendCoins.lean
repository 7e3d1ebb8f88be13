/-
Sending coins from the window: the outputs for a list of recipients, the
position of the change that `CreateTransaction` reports, and the notes of the
stealth payments, which are filed under the outputs they belong to.
-/
import Pinkcoin.Notes
import Pinkcoin.Stealth
import Pinkcoin.Text.StealthText


namespace Pinkcoin

open CScript (push OP_RETURN)
open Rounds (Turn)

/-! ## The position of the change -/

/-- How `CreateTransaction` ends, with what it leaves in its references.
`change` is where the last round put the change. -/
structure Created where
  tx : CTransaction
  nFeeRet : Int
  nChangePos : Int
  change : Option Nat

inductive CreateOutcome
  | failed (nFeeRet : Int)
  | aborted
  | created (c : Created)

/-- What the loop carries from round to round: the two references, and the
capacity of `vout`, which `clear` keeps. -/
structure CreateState where
  nFeeRet : Int
  nChangePos : Int
  nCapacity : Nat

/-- The capacity after `n` outputs were added to an empty vector, which grows
where it is full. -/
def filled (grow : Nat → Nat) (nCapacity : Nat) : Nat → Nat
  | 0 => nCapacity
  | n + 1 => if filled grow nCapacity n = n then grow (filled grow nCapacity n) else filled grow nCapacity n

namespace CWallet

variable (P : Params) (w : CWallet) (view : CoinView) (r : SendRequest) (wtxNew : CTransaction) (nValue : Int)

/-- `nChange` and `nFeeRet` of a round, after what is moved to the fee. -/
def changeAndFee (e : RoundEnv) (nFeeRet : Int) : Option (Int × Int) :=
  let (fSelected, sel) := w.selectCoins P view r.coinControl e.draws (nValue + nFeeRet) wtxNew.nTime
  if ¬ fSelected then none
  else
    let nChange := sel.nValue - nValue - nFeeRet
    let nMoveToFee := SendRequest.moveToFee nChange nFeeRet
    some (nChange - nMoveToFee, nFeeRet + nMoveToFee)

/-- Where a round puts its change, if it has any. -/
def changeIndex (e : RoundEnv) (nFeeRet : Int) : Option Nat :=
  let vout := payeeOuts r.fSplitBlock r.nSplitBlock r.vecSend
  match w.changeAndFee P view r wtxNew nValue e nFeeRet with
  | none => none
  | some (nChange, _) =>
    if 0 < nChange then some (changePosition vout (e.getRandInt (vout.length + 1))) else none

/-- A round with `nChangePos`. The distance is taken from an iterator of before
the insertion: where this moved the outputs to another storage, it is `stray`. -/
def createRoundAt (grow : Nat → Nat) (stray : Int) (e : RoundEnv) (s : CreateState) : Turn CreateState CreateOutcome :=
  let vout := payeeOuts r.fSplitBlock r.nSplitBlock r.vecSend
  let nCapacity := filled grow s.nCapacity vout.length
  let change := w.changeIndex P view r wtxNew nValue e s.nFeeRet
  let fMoved := nCapacity = vout.length
  let nChangePos := match change with
    | none => s.nChangePos
    | some position => if fMoved then stray else position
  match w.createRound P view r wtxNew nValue e s.nFeeRet with
  | .again nFeeRet => .again ⟨nFeeRet, nChangePos, if change.isSome ∧ fMoved then grow nCapacity else nCapacity⟩
  | .done .failed =>
    .done (.failed (((w.changeAndFee P view r wtxNew nValue e s.nFeeRet).map Prod.snd).getD s.nFeeRet))
  | .done .aborted => .done .aborted
  | .done (.created tx nFeeRet) => .done (.created ⟨tx, nFeeRet, nChangePos, change⟩)

/-- `CreateTransaction`, for references to `0` and `-1`. -/
def createTransactionAt (grow : Nat → Nat) (stray : Nat → Int) (env : Nat → RoundEnv) (fuel : Nat) :
    Option CreateOutcome :=
  match sumOfSend r.vecSend 0 with
  | none => some (.failed 0)
  | some nValue =>
    if r.vecSend = [] ∨ nValue < 0 then some (.failed 0)
    else
      Rounds.loop (fun n => w.createRoundAt P view r wtxNew nValue grow (stray n) (env n)) fuel 0
        ⟨if r.fSplitBlock then COIN / 100 else r.nTransactionFee, -1, 0⟩

end CWallet

/-! ## The recipients -/

namespace WalletModel

inductive StatusCode
  | ok
  | invalidAmount
  | invalidAddress
  | amountExceedsBalance
  | amountWithFeeExceedsBalance
  | duplicateAddress
  | transactionCreationFailed
  | transactionCommitFailed
  | noteTooLong
  | aborted
  deriving DecidableEq

/-- `AddressTableModel::AddressType`. -/
inductive AddressType
  | unknown
  | normal
  | stealth
  deriving DecidableEq

structure SendCoinsRecipient where
  address : List Char
  note : List UInt8
  typeInd : AddressType
  amount : Int

/-- What a call meets: the globals, the wallet, the new `wtx`, the draws, the
libraries, and the answers of the user and of `CommitTransaction`. -/
structure SendEnv (G : Type) where
  P : Params
  w : CWallet
  view : CoinView
  wtx : CTransaction
  fSplitBlock : Bool
  nTransactionFee : Int
  E : ECGroup G
  hash160 : List UInt8 → Bytes 20
  /-- `GenerateRandomSecret`, when `vecSend` has this size. -/
  generateRandomSecret : Nat → Option (Bytes 32)
  /-- `SecMsgCrypter`, for a shared secret and a public key. -/
  encrypt : Bytes 32 → Bytes 33 → List UInt8 → Option (List UInt8)
  rounds : Nat → RoundEnv
  grow : Nat → Nat
  threadSafeAskFee : Int → Bool
  commitTransaction : CTransaction → Bool

/-- `SendCoinsReturn` with its fee; or the transaction, the notes in
`wtx.mapValue` and `nChangePos`; or the end of the program. -/
inductive SendResult
  | returned (status : StatusCode) (fee : Int)
  | sent (c : Created) (mapValue : MapNarr)
  | died

namespace SendEnv

variable {G : Type} [AddCommGroup G] (q : SendEnv G)

/-- `CBitcoinAddress(sAddr).Get()`. -/
def destination (sAddr : List Char) : Option CTxDestination :=
  (CBitcoinAddress.setString (fun vch => q.E.sha256 (q.E.sha256 vch).toList) sAddr).bind
    (CBitcoinAddress.get q.P.fTestNet)

/-- `validateAddress`. -/
def validateAddress (sAddr : List Char) : Bool :=
  decide (75 < sAddr.length) && isStealthAddress q.E.sha256 sAddr || (q.destination sAddr).isSome

/-- The first loop over the recipients, with their total. -/
def precheck : List SendCoinsRecipient → Int → Except StatusCode Int
  | [], total => .ok total
  | rcp :: recipients, total =>
    if ¬ q.validateAddress rcp.address then .error .invalidAddress
    else if rcp.amount ≤ 0 then .error .invalidAmount
    else precheck recipients (total + rcp.amount)

/-- `sxAddr.SetEncoded(sAddr)`. -/
def stealthAddress (rcp : SendCoinsRecipient) : Option CStealthAddress :=
  let (fSet, sxAddr) := CStealthAddress.setEncoded q.E.sha256 ⟨0, [], []⟩ rcp.address
  if rcp.typeInd = .stealth ∧ fSet then some sxAddr else none

/-- The scripts of a stealth payment: that of the value, and that of the key
and the note. -/
def stealthScripts (nSize : Nat) (note : List UInt8) (sxAddr : CStealthAddress) :
    Except StatusCode (CScript × CScript) :=
  match q.generateRandomSecret nSize with
  | none => .error .aborted
  | some ephem_secret =>
    match q.E.stealthSecret ephem_secret sxAddr.scan_pubkey sxAddr.spend_pubkey with
    | none => .error .aborted
    | some (secretShared, pkSendTo) =>
      -- the key has 33 bytes, so that it is valid
      match q.E.secretToPublicKey ephem_secret with
      | none => .error .aborted
      | some ephem_pubkey =>
        let scriptPubKey := setDestination (.keyID (q.hash160 pkSendTo.toList))
        let scriptP := UInt8.ofNat OP_RETURN :: push ephem_pubkey.toList
        if 0 < note.length then
          if 24 < note.length then .error .noteTooLong
          else
            match q.encrypt secretShared ephem_pubkey note with
            | none => .error .aborted
            | some vchNarr =>
              if 48 < vchNarr.length then .error .aborted
              else
                .ok (scriptPubKey,
                  if 0 < vchNarr.length then scriptP ++ UInt8.ofNat OP_RETURN :: push vchNarr else scriptP)
        else .ok (scriptPubKey, scriptP)

/-- `vecSend` and `mapStealthNarr`, whose positions rise. -/
structure Composed where
  vecSend : List (CScript × Int)
  mapStealthNarr : List (Nat × List UInt8)
  deriving DecidableEq

/-- The body of the second loop over the recipients. -/
def addRecipient (s : Composed) (rcp : SendCoinsRecipient) : Except StatusCode Composed :=
  match q.stealthAddress rcp with
  | some sxAddr =>
    match q.stealthScripts s.vecSend.length rcp.note sxAddr with
    | .error status => .error status
    | .ok (scriptPubKey, scriptP) =>
      .ok ⟨s.vecSend ++ [(scriptPubKey, rcp.amount), (scriptP, 0)],
        if 0 < rcp.note.length then s.mapStealthNarr ++ [(s.vecSend.length, rcp.note)] else s.mapStealthNarr⟩
  | none =>
    if 24 < rcp.note.length then .error .noteTooLong
    else
      let scriptPubKey := ((q.destination rcp.address).map setDestination).getD []
      .ok ⟨s.vecSend ++ sendWithNote scriptPubKey rcp.amount rcp.note, s.mapStealthNarr⟩

def compose : List SendCoinsRecipient → Composed → Except StatusCode Composed
  | [], s => .ok s
  | rcp :: recipients, s =>
    match q.addRecipient s rcp with
    | .error status => .error status
    | .ok s => compose recipients s

/-- Where a note is filed. -/
def notePos (nChangePos : Int) (pos : Nat) : Nat := if -1 < nChangePos ∧ nChangePos ≤ pos then pos + 1 else pos

/-- The loop that files the notes. -/
def fileNotes (nChangePos : Int) (mapStealthNarr : List (Nat × List UInt8)) : MapNarr :=
  mapStealthNarr.foldl (fun mapValue it => mapValue.insert (narrKey (notePos nChangePos it.1)) it.2) ∅

/-- `sendCoins`, up to the address book. -/
def sendCoins (stray : Nat → Int) (recipients : List SendCoinsRecipient) (nSplitBlock : Int)
    (coinControl : Option CCoinControl) (fuel : Nat) : Option SendResult :=
  if recipients = [] then some (.returned .ok 0)
  else
    match q.precheck recipients 0 with
    | .error status => some (.returned status 0)
    | .ok total =>
      if ¬ (recipients.map SendCoinsRecipient.address).Nodup then some (.returned .duplicateAddress 0)
      else
        let nBalance := ((q.w.availableCoins q.P q.view coinControl true).map fun out => q.w.valueAt out.coin).sum
        if nBalance < total then some (.returned .amountExceedsBalance 0)
        else if nBalance < total + q.nTransactionFee then
          some (.returned .amountWithFeeExceedsBalance q.nTransactionFee)
        else
          match q.compose recipients ⟨[], []⟩ with
          | .error status => some (.returned status 0)
          | .ok s =>
            let r := ⟨s.vecSend, nSplitBlock, coinControl, q.fSplitBlock, q.nTransactionFee, q.hash160⟩
            (q.w.createTransactionAt q.P q.view r q.wtx q.grow stray q.rounds fuel).map fun
              | .failed nFeeRequired =>
                if nBalance < total + nFeeRequired then .returned .amountWithFeeExceedsBalance nFeeRequired
                else .returned .transactionCreationFailed 0
              | .aborted => .died
              | .created c =>
                if ¬ q.threadSafeAskFee c.nFeeRet then .returned .aborted 0
                else if ¬ q.commitTransaction c.tx then .returned .transactionCommitFailed 0
                else .sent c (fileNotes c.nChangePos s.mapStealthNarr)

end SendEnv

end WalletModel

/-! ## What the rounds tell -/

/-- The position for a change that was put there, or for none. -/
def toldPos (change : Option Nat) : Int :=
  match change with
  | none => -1
  | some position => position

/-- What is seen of the rounds from outside: the fee, the capacity, and whether
one of them had change. -/
structure Watched where
  nFeeRet : Int
  nCapacity : Nat
  fChange : Bool
  deriving DecidableEq

namespace CWallet

section

variable (P : Params) (w : CWallet) (view : CoinView) (r : SendRequest) (wtxNew : CTransaction)

/-- The number of outputs to the payees. -/
def nOuts : Nat := (payeeOuts r.fSplitBlock r.nSplitBlock r.vecSend).length

def watchRound (nValue : Int) (grow : Nat → Nat) (e : RoundEnv) (t : Watched) : Turn Watched Unit :=
  let nCapacity := filled grow t.nCapacity (nOuts r)
  let change := w.changeIndex P view r wtxNew nValue e t.nFeeRet
  match w.createRound P view r wtxNew nValue e t.nFeeRet with
  | .again nFeeRet =>
    .again ⟨nFeeRet, if change.isSome ∧ nCapacity = nOuts r then grow nCapacity else nCapacity,
      t.fChange || change.isSome⟩
  | .done _ => .done ()

/-- The last round: its number, and what was seen before it. -/
def lastRound (grow : Nat → Nat) (env : Nat → RoundEnv) (fuel : Nat) : Option (Nat × Watched) :=
  Rounds.last (fun n => w.watchRound P view r wtxNew (r.vecSend.map Prod.snd).sum grow (env n)) fuel 0
    ⟨if r.fSplitBlock then COIN / 100 else r.nTransactionFee, 0, false⟩

/-- **The change is told** by a round: it has change, and `vout` has room for
it; or it has none, as no round before. -/
def Tells (grow : Nat → Nat) (e : RoundEnv) (t : Watched) : Prop :=
  match w.changeIndex P view r wtxNew (r.vecSend.map Prod.snd).sum e t.nFeeRet with
  | some _ => filled grow t.nCapacity (nOuts r) ≠ nOuts r
  | none => t.fChange = false

/-- How a call ends that makes a transaction, for the last round and what was
seen before it. -/
structure Ends (grow : Nat → Nat) (stray : Nat → Int) (env : Nat → RoundEnv) (n : Nat) (t : Watched) (c : Created) :
    Prop where
  round : w.createRound P view r wtxNew (r.vecSend.map Prod.snd).sum (env n) t.nFeeRet = .done (.created c.tx c.nFeeRet)
  change : c.change = w.changeIndex P view r wtxNew (r.vecSend.map Prod.snd).sum (env n) t.nFeeRet
  told : ∃ before : Int, (t.fChange = false → before = -1) ∧ (t.fChange = true → 0 ≤ before ∨ ∃ k, before = stray k) ∧
    c.nChangePos = match c.change with
      | none => before
      | some position => if filled grow t.nCapacity (nOuts r) = nOuts r then stray n else position

end

section

variable {P : Params} {w : CWallet} {view : CoinView} {r : SendRequest} {wtxNew : CTransaction} {nValue : Int}
  {grow : Nat → Nat} {stray : Nat → Int} {env : Nat → RoundEnv} {fuel n : Nat} {t : Watched} {c : Created}

/-- The state of a round and what is seen of it. -/
structure Shadows (stray : Nat → Int) (s : CreateState) (t : Watched) : Prop where
  fee : s.nFeeRet = t.nFeeRet
  capacity : s.nCapacity = t.nCapacity
  unchanged : t.fChange = false → s.nChangePos = -1
  changed : t.fChange = true → 0 ≤ s.nChangePos ∨ ∃ k, s.nChangePos = stray k

theorem Shadows.again {s s' : CreateState} (h : Shadows stray s t)
    (hround : w.createRoundAt P view r wtxNew nValue grow (stray n) (env n) s = .again s') :
    ∃ t', w.watchRound P view r wtxNew nValue grow (env n) t = .again t' ∧ Shadows stray s' t' := by
  obtain ⟨hfee, hcapacity, hunchanged, hchanged⟩ := h
  unfold createRoundAt at hround
  unfold watchRound nOuts
  rw [← hfee, ← hcapacity]
  dsimp only at hround ⊢
  cases hplain : w.createRound P view r wtxNew nValue (env n) s.nFeeRet with
  | done res =>
    rw [hplain] at hround
    cases res <;> exact nomatch hround
  | again nFeeRet =>
    rw [hplain] at hround
    cases hround
    refine ⟨_, rfl, rfl, rfl, fun hnone => ?_, fun hsome => ?_⟩
    · obtain ⟨hbefore, hno⟩ := Bool.or_eq_false_iff.mp hnone
      cases hchange : w.changeIndex P view r wtxNew nValue (env n) s.nFeeRet with
      | none => exact hunchanged hbefore
      | some position =>
        rw [hchange] at hno
        exact nomatch hno
    · dsimp only
      cases hchange : w.changeIndex P view r wtxNew nValue (env n) s.nFeeRet with
      | none =>
        rw [hchange, Option.isSome_none, Bool.or_false] at hsome
        exact hchanged hsome
      | some position =>
        dsimp only
        split
        · exact .inr ⟨n, rfl⟩
        · exact .inl (Int.natCast_nonneg position)

theorem Shadows.done {s : CreateState} (h : Shadows stray s t) {res : CreateOutcome}
    (hround : w.createRoundAt P view r wtxNew nValue grow (stray n) (env n) s = .done res) :
    w.watchRound P view r wtxNew nValue grow (env n) t = .done () := by
  unfold createRoundAt at hround
  unfold watchRound
  rw [← h.fee]
  cases hplain : w.createRound P view r wtxNew nValue (env n) s.nFeeRet with
  | done res => rfl
  | again nFeeRet =>
    rw [hplain] at hround
    exact nomatch hround

/-- What is seen going on goes on, whatever is stray. -/
theorem Shadows.again_of_watch {s : CreateState} (h : Shadows stray s t) {t' : Watched}
    (hround : w.watchRound P view r wtxNew nValue grow (env n) t = .again t') :
    ∃ s', w.createRoundAt P view r wtxNew nValue grow (stray n) (env n) s = .again s' ∧ Shadows stray s' t' := by
  cases hat : w.createRoundAt P view r wtxNew nValue grow (stray n) (env n) s with
  | again s' =>
    obtain ⟨t₁, hwatch, hshadows⟩ := h.again hat
    exact ⟨s', rfl, Turn.again.inj (hwatch.symm.trans hround) ▸ hshadows⟩
  | done res => exact nomatch (h.done hat).symm.trans hround

theorem Shadows.done_of_watch {s : CreateState} (h : Shadows stray s t) {u : Unit}
    (hround : w.watchRound P view r wtxNew nValue grow (env n) t = .done u) :
    ∃ res, w.createRoundAt P view r wtxNew nValue grow (stray n) (env n) s = .done res := by
  cases hat : w.createRoundAt P view r wtxNew nValue grow (stray n) (env n) s with
  | again s' =>
    obtain ⟨t₁, hwatch, -⟩ := h.again hat
    exact nomatch hwatch.symm.trans hround
  | done res => exact ⟨res, rfl⟩

theorem shadows_start (stray : Nat → Int) (nFeeRet : Int) : Shadows stray ⟨nFeeRet, -1, 0⟩ ⟨nFeeRet, 0, false⟩ :=
  ⟨rfl, rfl, fun _ => rfl, nofun⟩

/-- The end of a round that makes a transaction. -/
theorem createRoundAt_created {e : RoundEnv} {pos : Int} {s : CreateState} :
    w.createRoundAt P view r wtxNew nValue grow pos e s = .done (.created c) ↔
      w.createRound P view r wtxNew nValue e s.nFeeRet = .done (.created c.tx c.nFeeRet) ∧
        c.change = w.changeIndex P view r wtxNew nValue e s.nFeeRet ∧
        c.nChangePos = match c.change with
          | none => s.nChangePos
          | some position => if filled grow s.nCapacity (nOuts r) = nOuts r then pos else position := by
  unfold createRoundAt nOuts
  cases hplain : w.createRound P view r wtxNew nValue e s.nFeeRet with
  | again nFeeRet => exact iff_of_false nofun fun h => nomatch h.1
  | done res =>
    cases res with
    | failed => exact iff_of_false nofun fun h => nomatch h.1
    | aborted => exact iff_of_false nofun fun h => nomatch h.1
    | created tx nFeeRet =>
      constructor
      · intro h
        cases h
        exact ⟨rfl, rfl, rfl⟩
      · rintro ⟨hround, hchange, hpos⟩
        cases hround
        dsimp only
        rw [← hchange]
        obtain ⟨tx, nFeeRet, nChangePos, change⟩ := c
        dsimp only at hpos ⊢
        rw [hpos]

/-- The loop of a call that makes a transaction. -/
theorem createTransactionAt_created :
    w.createTransactionAt P view r wtxNew grow stray env fuel = some (.created c) ↔
      sumOfSend r.vecSend 0 = some (r.vecSend.map Prod.snd).sum ∧
        ¬ (r.vecSend = [] ∨ (r.vecSend.map Prod.snd).sum < 0) ∧
        Rounds.loop (fun n => w.createRoundAt P view r wtxNew (r.vecSend.map Prod.snd).sum grow (stray n) (env n)) fuel
          0 ⟨if r.fSplitBlock then COIN / 100 else r.nTransactionFee, -1, 0⟩ = some (.created c) := by
  unfold createTransactionAt
  cases hsum : sumOfSend r.vecSend 0 with
  | none => exact iff_of_false nofun fun h => nomatch h.1
  | some nValue =>
    obtain rfl : nValue = (r.vecSend.map Prod.snd).sum := (sumOfSend_eq hsum).trans (zero_add _)
    dsimp only
    by_cases hnone : r.vecSend = [] ∨ (r.vecSend.map Prod.snd).sum < 0
    · rw [if_pos hnone]
      exact iff_of_false nofun fun h => h.2.1 hnone
    · rw [if_neg hnone]
      exact ⟨fun h => ⟨rfl, hnone, h⟩, fun h => h.2.2⟩

theorem ends_of_created (h : w.createTransactionAt P view r wtxNew grow stray env fuel = some (.created c)) :
    ∃ n t, w.lastRound P view r wtxNew grow env fuel = some (n, t) ∧ w.Ends P view r wtxNew grow stray env n t c := by
  obtain ⟨-, -, hloop⟩ := createTransactionAt_created.mp h
  obtain ⟨n, s, hlast, hround⟩ := Rounds.loop_eq_some_iff.mp hloop
  have hagain : ∀ n (s : CreateState) (t : Watched) s', Shadows stray s t →
      w.createRoundAt P view r wtxNew (r.vecSend.map Prod.snd).sum grow (stray n) (env n) s = .again s' →
        ∃ t', w.watchRound P view r wtxNew (r.vecSend.map Prod.snd).sum grow (env n) t = .again t' ∧
          Shadows stray s' t' :=
    fun _ _ _ _ hrel h => hrel.again h
  have hdone : ∀ n (s : CreateState) (t : Watched) res, Shadows stray s t →
      w.createRoundAt P view r wtxNew (r.vecSend.map Prod.snd).sum grow (stray n) (env n) s = .done res →
        ∃ u, w.watchRound P view r wtxNew (r.vecSend.map Prod.snd).sum grow (env n) t = .done u :=
    fun _ _ _ _ hrel h => ⟨(), hrel.done h⟩
  obtain ⟨t, hwatch, hshadows⟩ := Rounds.last_lockstep hagain hdone (shadows_start stray _) hlast
  obtain ⟨hplain, hchange, hpos⟩ := createRoundAt_created.mp hround
  rw [hshadows.fee] at hplain hchange
  rw [hshadows.capacity] at hpos
  exact ⟨n, t, hwatch, hplain, hchange, s.nChangePos, hshadows.unchanged, hshadows.changed, hpos⟩

/-- **The same transaction is made** whatever is stray. -/
theorem Ends.created (hsum : sumOfSend r.vecSend 0 = some (r.vecSend.map Prod.snd).sum)
    (hsome : ¬ (r.vecSend = [] ∨ (r.vecSend.map Prod.snd).sum < 0))
    (hlast : w.lastRound P view r wtxNew grow env fuel = some (n, t)) (h : w.Ends P view r wtxNew grow stray env n t c)
    (stray' : Nat → Int) : ∃ c', w.createTransactionAt P view r wtxNew grow stray' env fuel = some (.created c') ∧
      c'.tx = c.tx ∧ c'.nFeeRet = c.nFeeRet ∧ c'.change = c.change ∧ w.Ends P view r wtxNew grow stray' env n t c' := by
  have hagain : ∀ n (t : Watched) (s : CreateState) t', Shadows stray' s t →
      w.watchRound P view r wtxNew (r.vecSend.map Prod.snd).sum grow (env n) t = .again t' →
        ∃ s', w.createRoundAt P view r wtxNew (r.vecSend.map Prod.snd).sum grow (stray' n) (env n) s = .again s' ∧
          Shadows stray' s' t' := fun _ _ _ _ hrel h => hrel.again_of_watch h
  have hdone : ∀ n (t : Watched) (s : CreateState) u, Shadows stray' s t →
      w.watchRound P view r wtxNew (r.vecSend.map Prod.snd).sum grow (env n) t = .done u →
        ∃ res, w.createRoundAt P view r wtxNew (r.vecSend.map Prod.snd).sum grow (stray' n) (env n) s = .done res :=
    fun _ _ _ _ hrel h => hrel.done_of_watch h
  obtain ⟨s, hlast', hshadows⟩ := Rounds.last_lockstep hagain hdone (shadows_start stray' _) hlast
  let c' : Created := ⟨c.tx, c.nFeeRet, match c.change with
    | none => s.nChangePos
    | some position => if filled grow s.nCapacity (nOuts r) = nOuts r then stray' n else position, c.change⟩
  have hround : w.createRoundAt P view r wtxNew (r.vecSend.map Prod.snd).sum grow (stray' n) (env n) s =
      .done (.created c') :=
    createRoundAt_created.mpr ⟨hshadows.fee ▸ h.round, hshadows.fee ▸ h.change, rfl⟩
  have hloop := Rounds.loop_eq_some_iff.mpr ⟨n, s, hlast', hround⟩
  refine ⟨c', createTransactionAt_created.mpr ⟨hsum, hsome, hloop⟩, rfl, rfl, rfl, h.round, h.change, s.nChangePos,
    hshadows.unchanged, hshadows.changed, ?_⟩
  rw [← hshadows.capacity]

/-- **Where the last round tells the change, its position is right.** -/
theorem Ends.told_of_tells (h : w.Ends P view r wtxNew grow stray env n t c)
    (htells : w.Tells P view r wtxNew grow (env n) t) :
    c.nChangePos = toldPos c.change := by
  obtain ⟨before, hunchanged, -, hpos⟩ := h.told
  unfold Tells at htells
  rw [← h.change] at htells
  rw [hpos]
  cases hchange : c.change with
  | none =>
    rw [hchange] at htells
    exact hunchanged htells
  | some position =>
    rw [hchange] at htells
    exact if_neg htells

/-- Where it does not, a position that is not one shows it. -/
theorem Ends.tells_of_told (h : w.Ends P view r wtxNew grow stray env n t c) (hstray : ∀ k, stray k < -1)
    (htold : c.nChangePos = toldPos c.change) : w.Tells P view r wtxNew grow (env n) t := by
  obtain ⟨before, -, hchanged, hpos⟩ := h.told
  unfold Tells
  rw [← h.change]
  rw [hpos] at htold
  cases hchange : c.change with
  | none =>
    rw [hchange] at htold
    have hbefore : before = -1 := htold
    by_cases hsome : t.fChange = true
    · rcases hchanged hsome with hnonneg | ⟨k, hk⟩
      · omega
      · have := hstray k
        omega
    · exact Bool.eq_false_iff.mpr hsome
  | some position =>
    intro hfull
    rw [hchange] at htold
    have hposition : stray n = (position : Int) := (if_pos hfull).symm.trans htold
    have := hstray n
    omega

end

end CWallet

/-! ## Where the outputs are -/

/-- Into how many outputs each payee's is split. -/
def pieces (fSplitBlock : Bool) (nSplitBlock : Int) : Nat :=
  if ¬ fSplitBlock then 1 else (if nSplitBlock < 1 then 1 else nSplitBlock).toNat

/-- The index in the transaction of an output to the payees. -/
def finalIndex (change : Option Nat) (j : Nat) : Nat :=
  match change with
  | none => j
  | some position => if j < position then j else j + 1

/-- The indexes of the outputs to one payee. -/
def finalIndexes (nPieces : Nat) (change : Option Nat) (k : Nat) : List Nat :=
  (List.range nPieces).map fun i => finalIndex change (k * nPieces + i)

theorem pieces_pos (fSplitBlock : Bool) (nSplitBlock : Int) : 0 < pieces fSplitBlock nSplitBlock := by
  unfold pieces
  split
  · exact Nat.one_pos
  · split <;> omega

/-! ## The notes -/

namespace WalletModel.SendEnv

section

variable {G : Type} (q : SendEnv G)

/-- A recipient with a note for a stealth payment. -/
def HasStealthNote (rcp : SendCoinsRecipient) : Prop := (q.stealthAddress rcp).isSome ∧ 0 < rcp.note.length

/-- The number of outputs that are asked for a recipient, its payment first. -/
def nSends (rcp : SendCoinsRecipient) : Nat :=
  if (q.stealthAddress rcp).isSome then 2 else if 0 < rcp.note.length then 2 else 1

/-- The recipients, each with the place of its payment in `vecSend`. -/
def payments : Nat → List SendCoinsRecipient → List (Nat × SendCoinsRecipient)
  | _, [] => []
  | k, rcp :: recipients => (k, rcp) :: payments (k + q.nSends rcp) recipients

/-- **The notes are filed under the right outputs**: the position of the change
is right, every stealth note is under the index of an output of its payment,
and nothing else is there. -/
structure Filed (nPieces : Nat) (recipients : List SendCoinsRecipient) (c : Created) (mapValue : MapNarr) : Prop where
  change : c.nChangePos = toldPos c.change
  recorded : ∀ k rcp, (k, rcp) ∈ q.payments 0 recipients → q.HasStealthNote rcp →
    ∃ i ∈ finalIndexes nPieces c.change k, mapValue.lookup (narrKey i) = some rcp.note
  only : ∀ key note, mapValue.lookup key = some note → ∃ k rcp, (k, rcp) ∈ q.payments 0 recipients ∧
    q.HasStealthNote rcp ∧ note = rcp.note ∧ ∃ i ∈ finalIndexes nPieces c.change k, key = narrKey i

end

section

variable {G : Type} {q : SendEnv G} {recipients : List SendCoinsRecipient} {rcp : SendCoinsRecipient}
  {s s' : Composed} {k : Nat} {note : List UInt8}

theorem nSends_pos (rcp : SendCoinsRecipient) : 0 < q.nSends rcp := by
  unfold nSends
  split
  · exact Nat.two_pos
  · split <;> omega

/-- A note is one of the composed ones where it is one of a payment. -/
def NotesOf (q : SendEnv G) (places : List (Nat × SendCoinsRecipient)) (notes : List (Nat × List UInt8)) : Prop :=
  ∀ k note, (k, note) ∈ notes ↔ ∃ rcp, (k, rcp) ∈ places ∧ q.HasStealthNote rcp ∧ note = rcp.note

theorem le_of_mem_payments (h : (k, rcp) ∈ q.payments n recipients) : n ≤ k := by
  induction recipients generalizing n with
  | nil => exact nomatch h
  | cons first recipients ih =>
    rcases List.mem_cons.mp h with heq | hrest
    · exact Nat.le_of_eq (Prod.mk.inj heq).1.symm
    · have := ih hrest
      omega

/-! ## Where the notes are filed -/

theorem notePos_lt {pos : Int} {k k' : Nat} (h : k < k') : notePos pos k < notePos pos k' := by
  unfold notePos
  split
  · rw [if_pos (by omega)]
    omega
  · split <;> omega

/-- With the right position a note is moved as the change moves its payment. -/
theorem notePos_toldPos (change : Option Nat) (k : Nat) : notePos (toldPos change) k = finalIndex change k := by
  unfold notePos finalIndex
  cases change with
  | none => exact if_neg fun h => Int.lt_irrefl _ h.1
  | some position =>
    change (if -1 < (position : Int) ∧ (position : Int) ≤ k then k + 1 else k) = if k < position then k else k + 1
    by_cases hlt : k < position
    · rw [if_pos hlt, if_neg (by omega)]
    · rw [if_neg hlt, if_pos (by omega)]

theorem finalIndex_lt {change : Option Nat} {j j' : Nat} (h : j < j') : finalIndex change j < finalIndex change j' := by
  rw [← notePos_toldPos, ← notePos_toldPos]
  exact notePos_lt h

theorem lookup_fileNotes {notes : List (Nat × List UInt8)} (hrise : notes.Pairwise fun it it' => it.1 < it'.1)
    (pos : Int) (key : String) (note : List UInt8) :
    (fileNotes pos notes).lookup key = some note ↔ ∃ k, (k, note) ∈ notes ∧ key = narrKey (notePos pos k) := by
  induction notes using List.reverseRecOn with
  | nil => exact iff_of_false nofun fun ⟨_, hmem, _⟩ => (nomatch hmem)
  | append_singleton notes it ih =>
    obtain ⟨hbefore, -, hlast⟩ := List.pairwise_append.mp hrise
    have hstep : fileNotes pos (notes ++ [it]) = (fileNotes pos notes).insert (narrKey (notePos pos it.1)) it.2 := by
      unfold fileNotes
      rw [List.foldl_append]
      rfl
    rw [hstep]
    by_cases hkey : key = narrKey (notePos pos it.1)
    · subst hkey
      rw [AList.lookup_insert, Option.some.injEq]
      constructor
      · rintro rfl
        exact ⟨it.1, List.mem_append_right _ List.mem_cons_self, rfl⟩
      · rintro ⟨k, hmem, hsame⟩
        rcases List.mem_append.mp hmem with hmem | hmem
        · have hless : notePos pos k < notePos pos it.1 := notePos_lt (hlast _ hmem it List.mem_cons_self)
          have heq : notePos pos it.1 = notePos pos k := narrKey_inj.mp hsame
          omega
        · rw [← List.mem_singleton.mp hmem]
    · rw [AList.lookup_insert_ne hkey, ih hbefore]
      constructor
      · rintro ⟨k, hmem, hk⟩
        exact ⟨k, List.mem_append_left _ hmem, hk⟩
      · rintro ⟨k, hmem, hk⟩
        rcases List.mem_append.mp hmem with hmem | hmem
        · exact ⟨k, hmem, hk⟩
        · rw [← List.mem_singleton.mp hmem] at hkey
          exact absurd hk hkey

theorem mem_of_mem_payments (h : (k, rcp) ∈ q.payments n recipients) : rcp ∈ recipients := by
  induction recipients generalizing n with
  | nil => exact nomatch h
  | cons first recipients ih =>
    rcases List.mem_cons.mp h with heq | hrest
    · exact (Prod.mk.inj heq).2 ▸ List.mem_cons_self
    · exact List.mem_cons_of_mem _ (ih hrest)

theorem exists_place (h : rcp ∈ recipients) (n : Nat) : ∃ k, (k, rcp) ∈ q.payments n recipients := by
  induction recipients generalizing n with
  | nil => exact nomatch h
  | cons first recipients ih =>
    rcases List.mem_cons.mp h with rfl | hrest
    · exact ⟨n, List.mem_cons_self⟩
    · obtain ⟨k, hk⟩ := ih hrest (n + q.nSends first)
      exact ⟨k, List.mem_cons_of_mem _ hk⟩

/-- Only the first payment is at the place 0. -/
theorem first_only_iff : (∀ k rcp, (k, rcp) ∈ q.payments 0 recipients → q.HasStealthNote rcp → k = 0) ↔
    ∀ rcp ∈ recipients.tail, ¬ q.HasStealthNote rcp := by
  cases recipients with
  | nil => exact iff_of_true nofun nofun
  | cons first recipients =>
    have hpos := q.nSends_pos first
    constructor
    · intro hfirst rcp hmem hnote
      obtain ⟨k, hk⟩ := exists_place (q := q) hmem (0 + q.nSends first)
      have hzero := hfirst k rcp (List.mem_cons_of_mem _ hk) hnote
      have := le_of_mem_payments hk
      omega
    · intro htail k rcp hmem hnote
      rcases List.mem_cons.mp hmem with heq | hrest
      · exact (Prod.mk.inj heq).1
      · exact absurd hnote (htail rcp (mem_of_mem_payments hrest))

variable {notes : List (Nat × List UInt8)} {c : Created} {nPieces : Nat}

/-- With the right position, and one output to each payee that has a note
after the first, all notes are filed right. -/
theorem filed_of_told (hnotes : q.NotesOf (q.payments 0 recipients) notes)
    (hrise : notes.Pairwise fun it it' => it.1 < it'.1) (htold : c.nChangePos = toldPos c.change) (hpos : 0 < nPieces)
    (hplace : nPieces = 1 ∨ ∀ k rcp, (k, rcp) ∈ q.payments 0 recipients → q.HasStealthNote rcp → k = 0) :
    q.Filed nPieces recipients c (fileNotes c.nChangePos notes) := by
  have hindex : ∀ k rcp, (k, rcp) ∈ q.payments 0 recipients → q.HasStealthNote rcp →
      notePos c.nChangePos k ∈ finalIndexes nPieces c.change k := by
    intro k rcp hmem hnote
    rw [htold, notePos_toldPos]
    refine List.mem_map.mpr ⟨0, List.mem_range.mpr hpos, ?_⟩
    rcases hplace with rfl | hfirst
    · rw [Nat.mul_one, Nat.add_zero]
    · rw [hfirst k rcp hmem hnote, Nat.zero_mul, Nat.add_zero]
  refine ⟨htold, fun k rcp hmem hnote => ?_, fun key note hlookup => ?_⟩
  · exact ⟨_, hindex k rcp hmem hnote,
      (lookup_fileNotes hrise _ _ _).mpr ⟨k, (hnotes k _).mpr ⟨rcp, hmem, hnote, rfl⟩, rfl⟩⟩
  · obtain ⟨k, hmem, hkey⟩ := (lookup_fileNotes hrise _ _ _).mp hlookup
    obtain ⟨rcp, hplaced, hnote, heq⟩ := (hnotes k note).mp hmem
    exact ⟨k, rcp, hplaced, hnote, heq, _, hindex k rcp hplaced hnote, hkey⟩

/-- In several outputs a payment is moved further than its note. -/
theorem place_of_filed (hnotes : q.NotesOf (q.payments 0 recipients) notes)
    (hrise : notes.Pairwise fun it it' => it.1 < it'.1)
    (h : q.Filed nPieces recipients c (fileNotes c.nChangePos notes))
    (hpieces : 2 ≤ nPieces) : ∀ k rcp, (k, rcp) ∈ q.payments 0 recipients → q.HasStealthNote rcp → k = 0 := by
  intro k rcp hmem hnote
  have hsome : (k, rcp.note) ∈ notes := (hnotes k _).mpr ⟨rcp, hmem, hnote, rfl⟩
  -- the last of the notes has the greatest place
  obtain rfl | ⟨before, last, rfl⟩ := List.eq_nil_or_concat' notes
  · exact nomatch hsome
  · have hle : ∀ it ∈ before ++ [last], it.1 ≤ last.1 := fun it hit => by
      rcases List.mem_append.mp hit with hit | hit
      · exact Nat.le_of_lt ((List.pairwise_append.mp hrise).2.2 it hit last List.mem_cons_self)
      · rw [List.mem_singleton.mp hit]
    obtain ⟨rcp', hmem', hnote', -⟩ := (hnotes last.1 last.2).mp (List.mem_append_right _ List.mem_cons_self)
    obtain ⟨i, hi, hlookup⟩ := h.recorded last.1 rcp' hmem' hnote'
    obtain ⟨j, -, rfl⟩ := List.mem_map.mp hi
    obtain ⟨k', hk', hkey⟩ := (lookup_fileNotes hrise _ _ _).mp hlookup
    have hindex : finalIndex c.change (last.1 * nPieces + j) = finalIndex c.change k' := by
      rw [← notePos_toldPos c.change k', ← h.change]
      exact narrKey_inj.mp hkey
    have hsame : last.1 * nPieces + j ≤ k' := by
      by_contra hless
      have hlt : finalIndex c.change k' < finalIndex c.change (last.1 * nPieces + j) :=
        finalIndex_lt (Nat.lt_of_not_le hless)
      omega
    have hplaces := hle _ hk'
    have hfirst := hle _ hsome
    have htwice : last.1 * 2 ≤ last.1 * nPieces := Nat.mul_le_mul_left _ hpieces
    dsimp only at hplaces hfirst
    omega

/-! ## What is composed -/

variable [AddCommGroup G]

/-- What a recipient adds: its payment, and its note if it is a stealth note. -/
theorem addRecipient_ok (h : q.addRecipient s rcp = .ok s') :
    (∃ script rest, s'.vecSend = s.vecSend ++ (script, rcp.amount) :: rest ∧ rest.length + 1 = q.nSends rcp) ∧
      ∃ added, s'.mapStealthNarr = s.mapStealthNarr ++ added ∧ q.NotesOf [(s.vecSend.length, rcp)] added ∧
        added.length ≤ 1 := by
  have hnone : ¬ q.HasStealthNote rcp → q.NotesOf [(s.vecSend.length, rcp)] [] := fun hnot k note =>
    iff_of_false nofun fun ⟨rcp', hmem, hnote, _⟩ => by
      rw [(Prod.mk.inj (List.mem_singleton.mp hmem)).2] at hnote
      exact hnot hnote
  unfold addRecipient at h
  cases hstealth : q.stealthAddress rcp with
  | some sxAddr =>
    rw [hstealth] at h
    dsimp only at h
    cases hscripts : q.stealthScripts s.vecSend.length rcp.note sxAddr with
    | error status =>
      rw [hscripts] at h
      exact nomatch h
    | ok scripts =>
      obtain ⟨scriptPubKey, scriptP⟩ := scripts
      rw [hscripts] at h
      cases h
      refine ⟨⟨scriptPubKey, [(scriptP, 0)], rfl, ?_⟩, ?_⟩
      · rw [nSends, hstealth]
        rfl
      · dsimp only
        by_cases hnote : 0 < rcp.note.length
        · rw [if_pos hnote]
          refine ⟨[(s.vecSend.length, rcp.note)], rfl, fun k note => ?_, Nat.le_refl 1⟩
          rw [List.mem_singleton, Prod.mk.injEq]
          constructor
          · rintro ⟨rfl, rfl⟩
            exact ⟨rcp, List.mem_singleton.mpr rfl, ⟨hstealth ▸ rfl, hnote⟩, rfl⟩
          · rintro ⟨rcp', hmem, -, rfl⟩
            obtain ⟨rfl, rfl⟩ := Prod.mk.inj (List.mem_singleton.mp hmem)
            exact ⟨rfl, rfl⟩
        · rw [if_neg hnote]
          exact ⟨[], (List.append_nil _).symm, hnone fun hhas => hnote hhas.2, Nat.zero_le 1⟩
  | none =>
    rw [hstealth] at h
    dsimp only at h
    split at h
    · exact nomatch h
    · cases h
      refine ⟨⟨_, if 0 < rcp.note.length then [(noteScript rcp.note, 0)] else [], rfl, ?_⟩, [],
        (List.append_nil _).symm, hnone fun hhas => ?_, Nat.zero_le 1⟩
      · rw [nSends, hstealth]
        by_cases hnote : 0 < rcp.note.length
        · rw [if_pos hnote]
          simp [hnote]
        · rw [if_neg hnote]
          simp [hnote]
      · have hsome := hhas.1
        rw [hstealth] at hsome
        exact nomatch hsome

/-- **What is composed**: each payment at its place, and the stealth notes at
the places of their payments, which rise. -/
theorem compose_ok (h : q.compose recipients s = .ok s') :
    (∃ rest, s'.vecSend = s.vecSend ++ rest) ∧
      (∀ k rcp, (k, rcp) ∈ q.payments s.vecSend.length recipients →
        ∃ script, s'.vecSend[k]? = some (script, rcp.amount)) ∧
      ∃ added, s'.mapStealthNarr = s.mapStealthNarr ++ added ∧
        q.NotesOf (q.payments s.vecSend.length recipients) added ∧ added.Pairwise fun it it' => it.1 < it'.1 := by
  induction recipients generalizing s with
  | nil =>
    cases h
    exact ⟨⟨[], (List.append_nil _).symm⟩, nofun, [], (List.append_nil _).symm,
      fun k note => iff_of_false nofun fun ⟨_, hmem, _⟩ => (nomatch hmem), .nil⟩
  | cons rcp recipients ih =>
    unfold compose at h
    cases hadd : q.addRecipient s rcp with
    | error status =>
      rw [hadd] at h
      exact nomatch h
    | ok s₁ =>
      rw [hadd] at h
      obtain ⟨⟨script, rest, hsend, hrest⟩, added, hnarr, hnotes, hone⟩ := addRecipient_ok hadd
      obtain ⟨⟨rest₁, hsend₁⟩, hpaid, added₁, hnarr₁, hnotes₁, hrise⟩ := ih h
      have hlength : s₁.vecSend.length = s.vecSend.length + q.nSends rcp := by
        rw [hsend, List.length_append, List.length_cons, hrest]
      rw [hlength] at hpaid hnotes₁
      refine ⟨⟨(script, rcp.amount) :: rest ++ rest₁, ?_⟩, fun k rcp' hmem => ?_, added ++ added₁, ?_,
        fun k note => ?_, ?_⟩
      · rw [hsend₁, hsend, List.append_assoc]
      · rcases List.mem_cons.mp hmem with heq | hmem
        · obtain ⟨rfl, rfl⟩ := Prod.mk.inj heq
          refine ⟨script, ?_⟩
          rw [hsend₁, hsend, List.append_assoc, List.getElem?_append_right (Nat.le_refl _), Nat.sub_self]
          rfl
        · exact hpaid k rcp' hmem
      · rw [hnarr₁, hnarr, List.append_assoc]
      · rw [List.mem_append, hnotes k note, hnotes₁ k note]
        simp only [payments, List.mem_cons, List.not_mem_nil, or_false, or_and_right, exists_or]
      · refine List.pairwise_append.mpr ⟨?_, hrise, fun it hit it' hit' => ?_⟩
        · match added, hone with
          | [], _ => exact .nil
          | [it], _ => exact List.pairwise_singleton _ _
        · obtain ⟨rcp', hmem, -, -⟩ := (hnotes it.1 it.2).mp hit
          obtain ⟨rcp'', hmem', -, -⟩ := (hnotes₁ it'.1 it'.2).mp hit'
          have hle := le_of_mem_payments hmem'
          have hpos := q.nSends_pos rcp
          rw [(Prod.mk.inj (List.mem_singleton.mp hmem)).1]
          omega

end

/-! ## Sending -/

section

variable {G : Type} [AddCommGroup G] {q : SendEnv G} {recipients : List SendCoinsRecipient} {nSplitBlock : Int}
  {coinControl : Option CCoinControl} {fuel : Nat} {stray : Nat → Int} {c : Created} {mapValue : MapNarr}

/-- What `CreateTransaction` is asked for. -/
def request (q : SendEnv G) (s : Composed) (nSplitBlock : Int) (coinControl : Option CCoinControl) : SendRequest :=
  ⟨s.vecSend, nSplitBlock, coinControl, q.fSplitBlock, q.nTransactionFee, q.hash160⟩

/-- What a call checks first. -/
def Checked (q : SendEnv G) (recipients : List SendCoinsRecipient) (coinControl : Option CCoinControl) : Prop :=
  recipients ≠ [] ∧ ∃ total, q.precheck recipients 0 = .ok total ∧ (recipients.map SendCoinsRecipient.address).Nodup ∧
    total + max 0 q.nTransactionFee ≤
      ((q.w.availableCoins q.P q.view coinControl true).map fun out => q.w.valueAt out.coin).sum

theorem sendCoins_sent : q.sendCoins stray recipients nSplitBlock coinControl fuel = some (.sent c mapValue) ↔
    q.Checked recipients coinControl ∧ ∃ s, q.compose recipients ⟨[], []⟩ = .ok s ∧
      q.w.createTransactionAt q.P q.view (q.request s nSplitBlock coinControl) q.wtx q.grow stray q.rounds fuel =
        some (.created c) ∧
      q.threadSafeAskFee c.nFeeRet = true ∧ q.commitTransaction c.tx = true ∧
      mapValue = fileNotes c.nChangePos s.mapStealthNarr := by
  unfold sendCoins Checked
  by_cases hempty : recipients = []
  · rw [if_pos hempty]
    exact iff_of_false nofun fun h => h.1.1 hempty
  rw [if_neg hempty]
  cases hcheck : q.precheck recipients 0 with
  | error status => exact iff_of_false nofun fun ⟨⟨_, _, h, _⟩, _⟩ => (nomatch h)
  | ok total =>
    dsimp only
    by_cases hdistinct : (recipients.map SendCoinsRecipient.address).Nodup
    swap
    · rw [if_pos hdistinct]
      exact iff_of_false nofun fun ⟨⟨_, _, _, h, _⟩, _⟩ => hdistinct h
    rw [if_neg (not_not.mpr hdistinct)]
    generalize ((q.w.availableCoins q.P q.view coinControl true).map fun out => q.w.valueAt out.coin).sum = nBalance
    have hbalance : (recipients ≠ [] ∧ ∃ t, Except.ok (ε := StatusCode) total = .ok t ∧
        (recipients.map SendCoinsRecipient.address).Nodup ∧ t + max 0 q.nTransactionFee ≤ nBalance) ↔
        ¬ nBalance < total ∧ ¬ nBalance < total + q.nTransactionFee := by
      constructor
      · rintro ⟨-, t, heq, -, hle⟩
        cases heq
        omega
      · intro h
        exact ⟨hempty, total, rfl, hdistinct, by omega⟩
    rw [hbalance]
    by_cases hless : nBalance < total
    · rw [if_pos hless]
      exact iff_of_false nofun fun h => h.1.1 hless
    by_cases hfee : nBalance < total + q.nTransactionFee
    · rw [if_neg hless, if_pos hfee]
      exact iff_of_false nofun fun h => h.1.2 hfee
    rw [if_neg hless, if_neg hfee]
    cases hcompose : q.compose recipients ⟨[], []⟩ with
    | error status => exact iff_of_false nofun fun ⟨_, _, h, _⟩ => (nomatch h)
    | ok s =>
      dsimp only
      rw [Option.map_eq_some_iff]
      constructor
      · rintro ⟨outcome, hcreate, hresult⟩
        cases outcome with
        | failed nFeeRet =>
          dsimp only at hresult
          split at hresult <;> exact nomatch hresult
        | aborted => exact nomatch hresult
        | created c' =>
          dsimp only at hresult
          split at hresult
          · exact nomatch hresult
          next hask =>
            split at hresult
            · exact nomatch hresult
            next hcommit =>
              cases hresult
              exact ⟨⟨hless, hfee⟩, s, rfl, hcreate, not_not.mp hask, not_not.mp hcommit, rfl⟩
      · rintro ⟨-, s', heq, hcreate, hask, hcommit, rfl⟩
        cases heq
        refine ⟨_, hcreate, ?_⟩
        dsimp only
        rw [if_neg (not_not.mpr hask), if_neg (not_not.mpr hcommit)]

/-- **The change is told**: the last round of `CreateTransaction` has change
and `vout` has room for it, or no round has change. -/
def ChangeTold (q : SendEnv G) (recipients : List SendCoinsRecipient) (nSplitBlock : Int)
    (coinControl : Option CCoinControl) (fuel : Nat) : Prop :=
  ∀ s, q.compose recipients ⟨[], []⟩ = .ok s → ∀ n t,
    q.w.lastRound q.P q.view (q.request s nSplitBlock coinControl) q.wtx q.grow q.rounds fuel = some (n, t) →
      q.w.Tells q.P q.view (q.request s nSplitBlock coinControl) q.wtx q.grow (q.rounds n) t

/-- **Notes are filed under the right outputs**, whatever an iterator of before
the insertion says, exactly where the last round of `CreateTransaction` has
change and `vout` has room for it, or no round has change; and the outputs are
not split, or only the first recipient has a note for a stealth payment. -/
theorem sendCoins_filed_iff
    (h : q.sendCoins stray recipients nSplitBlock coinControl fuel = some (.sent c mapValue)) :
    (∀ stray', ∃ c' mapValue', q.sendCoins stray' recipients nSplitBlock coinControl fuel = some (.sent c' mapValue') ∧
        q.Filed (pieces q.fSplitBlock nSplitBlock) recipients c' mapValue') ↔
      q.ChangeTold recipients nSplitBlock coinControl fuel ∧
        (pieces q.fSplitBlock nSplitBlock = 1 ∨ ∀ rcp ∈ recipients.tail, ¬ q.HasStealthNote rcp) := by
  obtain ⟨hchecked, s, hcompose, hcreate, hask, hcommit, -⟩ := sendCoins_sent.mp h
  obtain ⟨n, t, hlast, hends⟩ := CWallet.ends_of_created hcreate
  obtain ⟨hsum, hsome, -⟩ := CWallet.createTransactionAt_created.mp hcreate
  obtain ⟨-, -, notes, hnarr, hnotes, hrise⟩ := compose_ok hcompose
  obtain rfl : s.mapStealthNarr = notes := hnarr.trans (List.nil_append _)
  have hpieces := pieces_pos q.fSplitBlock nSplitBlock
  -- the same transaction is sent whatever is stray
  have hsent : ∀ stray', ∃ c', q.sendCoins stray' recipients nSplitBlock coinControl fuel =
      some (.sent c' (fileNotes c'.nChangePos s.mapStealthNarr)) ∧
      q.w.Ends q.P q.view (q.request s nSplitBlock coinControl) q.wtx q.grow stray' q.rounds n t c' := fun stray' => by
    obtain ⟨c', hcreate', htx, hfee, -, hends'⟩ := hends.created hsum hsome hlast stray'
    refine ⟨c', sendCoins_sent.mpr ⟨hchecked, s, hcompose, hcreate', ?_, ?_, rfl⟩, hends'⟩
    · rw [hfee]
      exact hask
    · rw [htx]
      exact hcommit
  constructor
  · intro hall
    obtain ⟨c', mapValue', hsent', hfiled⟩ := hall fun _ => -2
    obtain ⟨c₁, hsent₁, hends₁⟩ := hsent fun _ => -2
    cases hsent'.symm.trans hsent₁
    refine ⟨fun s' hcompose' n' t' hlast' => ?_, ?_⟩
    · cases hcompose.symm.trans hcompose'
      cases hlast.symm.trans hlast'
      exact hends₁.tells_of_told (fun _ => by decide) hfiled.change
    · by_cases hone : pieces q.fSplitBlock nSplitBlock = 1
      · exact .inl hone
      · exact .inr (first_only_iff.mp (place_of_filed hnotes hrise hfiled (by omega)))
  · rintro ⟨htold, hplace⟩ stray'
    obtain ⟨c', hsent', hends'⟩ := hsent stray'
    refine ⟨c', _, hsent', filed_of_told hnotes hrise ?_ hpieces (hplace.imp id first_only_iff.mpr)⟩
    exact hends'.told_of_tells (htold s hcompose n t hlast)

end

end WalletModel.SendEnv

/-! ## A payment and a stealth payment with a note -/

namespace Sample

open WalletModel

/-- A curve of one point. -/
def oneGroup : ECGroup Unit where
  generator := ()
  point2oct _ := 2 :: List.replicate 32 0
  oct2point _ := some ()
  sha256 _ := List.Vector.replicate 32 0

noncomputable def sendEnv (nTransactionFee : Int) (nSigSize : Nat) : SendEnv Unit where
  P := params true
  w := coinWallet
  view := coinView
  wtx := unsent
  fSplitBlock := false
  nTransactionFee := nTransactionFee
  E := oneGroup
  hash160 _ := List.Vector.replicate 20 0
  generateRandomSecret _ := some (List.Vector.replicate 32 1)
  encrypt _ _ note := some note
  rounds _ := { roundEnv with sign := fun _ _ _ => some (List.replicate nSigSize 0) }
  grow n := if n = 0 then 1 else 2 * n
  threadSafeAskFee _ := true
  commitTransaction _ := true

/-- A payment of a coin, and a stealth payment with the note `hi`. -/
def noteRecipients (amount : Int) : List SendCoinsRecipient :=
  [⟨encodeBase58 (withChecksum (fun vch => oneGroup.sha256 (oneGroup.sha256 vch).toList)
      (.set true (.keyID (List.Vector.replicate 20 1)))), [], .normal, COIN⟩,
    ⟨CStealthAddress.encoded oneGroup.sha256 ⟨0, List.replicate 33 2, List.replicate 33 3⟩, [0x68, 0x69], .stealth,
      amount⟩]

/-- What is seen of a call that sends. -/
def report : Option SendResult → Option (Int × Option Nat × List (Sigma fun _ : String => List UInt8))
  | some (.sent c mapValue) => some (c.nChangePos, c.change, mapValue.entries)
  | _ => none

theorem sent_of_report {result : Option SendResult} {pos : Int} {change : Option Nat}
    {entries : List (Sigma fun _ : String => List UInt8)} (h : report result = some (pos, change, entries)) :
    ∃ c mapValue, result = some (.sent c mapValue) ∧ c.nChangePos = pos ∧ c.change = change ∧
      mapValue.entries = entries := by
  match result, h with
  | some (.sent c mapValue), h =>
    cases h
    exact ⟨c, mapValue, rfl, rfl, rfl, rfl⟩

/-- What is composed for these recipients. -/
def noteComposed (amount : Int) : SendEnv.Composed :=
  ⟨[(setDestination (.keyID (List.Vector.replicate 20 1)), COIN),
      (setDestination (.keyID (List.Vector.replicate 20 0)), amount),
      (UInt8.ofNat OP_RETURN :: push (2 :: List.replicate 32 0) ++ UInt8.ofNat OP_RETURN :: push [0x68, 0x69], 0)],
    [(1, [0x68, 0x69])]⟩

end Sample

namespace WalletModel.SendEnv

/-- With three outputs to the payees `vout` has room for the change, which goes
before them: the note is filed under the third output. -/
theorem sendCoins_filed_iff_sample : ∃ c mapValue,
    (Sample.sendEnv CENT 10).sendCoins (fun _ => 0) (Sample.noteRecipients COIN) 1 Sample.sendRequest.coinControl 2 =
      some (.sent c mapValue) ∧ (Sample.sendEnv CENT 10).Filed 1 (Sample.noteRecipients COIN) c mapValue := by
  have hreport : Sample.report ((Sample.sendEnv CENT 10).sendCoins (fun _ => 0) (Sample.noteRecipients COIN) 1
      Sample.sendRequest.coinControl 2) = some (0, some 0, [⟨"n_2", [0x68, 0x69]⟩]) := by decide +kernel
  obtain ⟨c, mapValue, hsent, -⟩ := Sample.sent_of_report hreport
  refine (sendCoins_filed_iff hsent).mpr ⟨fun s hs n t hlast => ?_, .inl rfl⟩ fun _ => 0
  have hcompose : (Sample.sendEnv CENT 10).compose (Sample.noteRecipients COIN) ⟨[], []⟩ =
      .ok (Sample.noteComposed COIN) := by decide +kernel
  cases hcompose.symm.trans hs
  have hround : (Sample.sendEnv CENT 10).w.lastRound (Sample.sendEnv CENT 10).P (Sample.sendEnv CENT 10).view
      ((Sample.sendEnv CENT 10).request (Sample.noteComposed COIN) 1 Sample.sendRequest.coinControl)
      (Sample.sendEnv CENT 10).wtx (Sample.sendEnv CENT 10).grow (Sample.sendEnv CENT 10).rounds 2 =
        some (0, ⟨CENT, 0, false⟩) := by decide +kernel
  cases hround.symm.trans hlast
  have hindex : (Sample.sendEnv CENT 10).w.changeIndex (Sample.sendEnv CENT 10).P (Sample.sendEnv CENT 10).view
      ((Sample.sendEnv CENT 10).request (Sample.noteComposed COIN) 1 Sample.sendRequest.coinControl)
      (Sample.sendEnv CENT 10).wtx
      (((Sample.sendEnv CENT 10).request (Sample.noteComposed COIN) 1 Sample.sendRequest.coinControl).vecSend.map
        Prod.snd).sum ((Sample.sendEnv CENT 10).rounds 0) CENT = some 0 := by decide +kernel
  unfold CWallet.Tells
  rw [hindex]
  decide +kernel

/-- **A change that is gone shifts a note**: the first of two rounds has change,
before the payments, and the second has none. The note of the second output is
filed under the third. -/
theorem not_sendCoins_filed : ¬ ∀ stray c mapValue,
    (Sample.sendEnv CENT 1000).sendCoins stray (Sample.noteRecipients (4 * COIN - 2 * CENT)) 1
        Sample.sendRequest.coinControl 2 = some (.sent c mapValue) →
      (Sample.sendEnv CENT 1000).Filed 1 (Sample.noteRecipients (4 * COIN - 2 * CENT)) c mapValue := by
  intro hall
  have hreport : Sample.report ((Sample.sendEnv CENT 1000).sendCoins (fun _ => 0)
      (Sample.noteRecipients (4 * COIN - 2 * CENT)) 1 Sample.sendRequest.coinControl 2) =
        some (0, none, [⟨"n_2", [0x68, 0x69]⟩]) := by decide +kernel
  obtain ⟨c, mapValue, hsent, hpos, hchange, -⟩ := Sample.sent_of_report hreport
  have htold := (hall _ c mapValue hsent).change
  rw [hpos, hchange] at htold
  exact absurd htold (by decide)

end WalletModel.SendEnv

end Pinkcoin
