/-
Notes to stealth addresses: the payment, the output with the sender's key and
the encrypted note, and the wallet that finds both. The key store takes every
key; whether the wallet file does is given.
-/
import Pinkcoin.Interp.SolverForms
import Pinkcoin.SendCoins
import Pinkcoin.Text.Amount
import Pinkcoin.Text.Base64

namespace Pinkcoin

open CScript (getOp push OP_RETURN)
open Rounds (Turn)
open ECGroup (stealthSharedToSecretSpend ec_secret_size)

/-! ## The wallet that is paid -/

/-- `CStealthAddress`, as a wallet keeps it. -/
structure WalletStealthAddress extends CStealthAddress where
  scan_secret : List UInt8
  spend_secret : List UInt8

/-- What `FindStealthTransactions` uses of a wallet and changes of it. A key
that was added without its secret has none. `stealthAddresses` is a set by the
scan key. -/
structure StealthWallet where
  fLocked : Bool
  stealthAddresses : List WalletStealthAddress
  distinct : (stealthAddresses.map fun it => it.scan_pubkey).Nodup
  mapKeys : Map CKeyID (Option (Bytes 32))
  mapAddressBook : Map CTxDestination (List Char)
  mapStealthKeyMeta : Map CKeyID (List UInt8 × List UInt8)
  nStealth : Nat
  nFoundStealth : Nat

/-- The libraries: the curve with SHA-256, `Hash160`, and `SecMsgCrypter` for a
key and the bytes its vector is taken from; and the wallet file. -/
structure StealthLibs (G : Type) where
  E : ECGroup G
  hash160 : List UInt8 → CKeyID
  encrypt : Bytes 32 → List UInt8 → List UInt8 → Option (List UInt8)
  decrypt : Bytes 32 → List UInt8 → List UInt8 → Option (List UInt8)
  writeKey : CKeyID → Bool

/-- Bytes of a certain number. -/
def sized (n : Nat) (vch : List UInt8) : Option (Bytes n) := if h : vch.length = n then some ⟨vch, h⟩ else none

namespace StealthLibs

variable {G : Type} [AddCommGroup G] (L : StealthLibs G)

/-! ## FindStealthTransactions -/

/-- What the search for one ephemeral key carries: the place in the script it
is in, the wallet, and the notes. -/
structure Seeking where
  itTxA : CScript
  keys : StealthWallet
  mapNarr : MapNarr

/-- A locked wallet adds the key without its secret. -/
def addLockedKey (w : StealthWallet) (it : WalletStealthAddress) (vchEphemPK : List UInt8) (cpkE : Bytes 33) :
    StealthWallet :=
  let keyId := L.hash160 cpkE.toList
  { w with
    mapKeys := w.mapKeys.insert keyId none
    mapAddressBook := w.mapAddressBook.insert (.keyID keyId) (it.encoded L.E.sha256)
    mapStealthKeyMeta := w.mapStealthKeyMeta.insert keyId (vchEphemPK, it.scan_pubkey)
    nFoundStealth := w.nFoundStealth + 1 }

/-- Another adds it with the secret, if it finds this. `ckey` has the public
key that was computed just before, which has 33 bytes. -/
def addSpendKey (w : StealthWallet) (it : WalletStealthAddress) (sShared : Bytes 32) : StealthWallet × Bool :=
  match sized ec_secret_size it.spend_secret with
  | none => (w, false)
  | some sSpend =>
    match stealthSharedToSecretSpend sShared sSpend with
    | none => (w, false)
    | some sSpendR =>
      match L.E.secretToPublicKey sSpendR with
      | none => (w, false)
      | some pkTestSpendR =>
        let keyID := L.hash160 pkTestSpendR.toList
        let w := { w with mapKeys := w.mapKeys.insert keyID (some sSpendR) }
        if ¬ L.writeKey keyID then (w, false)
        else
          ({ w with
            mapAddressBook := w.mapAddressBook.insert (.keyID keyID) (it.encoded L.E.sha256)
            nFoundStealth := w.nFoundStealth + 1 }, true)

/-- The note after the ephemeral key. What is returned is `txnMatch`. -/
def takeNote (sShared : Bytes 32) (vchEphemPK : List UInt8) (nOutputId : Nat) (s : Seeking) : Seeking × Bool :=
  match getOp s.itTxA with
  | none => (s, true)
  | some (opCode, _, itTxA) =>
    if opCode ≠ OP_RETURN then (s, true)
    else
      match getOp itTxA with
      | none => (s, true)
      | some (_, vchENarr, itTxA) =>
        if vchENarr.length = 0 then (s, true)
        else
          match L.decrypt sShared vchEphemPK vchENarr with
          | none => ({ s with itTxA := itTxA }, false)
          | some vchNarr => (⟨itTxA, s.keys, s.mapNarr.insert (narrKey nOutputId) vchNarr⟩, true)

/-- The body of the loop over the addresses. -/
def tryAddress (vchEphemPK : List UInt8) (ckidMatch : CKeyID) (nOutputId : Nat) (s : Seeking)
    (it : WalletStealthAddress) : Seeking × Bool :=
  match sized ec_secret_size it.scan_secret with
  | none => (s, false)
  | some sScan =>
    match L.E.stealthSecret sScan vchEphemPK it.spend_pubkey with
    | none => (s, false)
    | some (sShared, pkExtracted) =>
      if ckidMatch ≠ L.hash160 pkExtracted.toList then (s, false)
      else
        let (keys, fAdded) :=
          if s.keys.fLocked then (L.addLockedKey s.keys it vchEphemPK pkExtracted, true)
          else L.addSpendKey s.keys it sShared
        if ¬ fAdded then ({ s with keys := keys }, false)
        else L.takeNote sShared vchEphemPK nOutputId { s with keys := keys }

/-- The loop over the addresses, which a match ends. -/
def tryAddresses (vchEphemPK : List UInt8) (ckidMatch : CKeyID) (nOutputId : Nat) :
    List WalletStealthAddress → Seeking → Seeking × Bool
  | [], s => (s, false)
  | it :: stealthAddresses, s =>
    match L.tryAddress vchEphemPK ckidMatch nOutputId s it with
    | (s, true) => (s, true)
    | (s, false) => tryAddresses vchEphemPK ckidMatch nOutputId stealthAddresses s

/-- The loop over the other outputs. -/
def tryOutputs (nOutputIdOuter : Nat) (vchEphemPK : List UInt8) : List (CTxOut × Nat) → Seeking → Seeking
  | [], s => s
  | (txoutB, nOutputId) :: vout, s =>
    if nOutputId = nOutputIdOuter then tryOutputs nOutputIdOuter vchEphemPK vout s
    else
      match extractDestination L.hash160 txoutB.scriptPubKey with
      | some (.keyID ckidMatch) =>
        if ckidMatch ∈ s.keys.mapKeys then tryOutputs nOutputIdOuter vchEphemPK vout s
        else
          match L.tryAddresses vchEphemPK ckidMatch nOutputId s.keys.stealthAddresses s with
          | (s, true) => s
          | (s, false) => tryOutputs nOutputIdOuter vchEphemPK vout s
      | _ => tryOutputs nOutputIdOuter vchEphemPK vout s

/-- What `FindStealthTransactions` does at an ephemeral key. -/
def seek (tx : CTransaction) (nOutputIdOuter : Nat) (vchEphemPK : List UInt8) (itTxA : CScript)
    (s : StealthWallet × MapNarr) : StealthWallet × MapNarr :=
  let r := L.tryOutputs nOutputIdOuter vchEphemPK tx.vout.zipIdx
    ⟨itTxA, { s.1 with nStealth := s.1.nStealth + 1 }, s.2⟩
  (r.keys, r.mapNarr)

/-- `FindStealthTransactions`. -/
def findStealth (w : StealthWallet) (tx : CTransaction) (mapNarr : MapNarr) : Bool × StealthWallet × MapNarr :=
  findStealthTransactions (L.seek tx) tx w mapNarr

end StealthLibs

/-! ## The wallet that pays -/

/-- What the wallet that pays meets: its globals and coins, the draws, the
answers of the user and of `CommitTransaction`. -/
structure StealthSender (G : Type) extends StealthLibs G where
  P : Params
  w : CWallet
  view : CoinView
  fLocked : Bool
  fWalletUnlockStakingOnly : Bool
  fSplitBlock : Bool
  nTransactionFee : Int
  getBalance : Int
  generateRandomSecret : Option (Bytes 32)
  random_shuffle : List (CScript × Int) → List (CScript × Int)
  random_shuffle_perm : ∀ vecSend, (random_shuffle vecSend).Perm vecSend
  rounds : Nat → RoundEnv
  grow : Nat → Nat
  stray : Nat → Int
  threadSafeAskFee : Int → Bool
  commitTransaction : CTransaction → Bool

/-- The second script of a payment: the ephemeral key, and a note if there is
one. -/
def stealthScript (P narr : List UInt8) : CScript :=
  UInt8.ofNat OP_RETURN :: push P ++ if 0 < narr.length then UInt8.ofNat OP_RETURN :: push narr else []

/-- The note for the sender, at the first output with the script and the value
of the payment. -/
def recordNote (scriptPubKey : CScript) (nValue : Int) (sNarr : List UInt8) (vout : List CTxOut) (mapValue : MapNarr) :
    MapNarr :=
  match vout.findIdx? fun txout => decide (txout.scriptPubKey = scriptPubKey ∧ txout.nValue = nValue) with
  | none => mapValue
  | some k => mapValue.insert (narrKey k) sNarr

/-- How a payment ends: with an error, with the end of the program, or sent,
with what is left in `wtxNew`. -/
inductive StealthSent
  | failed (sError : List UInt8)
  | died
  | sent (tx : CTransaction) (mapValue : MapNarr)

namespace StealthSender

variable {G : Type} [AddCommGroup G] (q : StealthSender G)

/-- The request for a payment with its two scripts. -/
def request (scriptPubKey : CScript) (nValue : Int) (P narr : List UInt8) : SendRequest :=
  ⟨q.random_shuffle [(scriptPubKey, nValue), (stealthScript P narr, 0)], 1, none, q.fSplitBlock, q.nTransactionFee,
    q.hash160⟩

/-- `CreateStealthTransaction`: the outcome, and `wtxNew.mapValue`. -/
def createStealthTransaction (scriptPubKey : CScript) (nValue : Int) (P narr sNarr : List UInt8) (wtxNew : CTransaction)
    (mapValue : MapNarr) (fuel : Nat) : Option (CreateOutcome × MapNarr) :=
  (q.w.createTransactionAt q.P q.view (q.request scriptPubKey nValue P narr) wtxNew q.grow q.stray q.rounds fuel).map
    fun
    | .created c =>
      (.created c, if 0 < narr.length then recordNote scriptPubKey nValue sNarr c.tx.vout mapValue else mapValue)
    | outcome => (outcome, mapValue)

/-- `SendStealthMoney`. -/
def sendStealthMoney (scriptPubKey : CScript) (nValue : Int) (P narr sNarr : List UInt8) (wtxNew : CTransaction)
    (mapValue : MapNarr) (fAskFee : Bool) (fuel : Nat) : Option StealthSent :=
  if q.fLocked then some (.failed (chars "Error: Wallet locked, unable to create transaction  "))
  else if q.fWalletUnlockStakingOnly then
    some (.failed (chars "Error: Wallet unlocked for staking only, unable to create transaction."))
  else
    (q.createStealthTransaction scriptPubKey nValue P narr sNarr wtxNew mapValue fuel).map fun
      | (.failed nFeeRequired, _) =>
        if q.getBalance < nValue + nFeeRequired then
          .failed (chars "Error: This transaction requires a transaction fee of at least " ++
            formatMoney nFeeRequired false ++
            chars " because of its amount, complexity, or use of recently received funds  ")
        else .failed (chars "Error: Transaction creation failed  ")
      | (.aborted, _) => .died
      | (.created c, mapValue) =>
        if fAskFee ∧ ¬ q.threadSafeAskFee c.nFeeRet then .failed (chars "ABORTED")
        else if ¬ q.commitTransaction c.tx then
          .failed (chars ("Error: The transaction was rejected.  This might happen if some of the coins in your " ++
            "wallet were already spent, such as if you used a copy of wallet.dat and coins were spent in the copy " ++
            "but not marked as spent here."))
        else .sent c.tx mapValue

/-- The secret that is shared, the key that is paid, and the ephemeral key. -/
def payee (sxAddress : CStealthAddress) : Except (List UInt8) (Bytes 32 × Bytes 33 × Bytes 33) :=
  match q.generateRandomSecret with
  | none => .error (chars "GenerateRandomSecret failed.")
  | some ephem_secret =>
    match q.E.stealthSecret ephem_secret sxAddress.scan_pubkey sxAddress.spend_pubkey with
    | none => .error (chars "Could not generate receiving public key.")
    | some (secretShared, pkSendTo) =>
      -- the key has 33 bytes, so that it is valid
      match q.E.secretToPublicKey ephem_secret with
      | none => .error (chars "Could not generate ephem public key.")
      | some ephem_pubkey => .ok (secretShared, pkSendTo, ephem_pubkey)

/-- The encrypted note. -/
def sealNote (secretShared : Bytes 32) (ephem_pubkey : Bytes 33) (sNarr : List UInt8) :
    Except (List UInt8) (List UInt8) :=
  if 0 < sNarr.length then
    match q.encrypt secretShared ephem_pubkey.toList sNarr with
    | none => .error (chars "Note encryption failed.")
    | some vchNarr => if 48 < vchNarr.length then .error (chars "Encrypted note is too long.") else .ok vchNarr
  else .ok []

/-- `SendStealthMoneyToDestination`. -/
def sendStealthMoneyToDestination (sxAddress : CStealthAddress) (nValue : Int) (sNarr : List UInt8)
    (wtxNew : CTransaction) (mapValue : MapNarr) (fAskFee : Bool) (fuel : Nat) : Option StealthSent :=
  if nValue ≤ 0 then some (.failed (chars "Invalid amount"))
  else if q.getBalance < nValue + q.nTransactionFee then some (.failed (chars "Insufficient funds"))
  else
    match q.payee sxAddress with
    | .error sError => some (.failed sError)
    | .ok (secretShared, pkSendTo, ephem_pubkey) =>
      match q.sealNote secretShared ephem_pubkey sNarr with
      | .error sError => some (.failed sError)
      | .ok vchNarr =>
        q.sendStealthMoney (setDestination (.keyID (q.hash160 pkSendTo.toList))) nValue ephem_pubkey.toList vchNarr
          sNarr wtxNew mapValue fAskFee fuel

end StealthSender

/-! ## Both sides agree -/

namespace ECGroup

variable {G : Type} [AddCommGroup G] {E : ECGroup G} {d e f : Bytes 32} {Q R P : Bytes 33}

/-- What is used of the curve, with the single byte that the point at infinity
is written as. -/
structure Complete (E : ECGroup G) : Prop extends E.Lawful where
  infinity : E.point2oct 0 = [0]

/-- Only a point that is not at infinity has 33 bytes. -/
theorem Complete.ne_zero (h : E.Complete) {S : G} {vch : Bytes 33}
    (hwritten : toOctets ec_compressed_size (E.point2bn S) = some vch) : S ≠ 0 := by
  intro hzero
  have hbytes := bnNumBytes_of_toOctets hwritten
  rw [hzero, point2bn, h.infinity] at hbytes
  exact absurd hbytes (by decide)

/-- A public key that was written is read as its point. -/
theorem Complete.read (h : E.Complete) (hd : E.secretToPublicKey d = some Q) :
    E.bn2point (beNat Q.toList) = some (beNat d.toList • E.generator) := by
  obtain ⟨vch, -, hwritten, hread⟩ := h.written (h.ne_zero hd)
  rw [secretToPublicKey, hwritten] at hd
  rw [← Option.some.inj hd]
  exact hread

/-- **Both sides find the same**: the secret, and the key that is paid. -/
theorem Complete.stealthSecret_comm (h : E.Complete) (hd : E.secretToPublicKey d = some Q)
    (he : E.secretToPublicKey e = some P) (pkSpend : List UInt8) :
    E.stealthSecret d P.toList pkSpend = E.stealthSecret e Q.toList pkSpend := by
  have hshared : E.sharedPoint d P.toList = E.sharedPoint e Q.toList := by
    rw [sharedPoint, sharedPoint, h.read hd, h.read he]
    simp only [Option.bind_eq_bind, Option.bind_some]
    rw [smul_comm]
  rw [stealthSecret, stealthSecret, hshared]

/-- The private key that is found is that of the key that is paid. -/
theorem Complete.secretToPublicKey_spend (h : E.Complete) (hf : E.secretToPublicKey f = some R) {vch : List UInt8}
    {shared secretOut : Bytes 32} {pkOut : Bytes 33} (hsend : E.stealthSecret e vch R.toList = some (shared, pkOut))
    (hspend : stealthSharedToSecretSpend shared f = some secretOut) : E.secretToPublicKey secretOut = some pkOut := by
  simp only [stealthSecret, Option.bind_eq_bind, Option.bind_eq_some_iff] at hsend
  obtain ⟨S, -, R', hR', pkOut', hpkOut, hpure⟩ := hsend
  obtain ⟨rfl, rfl⟩ := Prod.mk.inj (Option.some.inj hpure)
  obtain rfl := Option.some.inj ((h.read hf).symm.trans hR')
  rw [secretToPublicKey, (of_stealthSharedToSecretSpend hspend).2, h.mod_smul, add_smul]
  exact hpkOut

end ECGroup

/-! ## The scripts of a payment -/

/-- The address that a script to a key pays. -/
theorem extractDestination_setDestination (hash160 : List UInt8 → CKeyID) (id : CKeyID) :
    extractDestination hash160 (setDestination (.keyID id)) = some (.keyID id) := by
  have hlen : id.toList.length = 20 := id.toList_length
  obtain ⟨opcode, -, hpush⟩ := @CScript.getOp_push_append id.toList
    [UInt8.ofNat CScript.OP_EQUALVERIFY, UInt8.ofNat CScript.OP_CHECKSIG] (by omega)
  have hops : Ops (setDestination (.keyID id)) [(CScript.OP_DUP, []), (CScript.OP_HASH160, []), (opcode, id.toList),
      (CScript.OP_EQUALVERIFY, []), (CScript.OP_CHECKSIG, [])] :=
    .cons rfl (.cons rfl (.cons hpush (.cons rfl (.cons rfl .nil))))
  rw [extractDestination, solver_pubKeyHash_form hlen hops]
  have hid : uint160OfVch id.toList = id := (dif_pos hlen).trans (Subtype.ext rfl)
  exact congrArg (fun x => some (CTxDestination.keyID x)) hid

/-- Scripts to different keys are different. -/
theorem setDestination_inj {id id' : CKeyID} (h : setDestination (.keyID id) = setDestination (.keyID id')) :
    id = id' := by
  have hdest := extractDestination_setDestination (fun _ => id) id
  rw [h, extractDestination_setDestination] at hdest
  cases hdest
  rfl

theorem opensWithReturn_stealthScript (P narr : List UInt8) : OpensWithReturn (stealthScript P narr) := ⟨_, _, rfl⟩

/-- What is read at the ephemeral key. -/
theorem readOutput_stealthScript {K : Type} {stealth : Nat → List UInt8 → CScript → K × MapNarr → K × MapNarr}
    {s : K × MapNarr} {vch narr : List UInt8} (hvch : vch.length = 33) (k : Nat) (nValue : Int) :
    readOutput stealth s (⟨nValue, stealthScript vch narr⟩, k) =
      stealth k vch (if 0 < narr.length then UInt8.ofNat OP_RETURN :: push narr else []) s := by
  obtain ⟨opcode, -, hpush⟩ := @CScript.getOp_push_append vch
    (if 0 < narr.length then UInt8.ofNat OP_RETURN :: push narr else []) (by omega)
  have hopen : getOp (stealthScript vch narr) = some (OP_RETURN, [], push vch ++
      if 0 < narr.length then UInt8.ofNat OP_RETURN :: push narr else []) := rfl
  unfold readOutput
  dsimp only
  rw [hopen]
  dsimp only
  rw [if_neg (not_not_intro rfl), hpush]
  dsimp only
  rw [if_neg (not_not_intro hvch)]

/-- The only output that opens with `OP_RETURN` is the only one that is read. -/
theorem foldl_readOutput {K : Type} {stealth : Nat → List UInt8 → CScript → K × MapNarr → K × MapNarr}
    {before after : List CTxOut} {txout : CTxOut} (s : K × MapNarr)
    (h : ∀ o ∈ before ++ after, ¬ OpensWithReturn o.scriptPubKey) :
    (before ++ txout :: after).zipIdx.foldl (readOutput stealth) s = readOutput stealth s (txout, before.length) := by
  have hskip : ∀ (l : List CTxOut) k (s : K × MapNarr), (∀ o ∈ l, ¬ OpensWithReturn o.scriptPubKey) →
      (l.zipIdx k).foldl (readOutput stealth) s = s := by
    intro l
    induction l with
    | nil => exact fun _ _ _ => rfl
    | cons o l ih =>
      intro k s hl
      obtain ⟨hfirst, hrest⟩ := List.forall_mem_cons.mp hl
      rw [List.zipIdx_cons, List.foldl_cons, readOutput_skip hfirst]
      exact ih (k + 1) s hrest
  rw [List.zipIdx_append, List.foldl_append, hskip before 0 s fun o ho => h o (List.mem_append_left _ ho),
    List.zipIdx_cons, List.foldl_cons, hskip after _ _ fun o ho => h o (List.mem_append_right _ ho), Nat.zero_add]

/-! ## The search -/

theorem sized_toList {n : Nat} (vch : Bytes n) : sized n vch.toList = some vch :=
  (dif_pos vch.toList_length).trans (congrArg some (Subtype.ext rfl))

namespace StealthLibs

variable {G : Type} [AddCommGroup G] {L : StealthLibs G} {vchEphemPK narr : List UInt8} {id ckidTo : CKeyID}
  {addresses before after : List WalletStealthAddress} {it : WalletStealthAddress} {n j : Nat} {s : Seeking}
  {w : StealthWallet}

/-- None of the addresses leads from the ephemeral key to a key. -/
def Foreign (L : StealthLibs G) (addresses : List WalletStealthAddress) (vchEphemPK : List UInt8) (id : CKeyID) :
    Prop :=
  ∀ it ∈ addresses, ∀ sScan sShared pk, sized ec_secret_size it.scan_secret = some sScan →
    L.E.stealthSecret sScan vchEphemPK it.spend_pubkey = some (sShared, pk) → L.hash160 pk.toList ≠ id

theorem tryAddress_foreign (h : L.Foreign [it] vchEphemPK id) : L.tryAddress vchEphemPK id n s it = (s, false) := by
  unfold tryAddress
  cases hscan : sized ec_secret_size it.scan_secret with
  | none => rfl
  | some sScan =>
    dsimp only
    cases hshared : L.E.stealthSecret sScan vchEphemPK it.spend_pubkey with
    | none => rfl
    | some found =>
      have hne := h it (List.mem_singleton_self it) sScan found.1 found.2 hscan hshared
      exact if_pos (Ne.symm hne)

theorem tryAddresses_foreign (h : L.Foreign before vchEphemPK id) :
    L.tryAddresses vchEphemPK id n (before ++ after) s = L.tryAddresses vchEphemPK id n after s := by
  induction before with
  | nil => rfl
  | cons it before ih =>
    have hfirst : L.Foreign [it] vchEphemPK id := fun a ha => h a (List.mem_singleton.mp ha ▸ List.mem_cons_self)
    rw [List.cons_append, tryAddresses, tryAddress_foreign hfirst]
    exact ih fun a ha => h a (List.mem_cons_of_mem it ha)

/-- Outputs that the search passes over: the one with the ephemeral key, and
those to a key that none of the addresses leads to. -/
def Passed (L : StealthLibs G) (addresses : List WalletStealthAddress) (vchEphemPK : List UInt8) (nOutputIdOuter : Nat)
    (output : CTxOut × Nat) : Prop :=
  output.2 = nOutputIdOuter ∨
    ∃ id, output.1.scriptPubKey = setDestination (.keyID id) ∧ L.Foreign addresses vchEphemPK id

theorem tryOutputs_passed {l l' : List (CTxOut × Nat)} (h : ∀ o ∈ l, L.Passed s.keys.stealthAddresses vchEphemPK j o) :
    L.tryOutputs j vchEphemPK (l ++ l') s = L.tryOutputs j vchEphemPK l' s := by
  induction l with
  | nil => rfl
  | cons o l ih =>
    obtain ⟨txoutB, nOutputId⟩ := o
    obtain ⟨hfirst, hrest⟩ := List.forall_mem_cons.mp h
    rw [List.cons_append, tryOutputs]
    rcases hfirst with houter | ⟨id, hscript, hforeign⟩
    · rw [if_pos houter]
      exact ih hrest
    · have hscript : txoutB.scriptPubKey = setDestination (.keyID id) := hscript
      have hnone := @tryAddresses_foreign _ _ L _ id _ [] nOutputId s hforeign
      rw [List.append_nil] at hnone
      rw [hscript, extractDestination_setDestination]
      dsimp only
      rw [hnone]
      simp only [tryAddresses, ih hrest, ite_self]

omit [AddCommGroup G] in
/-- **The note is taken** after the key it is encrypted for. -/
theorem takeNote_eq {sShared : Bytes 32} {sNarr : List UInt8} (hsize : narr.length < 2 ^ 32) (hsome : narr ≠ [])
    (hdecrypt : L.decrypt sShared vchEphemPK narr = some sNarr)
    (hplace : s.itTxA = UInt8.ofNat OP_RETURN :: push narr) :
    L.takeNote sShared vchEphemPK n s = (⟨[], s.keys, s.mapNarr.insert (narrKey n) sNarr⟩, true) := by
  obtain ⟨opcode, -, hpush⟩ := @CScript.getOp_push_append narr [] hsize
  rw [List.append_nil] at hpush
  have hlen : narr.length ≠ 0 := fun hzero => hsome (List.length_eq_zero_iff.mp hzero)
  unfold takeNote
  rw [hplace, getOp_return]
  dsimp only
  rw [if_neg (not_not_intro rfl), hpush]
  dsimp only
  rw [if_neg hlen, hdecrypt]

/-! ## The address that is paid -/

/-- **The wallet can take the payment**: it is locked, or it finds the secret of
the key, and the wallet file takes it. -/
def Takes (L : StealthLibs G) (w : StealthWallet) (f sShared : Bytes 32) (ckidTo : CKeyID) : Prop :=
  w.fLocked = true ∨
    256 ^ 31 ≤ (beNat f.toList + beNat sShared.toList) % secp256k1Order ∧ L.writeKey ckidTo = true

variable {d f sShared : Bytes 32} {pk : Bytes 33} {sNarr : List UInt8}

theorem addresses_addSpendKey : (L.addSpendKey w it sShared).1.stealthAddresses = w.stealthAddresses := by
  unfold addSpendKey
  split
  · rfl
  split
  · rfl
  split
  · rfl
  dsimp only
  split <;> rfl

omit [AddCommGroup G] in
theorem keys_takeNote : (L.takeNote sShared vchEphemPK n s).1.keys = s.keys := by
  unfold takeNote
  split
  · rfl
  split
  · rfl
  split
  · rfl
  split
  · rfl
  split <;> rfl

/-- The search leaves the addresses. -/
theorem addresses_tryAddress :
    (L.tryAddress vchEphemPK id n s it).1.keys.stealthAddresses = s.keys.stealthAddresses := by
  unfold tryAddress
  split
  · rfl
  split
  · rfl
  split
  · rfl
  dsimp only
  by_cases hlocked : s.keys.fLocked = true
  · rw [if_pos hlocked, if_neg (not_not_intro rfl), keys_takeNote]
    rfl
  · rw [if_neg hlocked]
    split
    · exact addresses_addSpendKey
    · rw [keys_takeNote]
      exact addresses_addSpendKey

/-- **What the payment gives**: what its own address does. -/
theorem tryOutputs_payment {l l' : List (CTxOut × Nat)} {txoutB : CTxOut}
    (haddresses : s.keys.stealthAddresses = before ++ it :: after) (hbefore : L.Foreign before vchEphemPK ckidTo)
    (hafter : L.Foreign after vchEphemPK ckidTo)
    (hpassed : ∀ o ∈ l ++ l', L.Passed s.keys.stealthAddresses vchEphemPK j o)
    (hscript : txoutB.scriptPubKey = setDestination (.keyID ckidTo)) (hne : n ≠ j) (hnew : ckidTo ∉ s.keys.mapKeys) :
    L.tryOutputs j vchEphemPK (l ++ (txoutB, n) :: l') s = (L.tryAddress vchEphemPK ckidTo n s it).1 := by
  rw [tryOutputs_passed fun o ho => hpassed o (List.mem_append_left _ ho), tryOutputs, if_neg hne, hscript,
    extractDestination_setDestination]
  dsimp only
  rw [if_neg hnew, haddresses, tryAddresses_foreign hbefore, tryAddresses]
  have hkept := @addresses_tryAddress _ _ L vchEphemPK ckidTo it n s
  generalize L.tryAddress vchEphemPK ckidTo n s it = result at hkept ⊢
  obtain ⟨s', fMatch⟩ := result
  cases fMatch with
  | true => rfl
  | false =>
    have hrest := @tryAddresses_foreign _ _ L vchEphemPK ckidTo after [] n s' hafter
    have hpass := @tryOutputs_passed _ _ L vchEphemPK j s' l' [] fun o ho => by
      rw [hkept]
      exact hpassed o (List.mem_append_right _ ho)
    rw [List.append_nil] at hrest hpass
    dsimp only
    rw [hrest]
    exact hpass

/-- **The address takes the payment**, with its note. -/
theorem tryAddress_taken (htakes : L.Takes s.keys f sShared (L.hash160 pk.toList))
    (hscan : it.scan_secret = d.toList) (hspend : ¬ s.keys.fLocked = true → it.spend_secret = f.toList)
    (hshared : L.E.stealthSecret d vchEphemPK it.spend_pubkey = some (sShared, pk))
    (hkey : ∀ secretOut, stealthSharedToSecretSpend sShared f = some secretOut →
      L.E.secretToPublicKey secretOut = some pk)
    (hsize : narr.length < 2 ^ 32) (hsome : narr ≠ []) (hdecrypt : L.decrypt sShared vchEphemPK narr = some sNarr)
    (hplace : s.itTxA = UInt8.ofNat OP_RETURN :: push narr) :
    (L.tryAddress vchEphemPK (L.hash160 pk.toList) n s it).1.mapNarr = s.mapNarr.insert (narrKey n) sNarr := by
  unfold tryAddress
  rw [hscan, sized_toList]
  dsimp only
  rw [hshared]
  dsimp only
  rw [if_neg (not_not_intro rfl)]
  have hadded : (if s.keys.fLocked then (L.addLockedKey s.keys it vchEphemPK pk, true)
      else L.addSpendKey s.keys it sShared).2 = true := by
    rcases htakes with hlocked | ⟨hle, hwrite⟩
    · rw [if_pos hlocked]
    · split
      · rfl
      next hunlocked =>
        obtain ⟨secretOut, hsecret⟩ := ECGroup.exists_stealthSharedToSecretSpend hle
        unfold addSpendKey
        rw [hspend hunlocked, sized_toList]
        dsimp only
        rw [hsecret]
        dsimp only
        rw [hkey secretOut hsecret]
        dsimp only
        rw [if_neg (not_not_intro hwrite)]
  rw [hadded, if_neg (not_not_intro rfl)]
  generalize (if s.keys.fLocked then _ else _ : StealthWallet × Bool).1 = keys
  rw [takeNote_eq hsize hsome hdecrypt (s := ⟨s.itTxA, keys, s.mapNarr⟩) hplace]

/-- The address does not take it otherwise. -/
theorem tryAddress_refused (hrefuses : ¬ L.Takes s.keys f sShared (L.hash160 pk.toList))
    (hscan : it.scan_secret = d.toList) (hspend : ¬ s.keys.fLocked = true → it.spend_secret = f.toList)
    (hshared : L.E.stealthSecret d vchEphemPK it.spend_pubkey = some (sShared, pk))
    (hkey : ∀ secretOut, stealthSharedToSecretSpend sShared f = some secretOut →
      L.E.secretToPublicKey secretOut = some pk) :
    (L.tryAddress vchEphemPK (L.hash160 pk.toList) n s it).1.mapNarr = s.mapNarr := by
  obtain ⟨hunlocked, hno⟩ := not_or.mp hrefuses
  unfold tryAddress
  rw [hscan, sized_toList]
  dsimp only
  rw [hshared]
  dsimp only
  rw [if_neg (not_not_intro rfl), if_neg hunlocked]
  have hadded : (L.addSpendKey s.keys it sShared).2 = false := by
    unfold addSpendKey
    rw [hspend hunlocked, sized_toList]
    dsimp only
    cases hsecret : stealthSharedToSecretSpend sShared f with
    | none => rfl
    | some secretOut =>
      have hle := (ECGroup.of_stealthSharedToSecretSpend hsecret).1
      dsimp only
      rw [hkey secretOut hsecret]
      dsimp only
      rw [if_pos fun hwrite => hno ⟨hle, hwrite⟩]
  rw [hadded, if_pos Bool.false_ne_true]

end StealthLibs

/-! ## The outputs of a payment -/

/-- The outputs of a transaction are the payment, the one with the ephemeral
key, and change to a reserved key. -/
structure Laid (reservedKey : CKeyID → Prop) (payment ephemeral : CTxOut) (change vout : List CTxOut) : Prop where
  outs : vout.Perm (payment :: ephemeral :: change)
  single : change.length ≤ 1
  reserved : ∀ txout ∈ change, 0 < txout.nValue ∧ ∃ id, reservedKey id ∧ txout.scriptPubKey = setDestination (.keyID id)

namespace Laid

variable {reservedKey : CKeyID → Prop} {ckidTo : CKeyID} {nValue : Int} {vch narr : List UInt8}
  {change vout : List CTxOut}

/-- Each output is there once. -/
theorem nodup (h : Laid reservedKey ⟨nValue, setDestination (.keyID ckidTo)⟩ ⟨0, stealthScript vch narr⟩ change vout)
    (hfresh : ¬ reservedKey ckidTo) : vout.Nodup := by
  have hreturn := opensWithReturn_stealthScript vch narr
  rw [h.outs.nodup_iff, List.nodup_cons, List.nodup_cons]
  refine ⟨fun hmem => ?_, fun hmem => ?_, ?_⟩
  · rcases List.mem_cons.mp hmem with heq | hmem
    · rw [← (CTxOut.mk.inj heq).2] at hreturn
      exact not_opensWithReturn_setDestination _ hreturn
    · obtain ⟨-, id, hid, hscript⟩ := h.reserved _ hmem
      exact hfresh (setDestination_inj hscript ▸ hid)
  · exact absurd (h.reserved _ hmem).1 (lt_irrefl _)
  · have hsingle := h.single
    match change, hsingle with
    | [], _ => exact List.nodup_nil
    | [txout], _ => exact List.nodup_singleton txout
    | _ :: _ :: _, hle => simp at hle

/-- The first output is not empty. -/
theorem not_isEmpty
    (h : Laid reservedKey ⟨nValue, setDestination (.keyID ckidTo)⟩ ⟨0, stealthScript vch narr⟩ change vout)
    (hpositive : 0 < nValue) : ∀ txout ∈ vout.head?, ¬ txout.isEmpty := by
  intro txout hhead hempty
  have hmem := h.outs.mem_iff.mp (List.mem_of_mem_head? hhead)
  rcases List.mem_cons.mp hmem with rfl | hmem
  · exact hpositive.ne' hempty.1
  rcases List.mem_cons.mp hmem with rfl | hmem
  · exact nomatch hempty.2
  · exact (h.reserved _ hmem).1.ne' hempty.1

end Laid

namespace StealthSender

variable {G : Type} [AddCommGroup G] {q : StealthSender G} {sxAddress : CStealthAddress} {nValue : Int}
  {sNarr vch narr : List UInt8} {wtxNew : CTransaction} {mapValue mapValue' : MapNarr} {fAskFee : Bool} {fuel : Nat}
  {scriptPubKey : CScript} {c : Created} {tx : CTransaction}

/-- A key that a round reserves for its change. -/
def Reserves (q : StealthSender G) (id : CKeyID) : Prop := ∃ n, (q.rounds n).reservedKey = some id

omit [AddCommGroup G] in
/-- **What is created**: the two outputs in any order, and change anywhere. -/
theorem exists_laid (hindex : ∀ hash pcoin, q.w.mapWallet.lookup hash = some pcoin → pcoin.tx.vout.length ≤ UINT_MAX)
    (h : q.w.createTransactionAt q.P q.view (q.request scriptPubKey nValue vch narr) wtxNew q.grow q.stray q.rounds
      fuel = some (.created c)) :
    (∀ txin ∈ c.tx.vin, txin.prevout.n < UINT_MAX) ∧
      ∃ change, Laid q.Reserves ⟨nValue, scriptPubKey⟩ ⟨0, stealthScript vch narr⟩ change c.tx.vout := by
  obtain ⟨n, t, -, hends⟩ := CWallet.ends_of_created h
  rcases CWallet.createRound_cases q.P q.w q.view (q.request scriptPubKey nValue vch narr) wtxNew _ (q.rounds n)
    t.nFeeRet with hfailed | haborted | ⟨sel, nMoveToFee, tx, hreaches, hround⟩
  · exact nomatch hfailed.symm.trans hends.round
  · exact nomatch haborted.symm.trans hends.round
  have htx : tx = c.tx := by
    have hdone := hround.symm.trans hends.round
    split at hdone
    · cases hdone
    · exact (CreateResult.created.inj (Turn.done.inj hdone)).1
  subst htx
  refine ⟨prevout_lt_of_reaches hreaches hindex, ?_⟩
  obtain ⟨address, houts⟩ := hreaches.outs
  generalize sel.nValue - _ - t.nFeeRet - nMoveToFee = nChange at houts
  have hperm : (payeeOuts q.fSplitBlock 1 (q.request scriptPubKey nValue vch narr).vecSend).Perm
      [⟨nValue, scriptPubKey⟩, ⟨0, stealthScript vch narr⟩] := by
    have hplain : payeeOuts q.fSplitBlock 1 (q.request scriptPubKey nValue vch narr).vecSend =
        (q.request scriptPubKey nValue vch narr).vecSend.map fun s => ⟨s.2, s.1⟩ :=
      SendRequest.payeeOuts_unsplit (r := q.request scriptPubKey nValue vch narr) (.inr le_rfl) _
    rw [hplain]
    exact (q.random_shuffle_perm _).map _
  rcases SendRequest.outsWithChange_eq houts with ⟨-, hvout⟩ | ⟨hpos, position, scriptChange, hle, hscript, hvout⟩
  · rw [hvout]
    exact ⟨[], hperm, Nat.zero_le _, nofun⟩
  · obtain ⟨id, hid, rfl⟩ := Option.map_eq_some_iff.mp hscript
    refine ⟨[⟨nChange, setDestination (.keyID id)⟩], ?_, le_rfl, fun txout hmem => ?_⟩
    · rw [hvout]
      refine (List.perm_insertIdx _ _ ((changePosition_le _ _).trans hle)).trans ((hperm.cons _).trans ?_)
      exact (List.Perm.swap _ _ _).trans ((List.Perm.swap _ _ _).cons _)
    · rw [List.mem_singleton.mp hmem]
      exact ⟨hpos, id, ⟨n, hid⟩, rfl⟩

variable {sShared : Bytes 32} {pkSendTo P : Bytes 33}

/-- The script that is paid. -/
def scriptTo (q : StealthSender G) (pkSendTo : Bytes 33) : CScript :=
  setDestination (.keyID (q.hash160 pkSendTo.toList))

/-- **What is sent**: a transaction that was created for the payment and its
encrypted note. -/
theorem exists_created (hnote : sNarr ≠ []) (hpayee : q.payee sxAddress = .ok (sShared, pkSendTo, P))
    (hsent : q.sendStealthMoneyToDestination sxAddress nValue sNarr wtxNew mapValue fAskFee fuel =
      some (.sent tx mapValue')) :
    0 < nValue ∧ ∃ vchNarr c, q.encrypt sShared P.toList sNarr = some vchNarr ∧ vchNarr.length ≤ 48 ∧
      q.w.createTransactionAt q.P q.view (q.request (q.scriptTo pkSendTo) nValue P.toList vchNarr) wtxNew q.grow q.stray
        q.rounds fuel = some (.created c) ∧ tx = c.tx ∧
      mapValue' = if 0 < vchNarr.length then recordNote (q.scriptTo pkSendTo) nValue sNarr tx.vout mapValue
        else mapValue := by
  unfold sendStealthMoneyToDestination at hsent
  split at hsent
  · cases hsent
  next hpositive =>
  split at hsent
  · cases hsent
  rw [hpayee] at hsent
  dsimp only at hsent
  unfold sealNote at hsent
  rw [if_pos (List.length_pos_iff.mpr hnote)] at hsent
  cases hencrypt : q.encrypt sShared P.toList sNarr with
  | none =>
    rw [hencrypt] at hsent
    cases hsent
  | some vchNarr =>
    rw [hencrypt] at hsent
    dsimp only at hsent
    by_cases hlong : 48 < vchNarr.length
    · rw [if_pos hlong] at hsent
      cases hsent
    rw [if_neg hlong] at hsent
    dsimp only at hsent
    unfold sendStealthMoney at hsent
    split at hsent
    · cases hsent
    split at hsent
    · cases hsent
    obtain ⟨⟨outcome, mapValue₁⟩, hcreate, hsent⟩ := Option.map_eq_some_iff.mp hsent
    obtain ⟨outcome', hcreated, hrecord⟩ := Option.map_eq_some_iff.mp hcreate
    refine ⟨not_le.mp hpositive, vchNarr, ?_⟩
    cases outcome' with
    | failed nFeeRet =>
      cases hrecord
      dsimp only at hsent
      split at hsent <;> cases hsent
    | aborted =>
      cases hrecord
      cases hsent
    | created c =>
      cases hrecord
      dsimp only at hsent
      split at hsent
      · cases hsent
      split at hsent
      · cases hsent
      cases hsent
      exact ⟨c, rfl, not_lt.mp hlong, hcreated, rfl, rfl⟩

/-- The sender records the note at the payment. -/
theorem recordNote_eq {vout : List CTxOut} {k : Nat} (hnodup : vout.Nodup)
    (hplace : vout[k]? = some ⟨nValue, scriptPubKey⟩) :
    recordNote scriptPubKey nValue sNarr vout mapValue = mapValue.insert (narrKey k) sNarr := by
  have hfind : vout.findIdx? (fun txout => decide (txout.scriptPubKey = scriptPubKey ∧ txout.nValue = nValue)) =
      some k := by
    obtain ⟨hk, hout⟩ := List.getElem?_eq_some_iff.mp hplace
    refine List.findIdx?_eq_some_iff_getElem.mpr ⟨hk, ?_, fun j hj => ?_⟩
    · rw [hout]
      exact decide_eq_true ⟨rfl, rfl⟩
    · rw [decide_eq_true_iff]
      rintro ⟨hscript, hvalue⟩
      have hsame : vout[j] = vout[k] := by
        rw [hout, ← hscript, ← hvalue]
      exact hj.ne ((hnodup.getElem_inj_iff).mp hsame)
  rw [recordNote, hfind]

end StealthSender

/-! ## The recipient -/

/-- **The wallet owns the address**: it has it with its scan secret, and, where
it is not locked, with its spend secret. -/
structure StealthWallet.Owns {G : Type} [AddCommGroup G] (E : ECGroup G) (w : StealthWallet)
    (sxAddress : CStealthAddress) (d f : Bytes 32) : Prop where
  scan : ∃ Q, E.secretToPublicKey d = some Q ∧ Q.toList = sxAddress.scan_pubkey
  spend : ∃ R, E.secretToPublicKey f = some R ∧ R.toList = sxAddress.spend_pubkey
  kept : ∃ it ∈ w.stealthAddresses, it.scan_pubkey = sxAddress.scan_pubkey ∧ it.spend_pubkey = sxAddress.spend_pubkey ∧
    it.scan_secret = d.toList ∧ (¬ w.fLocked = true → it.spend_secret = f.toList)

namespace StealthSender

variable {G : Type} [AddCommGroup G]

/-- `SecMsgCrypter` decrypts what it encrypted, which is not empty. -/
structure Inverts (L : StealthLibs G) : Prop where
  decrypts : ∀ key iv note sealed, L.encrypt key iv note = some sealed → L.decrypt key iv sealed = some note
  some : ∀ key iv note, L.encrypt key iv note ≠ some []

/-- **No key by chance**: the key that is paid is not one the sender reserves,
and from the ephemeral key only the address that is paid leads to it, and none
to a reserved key. -/
structure Apart (q : StealthSender G) (sxAddress : CStealthAddress) (w : StealthWallet) (pkSendTo P : Bytes 33) :
    Prop where
  fresh : ¬ q.Reserves (q.hash160 pkSendTo.toList)
  change : ∀ id, q.Reserves id → q.Foreign w.stealthAddresses P.toList id
  others : q.Foreign (w.stealthAddresses.filter fun it => decide (it.scan_pubkey ≠ sxAddress.scan_pubkey)) P.toList
    (q.hash160 pkSendTo.toList)

variable {q : StealthSender G} {sxAddress : CStealthAddress} {nValue : Int} {sNarr vchNarr : List UInt8}
  {tx : CTransaction} {sShared d f : Bytes 32} {pkSendTo P : Bytes 33} {w : StealthWallet} {change : List CTxOut}
  {k : Nat}

/-- The owned address, among others that do not lead to the key that is paid. -/
theorem Apart.exists_split (hapart : q.Apart sxAddress w pkSendTo P) (howns : w.Owns q.E sxAddress d f) :
    ∃ before it after, w.stealthAddresses = before ++ it :: after ∧ it.spend_pubkey = sxAddress.spend_pubkey ∧
      it.scan_secret = d.toList ∧ (¬ w.fLocked = true → it.spend_secret = f.toList) ∧
      q.Foreign before P.toList (q.hash160 pkSendTo.toList) ∧ q.Foreign after P.toList (q.hash160 pkSendTo.toList) := by
  obtain ⟨it, hit, hscan, hspend, hsecret, hsecret'⟩ := howns.kept
  obtain ⟨before, after, hsplit⟩ := List.append_of_mem hit
  have hdistinct := w.distinct
  rw [hsplit, List.map_append, List.map_cons] at hdistinct
  have hmiddle := List.nodup_middle.mp hdistinct
  have hother : ∀ a ∈ before ++ after,
      a ∈ w.stealthAddresses.filter fun it => decide (it.scan_pubkey ≠ sxAddress.scan_pubkey) := by
    intro a ha
    have hin : a ∈ w.stealthAddresses := by
      rw [hsplit]
      rcases List.mem_append.mp ha with h | h
      · exact List.mem_append_left _ h
      · exact List.mem_append_right _ (List.mem_cons_of_mem _ h)
    refine List.mem_filter.mpr ⟨hin, decide_eq_true fun heq => ?_⟩
    rw [← List.map_append] at hmiddle
    exact (List.nodup_cons.mp hmiddle).1 (hscan.trans heq.symm ▸ List.mem_map_of_mem ha)
  exact ⟨before, it, after, hsplit, hspend, hsecret, hsecret',
    fun a ha => hapart.others a (hother a (List.mem_append_left _ ha)),
    fun a ha => hapart.others a (hother a (List.mem_append_right _ ha))⟩

/-- The outputs besides the payment are passed over. -/
theorem Apart.passed (hapart : q.Apart sxAddress w pkSendTo P) {j : Nat} {before after : List CTxOut}
    (hlaid : Laid q.Reserves ⟨nValue, q.scriptTo pkSendTo⟩ ⟨0, stealthScript P.toList vchNarr⟩ change tx.vout)
    (hephemeral : tx.vout[j]? = some ⟨0, stealthScript P.toList vchNarr⟩)
    (hsplit : tx.vout = before ++ ⟨nValue, q.scriptTo pkSendTo⟩ :: after) :
    ∀ o ∈ before.zipIdx ++ after.zipIdx (before.length + 1), q.Passed w.stealthAddresses P.toList j o := by
  have hnodup : tx.vout.Nodup := hlaid.nodup hapart.fresh
  have hplace : tx.vout[before.length]? = some ⟨nValue, q.scriptTo pkSendTo⟩ := by
    rw [hsplit, List.getElem?_append_right le_rfl, Nat.sub_self, List.getElem?_cons_zero]
  have hunique : ∀ {m n : Nat} {o : CTxOut}, tx.vout[m]? = some o → tx.vout[n]? = some o → m = n := by
    intro m n o hm hn
    obtain ⟨hm', hm⟩ := List.getElem?_eq_some_iff.mp hm
    obtain ⟨hn', hn⟩ := List.getElem?_eq_some_iff.mp hn
    exact hnodup.getElem_inj_iff.mp (hm.trans hn.symm)
  rintro ⟨o, n⟩ ho
  have hne : n ≠ before.length := by
    rcases List.mem_append.mp ho with h | h
    · exact (List.snd_lt_of_mem_zipIdx h).ne
    · have := List.le_snd_of_mem_zipIdx h
      omega
  have hin : (o, n) ∈ tx.vout.zipIdx := by
    rw [hsplit, List.zipIdx_append, List.zipIdx_cons, Nat.zero_add]
    rcases List.mem_append.mp ho with h | h
    · exact List.mem_append_left _ h
    · exact List.mem_append_right _ (List.mem_cons_of_mem _ h)
  have hat : tx.vout[n]? = some o := List.mem_zipIdx_iff_getElem?.mp hin
  have hmem := hlaid.outs.mem_iff.mp (List.mem_of_getElem? hat)
  rcases List.mem_cons.mp hmem with rfl | hmem
  · exact absurd (hunique hat hplace) hne
  rcases List.mem_cons.mp hmem with rfl | hmem
  · exact .inl (hunique hat hephemeral)
  · obtain ⟨-, id, hid, hscript⟩ := hlaid.reserved o hmem
    exact .inr ⟨id, hscript, hapart.change id hid⟩

/-- **What the recipient finds** is what the address that is paid gives. -/
theorem findStealth_eq (hapart : q.Apart sxAddress w pkSendTo P) (howns : w.Owns q.E sxAddress d f)
    (hlaid : Laid q.Reserves ⟨nValue, q.scriptTo pkSendTo⟩ ⟨0, stealthScript P.toList vchNarr⟩ change tx.vout)
    (hgenerated : ¬ (tx.isCoinBase ∨ tx.isCoinStake)) (hplace : tx.vout[k]? = some ⟨nValue, q.scriptTo pkSendTo⟩)
    (hfirst : q.hash160 pkSendTo.toList ∉ w.mapKeys) (hsome : vchNarr ≠ []) (mapNarr : MapNarr) :
    (q.findStealth w tx mapNarr).1 = true ∧ ∃ it : WalletStealthAddress, it.spend_pubkey = sxAddress.spend_pubkey ∧
      it.scan_secret = d.toList ∧ (¬ w.fLocked = true → it.spend_secret = f.toList) ∧
      (q.findStealth w tx mapNarr).2.2 = (q.tryAddress P.toList (q.hash160 pkSendTo.toList) k
        ⟨UInt8.ofNat OP_RETURN :: push vchNarr, { w with nStealth := w.nStealth + 1 }, ∅⟩ it).1.mapNarr := by
  obtain ⟨before, it, after, haddresses, hspend, hscan, hsecret, hbefore, hafter⟩ := hapart.exists_split howns
  have hnodup : tx.vout.Nodup := hlaid.nodup hapart.fresh
  have hin : (⟨0, stealthScript P.toList vchNarr⟩ : CTxOut) ∈ tx.vout :=
    hlaid.outs.mem_iff.mpr (List.mem_cons_of_mem _ List.mem_cons_self)
  obtain ⟨pre, post, hsplit⟩ := List.append_of_mem hin
  have hephemeral : tx.vout[pre.length]? = some ⟨0, stealthScript P.toList vchNarr⟩ := by
    rw [hsplit, List.getElem?_append_right le_rfl, Nat.sub_self, List.getElem?_cons_zero]
  have hclosed : ∀ o ∈ pre ++ post, ¬ OpensWithReturn o.scriptPubKey := by
    have hrest : (pre ++ post).Perm (⟨nValue, q.scriptTo pkSendTo⟩ :: change) := by
      have hperm := hlaid.outs
      rw [hsplit] at hperm
      exact (List.perm_cons _).mp ((List.perm_middle.symm.trans hperm).trans (List.Perm.swap _ _ _))
    intro o ho
    rcases List.mem_cons.mp (hrest.mem_iff.mp ho) with rfl | hmem
    · exact not_opensWithReturn_setDestination (.keyID (q.hash160 pkSendTo.toList))
    · obtain ⟨-, id, -, hscript⟩ := hlaid.reserved o hmem
      rw [hscript]
      exact not_opensWithReturn_setDestination _
  obtain ⟨hk, hout⟩ := List.getElem?_eq_some_iff.mp hplace
  have hpay : tx.vout = tx.vout.take k ++ ⟨nValue, q.scriptTo pkSendTo⟩ :: tx.vout.drop (k + 1) := by
    rw [← hout, List.cons_getElem_drop_succ, List.take_append_drop]
  have hlength : (tx.vout.take k).length = k := List.length_take_of_le hk.le
  have hpassed := hapart.passed hlaid hephemeral hpay
  have hne : k ≠ pre.length := by
    rintro rfl
    have hscript := congrArg CTxOut.scriptPubKey (Option.some.inj (hplace.symm.trans hephemeral))
    have hopens := opensWithReturn_stealthScript P.toList vchNarr
    rw [← show q.scriptTo pkSendTo = stealthScript P.toList vchNarr from hscript] at hopens
    exact not_opensWithReturn_setDestination (.keyID (q.hash160 pkSendTo.toList)) hopens
  have hread : tx.vout.zipIdx.foldl (readOutput (q.seek tx)) (w, (∅ : MapNarr)) =
      q.seek tx pre.length P.toList (UInt8.ofNat OP_RETURN :: push vchNarr) (w, ∅) := by
    have hfold := @foldl_readOutput _ (q.seek tx) pre post ⟨0, stealthScript P.toList vchNarr⟩ (w, (∅ : MapNarr))
      hclosed
    rw [readOutput_stealthScript P.toList_length, if_pos (List.length_pos_iff.mpr hsome)] at hfold
    rw [hsplit]
    exact hfold
  unfold StealthLibs.findStealth findStealthTransactions
  rw [if_neg hgenerated]
  refine ⟨rfl, it, hspend, hscan, hsecret, ?_⟩
  dsimp only
  rw [hread]
  unfold StealthLibs.seek
  dsimp only
  have hzip : tx.vout.zipIdx = (tx.vout.take k).zipIdx ++ (⟨nValue, q.scriptTo pkSendTo⟩, k) ::
      (tx.vout.drop (k + 1)).zipIdx ((tx.vout.take k).length + 1) := by
    conv_lhs => rw [hpay]
    rw [List.zipIdx_append, List.zipIdx_cons, Nat.zero_add, hlength]
  rw [hzip]
  exact congrArg StealthLibs.Seeking.mapNarr (StealthLibs.tryOutputs_payment
    (s := ⟨UInt8.ofNat OP_RETURN :: push vchNarr, { w with nStealth := w.nStealth + 1 }, ∅⟩) haddresses hbefore hafter
    hpassed rfl hne hfirst)

/-! ## The note -/

/-- **The note arrives**: it is under the place of the payment, alone for the
recipient, and added to what the sender had. -/
structure Arrives (q : StealthSender G) (w : StealthWallet) (tx : CTransaction) (payment : CTxOut) (sNarr : List UInt8)
    (mapValue mapValue' : MapNarr) (k : Nat) : Prop where
  place : tx.vout[k]? = some payment
  only : ∀ j, tx.vout[j]? = some payment → j = k
  returns : (q.findStealth w tx ∅).1 = true
  found : (q.findStealth w tx ∅).2.2 = AList.insert (narrKey k) sNarr ∅
  recorded : mapValue' = mapValue.insert (narrKey k) sNarr

/-- What a payment with a note comes with. -/
structure Sent (q : StealthSender G) (sxAddress : CStealthAddress) (nValue : Int) (sNarr : List UInt8)
    (mapValue mapValue' : MapNarr) (tx : CTransaction) (sShared : Bytes 32) (pkSendTo P : Bytes 33) : Prop where
  payee : q.payee sxAddress = .ok (sShared, pkSendTo, P)
  created : ∃ vchNarr change, q.encrypt sShared P.toList sNarr = some vchNarr ∧ vchNarr ≠ [] ∧ vchNarr.length ≤ 48 ∧
    Laid q.Reserves ⟨nValue, q.scriptTo pkSendTo⟩ ⟨0, stealthScript P.toList vchNarr⟩ change tx.vout ∧
    mapValue' = recordNote (q.scriptTo pkSendTo) nValue sNarr tx.vout mapValue
  generated : ¬ (tx.isCoinBase ∨ tx.isCoinStake)

variable {wtxNew : CTransaction} {mapValue mapValue' : MapNarr} {fAskFee : Bool} {fuel : Nat}

theorem sent_of_send (hcrypt : Inverts q.toStealthLibs)
    (hindex : ∀ hash pcoin, q.w.mapWallet.lookup hash = some pcoin → pcoin.tx.vout.length ≤ UINT_MAX)
    (hnote : sNarr ≠ [])
    (hpayee : q.payee sxAddress = .ok (sShared, pkSendTo, P))
    (hsent : q.sendStealthMoneyToDestination sxAddress nValue sNarr wtxNew mapValue fAskFee fuel =
      some (.sent tx mapValue')) : q.Sent sxAddress nValue sNarr mapValue mapValue' tx sShared pkSendTo P := by
  obtain ⟨hpositive, vchNarr, c, hencrypt, hlength, hcreated, rfl, hrecord⟩ := exists_created hnote hpayee hsent
  obtain ⟨hins, change, hlaid⟩ := exists_laid hindex hcreated
  have hsome : vchNarr ≠ [] := fun hnone => hcrypt.some _ _ _ (hnone ▸ hencrypt)
  rw [if_pos (List.length_pos_iff.mpr hsome)] at hrecord
  exact ⟨hpayee, ⟨vchNarr, change, hencrypt, hsome, hlength, hlaid, hrecord⟩,
    not_generated hins (hlaid.not_isEmpty hpositive)⟩

/-- **The note arrives** exactly where the recipient can take the payment. -/
theorem Sent.arrives_iff (h : q.Sent sxAddress nValue sNarr mapValue mapValue' tx sShared pkSendTo P)
    (hE : q.E.Complete) (hcrypt : Inverts q.toStealthLibs) (hapart : q.Apart sxAddress w pkSendTo P)
    (howns : w.Owns q.E sxAddress d f) (hfirst : q.hash160 pkSendTo.toList ∉ w.mapKeys) :
    (∃ k, q.Arrives w tx ⟨nValue, q.scriptTo pkSendTo⟩ sNarr mapValue mapValue' k) ↔
      q.Takes w f sShared (q.hash160 pkSendTo.toList) := by
  obtain ⟨vchNarr, change, hencrypt, hsome, hlength, hlaid, hrecord⟩ := h.created
  have hnodup : tx.vout.Nodup := hlaid.nodup hapart.fresh
  have hin : (⟨nValue, q.scriptTo pkSendTo⟩ : CTxOut) ∈ tx.vout := hlaid.outs.mem_iff.mpr List.mem_cons_self
  obtain ⟨k, hk, hout⟩ := List.getElem_of_mem hin
  have hplace : tx.vout[k]? = some ⟨nValue, q.scriptTo pkSendTo⟩ := List.getElem?_eq_some_iff.mpr ⟨hk, hout⟩
  have honly : ∀ j, tx.vout[j]? = some ⟨nValue, q.scriptTo pkSendTo⟩ → j = k := by
    intro j hj
    obtain ⟨hj', hout'⟩ := List.getElem?_eq_some_iff.mp hj
    exact hnodup.getElem_inj_iff.mp (hout'.trans hout.symm)
  obtain ⟨Q, hQ, hQscan⟩ := howns.scan
  obtain ⟨R, hR, hRspend⟩ := howns.spend
  -- the ephemeral secret of the sender
  obtain ⟨e, hP, hsend⟩ : ∃ e, q.E.secretToPublicKey e = some P ∧
      q.E.stealthSecret e sxAddress.scan_pubkey sxAddress.spend_pubkey = some (sShared, pkSendTo) := by
    have hpayee := h.payee
    unfold StealthSender.payee at hpayee
    split at hpayee
    · cases hpayee
    next e _ =>
    split at hpayee
    · cases hpayee
    next hsend =>
    split at hpayee
    · cases hpayee
    next hP =>
    cases hpayee
    exact ⟨e, hP, hsend⟩
  rw [← hQscan, ← hRspend] at hsend
  have hshared : q.E.stealthSecret d P.toList R.toList = some (sShared, pkSendTo) := by
    rw [hE.stealthSecret_comm hQ hP]
    exact hsend
  have hkey : ∀ secretOut, stealthSharedToSecretSpend sShared f = some secretOut →
      q.E.secretToPublicKey secretOut = some pkSendTo :=
    fun _ hsecretOut => hE.secretToPublicKey_spend hR hsend hsecretOut
  obtain ⟨hreturns, it, hspend, hscan, hsecret, hfound⟩ :=
    findStealth_eq hapart howns hlaid h.generated hplace hfirst hsome ∅
  rw [← hRspend] at hspend
  rw [← hspend] at hshared
  constructor
  · rintro ⟨k', harrives⟩
    by_contra hrefuses
    rw [StealthLibs.tryAddress_refused hrefuses hscan hsecret hshared hkey, harrives.found] at hfound
    have hlookup := congrArg (AList.lookup (narrKey k')) hfound
    rw [AList.lookup_insert] at hlookup
    cases hlookup
  · intro htakes
    refine ⟨k, hplace, honly, hreturns, ?_, ?_⟩
    · rw [hfound, StealthLibs.tryAddress_taken htakes hscan hsecret hshared hkey (by omega) hsome
        (hcrypt.decrypts _ _ _ _ hencrypt) rfl]
    · rw [hrecord, recordNote_eq hnodup hplace]

/-- **Notes to stealth addresses** arrive exactly where the recipient's wallet
is locked, or the sum of the spend secret and the shared number has no zero
byte in front and the file takes the key. An index into the outputs of a wallet
transaction is an `unsigned int`. -/
theorem stealthNote_arrives_iff (q : StealthSender G) (sxAddress : CStealthAddress) (nValue : Int) (sNarr : List UInt8)
    (wtxNew : CTransaction) (mapValue : MapNarr) (fAskFee : Bool) (fuel : Nat) (tx : CTransaction) (mapValue' : MapNarr)
    (sShared : Bytes 32) (pkSendTo P : Bytes 33) (w : StealthWallet) (d f : Bytes 32) (hE : q.E.Complete)
    (hcrypt : Inverts q.toStealthLibs)
    (hindex : ∀ hash pcoin, q.w.mapWallet.lookup hash = some pcoin → pcoin.tx.vout.length ≤ UINT_MAX)
    (hnote : sNarr ≠ [])
    (hpayee : q.payee sxAddress = .ok (sShared, pkSendTo, P))
    (hsent : q.sendStealthMoneyToDestination sxAddress nValue sNarr wtxNew mapValue fAskFee fuel =
      some (.sent tx mapValue'))
    (hapart : q.Apart sxAddress w pkSendTo P) (howns : w.Owns q.E sxAddress d f)
    (hfirst : q.hash160 pkSendTo.toList ∉ w.mapKeys) :
    (∃ k, q.Arrives w tx ⟨nValue, q.scriptTo pkSendTo⟩ sNarr mapValue mapValue' k) ↔
      q.Takes w f sShared (q.hash160 pkSendTo.toList) :=
  (sent_of_send hcrypt hindex hnote hpayee hsent).arrives_iff hE hcrypt hapart howns hfirst

end StealthSender

/-! ## A payment with a short key -/

namespace Sample

open StealthSample (secretOf beNat_secretOf group lawful)

/-- A hash that keeps the last bytes. -/
def lastBytes (vch : List UInt8) : CKeyID :=
  ⟨(vch.reverse.take 20).reverse ++ List.replicate (20 - min 20 vch.length) 0, by
    simp only [List.length_append, List.length_reverse, List.length_take, List.length_replicate]
    omega⟩

/-- The 33 bytes of a point. -/
def pointOf (n : Nat) : Bytes 33 := ⟨2 :: (secretOf n).toList, congrArg (· + 1) (secretOf n).toList_length⟩

def stealthTo : CStealthAddress := ⟨0, (pointOf 2).toList, (pointOf 7).toList⟩

/-- The outputs are exchanged, and the change goes to the front. -/
noncomputable def stealthSender : StealthSender (ZMod secp256k1Order) where
  E := group
  hash160 := lastBytes
  encrypt _ _ note := some (0 :: note)
  decrypt _ _ sealed := some sealed.tail
  writeKey _ := true
  P := params true
  w := coinWallet
  view := coinView
  fLocked := false
  fWalletUnlockStakingOnly := false
  fSplitBlock := false
  nTransactionFee := MIN_TX_FEE
  getBalance := 5 * COIN
  generateRandomSecret := some (secretOf 3)
  random_shuffle := List.reverse
  random_shuffle_perm := List.reverse_perm
  rounds _ := { roundEnv with reservedKey := some (List.Vector.replicate 20 0) }
  grow n := n + 1
  stray _ := 0
  threadSafeAskFee _ := true
  commitTransaction _ := true

def stealthNote : List UInt8 := [0x68, 0x69]

def stealthPaid : CTransaction :=
  ⟨1, 2000, [⟨⟨1000, 0⟩, [], UINT_MAX⟩],
    [⟨COIN - MIN_TX_FEE, setDestination (.keyID (List.Vector.replicate 20 0))⟩,
      ⟨0, stealthScript (pointOf 3).toList (0 :: stealthNote)⟩,
      ⟨4 * COIN, setDestination (.keyID (lastBytes (pointOf 12).toList))⟩], 0⟩

/-- The wallet with the spend secret 7. -/
def stealthPayee (fLocked : Bool) : StealthWallet where
  fLocked := fLocked
  stealthAddresses := [⟨stealthTo, (secretOf 2).toList, (secretOf 7).toList⟩]
  distinct := List.nodup_singleton _
  mapKeys := ∅
  mapAddressBook := ∅
  mapStealthKeyMeta := ∅
  nStealth := 0
  nFoundStealth := 0

/-- The transaction of a payment that was sent. -/
def sentTx : Option StealthSent → Option CTransaction
  | some (.sent tx _) => some tx
  | _ => none

theorem exists_stealthPaid :
    ∃ mapValue', stealthSender.sendStealthMoneyToDestination stealthTo (4 * COIN) stealthNote unsent ∅ false 2 =
      some (.sent stealthPaid mapValue') := by
  have hsent : sentTx (stealthSender.sendStealthMoneyToDestination stealthTo (4 * COIN) stealthNote unsent ∅ false 2) =
      some stealthPaid := by decide +kernel
  revert hsent
  generalize stealthSender.sendStealthMoneyToDestination stealthTo (4 * COIN) stealthNote unsent ∅ false 2 = result
  intro hsent
  match result, hsent with
  | some (.sent tx mapValue'), hsent =>
    obtain rfl : tx = stealthPaid := Option.some.inj hsent
    exact ⟨mapValue', rfl⟩

theorem payee_stealthTo : stealthSender.payee stealthTo = .ok (secretOf 5, pointOf 12, pointOf 3) := by decide +kernel

theorem complete_group : group.Complete := ⟨lawful, rfl⟩

theorem apart_stealthPayee (fLocked : Bool) :
    stealthSender.Apart stealthTo (stealthPayee fLocked) (pointOf 12) (pointOf 3) where
  fresh := by
    rintro ⟨_, hid⟩
    exact absurd (Option.some.inj hid) (by decide +kernel)
  change := by
    rintro id ⟨_, hid⟩ it hit sScan sShared pk hscan hshared
    obtain rfl := List.mem_singleton.mp hit
    obtain rfl := Option.some.inj ((sized_toList (secretOf 2)).symm.trans hscan)
    have hpays : group.stealthSecret (secretOf 2) (pointOf 3).toList stealthTo.spend_pubkey =
        some (secretOf 5, pointOf 12) := by decide +kernel
    obtain ⟨rfl, rfl⟩ := Prod.mk.inj (Option.some.inj (hpays.symm.trans hshared))
    rw [← Option.some.inj hid]
    show lastBytes (pointOf 12).toList ≠ List.Vector.replicate 20 0
    decide +kernel
  others := by
    have hnone : (stealthPayee fLocked).stealthAddresses.filter
        (fun it => decide (it.scan_pubkey ≠ stealthTo.scan_pubkey)) = [] := by
      simp [stealthPayee]
    rw [hnone]
    exact fun it hit => nomatch hit

theorem owns_stealthPayee (fLocked : Bool) :
    (stealthPayee fLocked).Owns group stealthTo (secretOf 2) (secretOf 7) where
  scan := ⟨pointOf 2, by decide +kernel, rfl⟩
  spend := ⟨pointOf 7, by decide +kernel, rfl⟩
  kept := ⟨_, List.mem_singleton_self _, rfl, rfl, rfl, fun _ => rfl⟩

theorem inverts_stealthSender : StealthSender.Inverts stealthSender.toStealthLibs where
  decrypts key iv note sealed h := by
    obtain rfl := Option.some.inj h
    rfl
  some _ _ _ h := nomatch h

end Sample

open Sample in
/-- A locked wallet. -/
theorem StealthSender.stealthNote_arrives_iff_sample :
    ∃ mapValue', stealthSender.sendStealthMoneyToDestination stealthTo (4 * COIN) stealthNote unsent ∅ false 2 =
        some (.sent stealthPaid mapValue') ∧
      ∃ k, stealthSender.Arrives (stealthPayee true) stealthPaid ⟨4 * COIN, stealthSender.scriptTo (pointOf 12)⟩
        stealthNote ∅ mapValue' k := by
  obtain ⟨mapValue', hsent⟩ := exists_stealthPaid
  exact ⟨mapValue', hsent, (stealthNote_arrives_iff stealthSender stealthTo (4 * COIN) stealthNote unsent ∅ false 2
    stealthPaid mapValue' (StealthSample.secretOf 5) (pointOf 12) (pointOf 3) (stealthPayee true)
    (StealthSample.secretOf 2) (StealthSample.secretOf 7) complete_group inverts_stealthSender
    (fun _ _ h => (lookup_coinWallet h).2 ▸ (by decide)) (by decide) payee_stealthTo hsent
    (apart_stealthPayee true) (owns_stealthPayee true) (AList.notMem_empty _)).mpr (.inl rfl)⟩

open Sample in
/-- **A note that does not arrive**: the wallet is not locked, and the key of
the payment is 12, which has 31 zero bytes in front. -/
theorem StealthSender.not_stealthNote_arrives :
    ∃ mapValue', stealthSender.sendStealthMoneyToDestination stealthTo (4 * COIN) stealthNote unsent ∅ false 2 =
        some (.sent stealthPaid mapValue') ∧
      ¬ ∃ k, stealthSender.Arrives (stealthPayee false) stealthPaid ⟨4 * COIN, stealthSender.scriptTo (pointOf 12)⟩
        stealthNote ∅ mapValue' k := by
  obtain ⟨mapValue', hsent⟩ := exists_stealthPaid
  have hpaid := sent_of_send inverts_stealthSender (fun _ _ h => (lookup_coinWallet h).2 ▸ (by decide)) (by decide)
    payee_stealthTo hsent
  refine ⟨mapValue', hsent, fun harrives => ?_⟩
  rcases (hpaid.arrives_iff complete_group inverts_stealthSender (apart_stealthPayee false) (owns_stealthPayee false)
    (AList.notMem_empty _)).mp harrives with hlocked | ⟨hle, -⟩
  · exact nomatch hlocked
  · rw [StealthSample.beNat_secretOf (by decide), StealthSample.beNat_secretOf (by decide)] at hle
    exact absurd hle (by decide)

end Pinkcoin
