/-
The public keys of the secure-message database, each under a key id: which
calls store one, and when every key hashes to the id it is stored under.
-/
import Pinkcoin.Lib.Runs
import Pinkcoin.Solver
import Pinkcoin.Smsg.Sealed
import Pinkcoin.Smsg.StoreFacts

namespace Pinkcoin

open CScript (getOp)
open Runs
open StateError

/-! ## The calls that store keys -/

/-- What the message module calls, and of a transaction and of a key in a
script: whether it is standard, and the key's compressed form. -/
structure DirectoryParams extends SmsgParams where
  isStandard : CTransaction → Bool
  compressed : List UInt8 → List UInt8

section

variable (P : DirectoryParams)

/-- The loop of `ScanBlock` over a `scriptSig`: the first key of 33 bytes that
is pushed, and the key id the spent output pays to. An output that cannot be
found sends the loop on, one that pays to no key ends it. -/
def scannedKey (readDiskTx : Uint256 → Option CTransaction) (prevout : COutPoint) :
    Nat → CScript → Option (CKeyID × List UInt8)
  | 0, _ => none
  | fuel + 1, pc =>
    match getOp pc with
    | none => none
    | some (opcode, vch, pc) =>
      if opcode ≠ 33 then scannedKey readDiskTx prevout fuel pc
      else if ¬ P.validPubKey vch then scannedKey readDiskTx prevout fuel pc
      else
        let pubKey := P.compressed vch
        if pubKey.length ≠ 33 then scannedKey readDiskTx prevout fuel pc
        else
          match readDiskTx prevout.hash with
          | none => scannedKey readDiskTx prevout fuel pc
          | some txOfPrevOutput =>
            match txOfPrevOutput.vout[prevout.n]? with
            | none => scannedKey readDiskTx prevout fuel pc
            | some txOut =>
              match extractDestination P.hash160 txOut.scriptPubKey with
              | some (.keyID hashKey) => some (hashKey, pubKey)
              | _ => none

/-- The keys `ScanBlock` offers to the database, in their order. -/
def scanBlock (readDiskTx : Uint256 → Option CTransaction) (block : CBlock) : List (CKeyID × List UInt8) :=
  (block.vtx.filter P.isStandard).flatMap fun tx =>
    tx.vin.filterMap fun txin => scannedKey P readDiskTx txin.prevout txin.scriptSig.length txin.scriptSig

/-- `SecureMsgInsertAddress` into the open database: a key id that is there
keeps its key. -/
def insertKey (pubkeys : Map CKeyID (List UInt8)) (entry : CKeyID × List UInt8) : Map CKeyID (List UInt8) :=
  if pubkeys.lookup entry.1 = none then pubkeys.insert entry.1 entry.2 else pubkeys

/-- `SecureMsgScanBlock`, and `ScanChainForPublicKeys` over the blocks from
one to the best: the keys are written in one batch. -/
def secureMsgScanBlocks (env : SmsgEnv) (readDiskTx : Uint256 → Option CTransaction) (blocks : List CBlock) : SmsgM Unit :=
  modify fun s =>
    if env.dbOpen ∧ env.dbWritten then
      { s with pubkeys := (blocks.flatMap (scanBlock P readDiskTx)).foldl insertKey s.pubkeys }
    else s

/-- The checks of `SecureMsgAddAddress`. What is compared with the address is
the address itself, read and written again. -/
def checkAddress (address publicKey : List Char) : Except SmsgError (CKeyID × List UInt8) :=
  match (CBitcoinAddress.setString P.hash address).bind (CBitcoinAddress.getKeyID P.fTestNet) with
  | none => throw (.rv 5)
  | some hashKey =>
    let vchTest := (decodeBase58 publicKey).getD []
    if ¬ P.validPubKey vchTest then throw (.rv 2)
    else if canonical P.toSmsgParams address ≠ address then throw (.rv 3)
    else pure (hashKey, vchTest)

/-- `SecureMsgAddAddress`. -/
def secureMsgAddAddress (env : SmsgEnv) (address publicKey : List Char) : SmsgM Unit := do
  let (hashKey, pubKey) ← lift (checkAddress P address publicKey)
  secureMsgInsertAddress env hashKey pubKey

end

/-- A call that may store a key: a call of the message store, a block of the
network or of the chain that is scanned, an address the user adds, and a
message that is decrypted for the user. -/
inductive DirectoryCall
  | store (call : SmsgCall)
  | scanBlocks (env : SmsgEnv) (readDiskTx : Uint256 → Option CTransaction) (blocks : List CBlock)
  | addAddress (env : SmsgEnv) (address publicKey : List Char)
  | decrypt (env : SmsgEnv) (address : List Char) (smsg : SecureMessage) (payload : List UInt8)

namespace DirectoryCall

variable (P : DirectoryParams)

/-- The state after a call. What the message store is not concerned with
changes otherwise, but for the keys. -/
def run : DirectoryCall → Smsg → Smsg
  | store (.aside smsgAddresses _ inbox), s => { s with smsgAddresses := smsgAddresses, inbox := inbox }
  | store call, s => call.run P.toSmsgParams s
  | scanBlocks env readDiskTx blocks, s => endState (secureMsgScanBlocks P env readDiskTx blocks s)
  | addAddress env address publicKey, s => endState (secureMsgAddAddress P env address publicKey s)
  | decrypt env address smsg payload, s => endState (secureMsgDecrypt P.toSmsgParams env address smsg payload s)

/-- The keys a call stores without looking at what they hash to. -/
def offered : DirectoryCall → List (CKeyID × List UInt8)
  | scanBlocks env readDiskTx blocks =>
    if env.dbOpen ∧ env.dbWritten then blocks.flatMap (scanBlock P readDiskTx) else []
  | addAddress env address publicKey =>
    if env.dbOpen ∧ env.dbWritten then (checkAddress P address publicKey).toOption.toList else []
  | _ => []

/-- The first key offered for an id that is not in the database hashes to the
id. -/
def Matches (call : DirectoryCall) (s : Smsg) : Prop :=
  ∀ id pubKey, (call.offered P).lookup id = some pubKey → s.pubkeys.lookup id = none → P.hash160 pubKey = id

end DirectoryCall

/-- **The directory is sound**: every key hashes to the id it is stored
under. -/
def Smsg.KeysMatch (P : SmsgParams) (s : Smsg) : Prop :=
  ∀ id pubKey, s.pubkeys.lookup id = some pubKey → P.hash160 pubKey = id

/-! ## Keys that are recovered -/

/-- The keys of `s` are kept, and a new one hashes to its id. -/
def KeysRecovered (P : SmsgParams) (s s' : Smsg) : Prop :=
  ∀ id pubKey, s'.pubkeys.lookup id = some pubKey → s.pubkeys.lookup id = some pubKey ∨ P.hash160 pubKey = id

section

variable {P : SmsgParams} {env : SmsgEnv}

instance : Std.Refl (KeysRecovered P) := ⟨fun _ _ _ h => .inl h⟩

instance : IsTrans Smsg (KeysRecovered P) where
  trans s t u hst htu := by
    intro id pubKey hu
    rcases htu id pubKey hu with ht | hmatch
    · exact hst id pubKey ht
    · exact .inr hmatch

theorem KeysRecovered.of_eq {s s' : Smsg} (h : s'.pubkeys = s.pubkeys) : KeysRecovered P s s' := by
  intro id pubKey hs'
  rw [h] at hs'
  exact .inl hs'

theorem KeysRecovered.match {s s' : Smsg} (h : KeysRecovered P s s') (hs : s.KeysMatch P) : s'.KeysMatch P := by
  intro id pubKey hs'
  rcases h id pubKey hs' with hold | hmatch
  · exact hs id pubKey hold
  · exact hmatch

/-- Changes that are not about the keys. -/
theorem keeps_modify_keys {f : Smsg → Smsg} (h : ∀ s, (f s).pubkeys = s.pubkeys) :
    Keeps (KeysRecovered P) (modify f : SmsgM Unit) :=
  keeps_modify fun s => .of_eq (h s)

/-- The key that signed a message hashes to the key id of the sender. -/
theorem senderKey_match {ckidFrom : CKeyID} {vchSig : Bytes 65} {vchMessage cpkFromSig : List UInt8}
    (h : senderKey P (CBitcoinAddress.ofKeyID P.fTestNet ckidFrom) vchSig vchMessage = .ok cpkFromSig) :
    P.hash160 cpkFromSig = ckidFrom := by
  unfold senderKey at h
  split at h
  · cases h
  next recovered _ =>
    split at h
    · cases h
    · split at h
      · cases h
      next hsame =>
        obtain rfl := Except.ok.inj h
        have hdata := congrArg CBitcoinAddress.vchData (not_not.mp hsame)
        exact (Subtype.ext hdata).symm

theorem keeps_insertAddress {ckidFrom : CKeyID} {cpkFromSig : List UInt8} (hmatch : P.hash160 cpkFromSig = ckidFrom) :
    Keeps (KeysRecovered P) (secureMsgInsertAddress env ckidFrom cpkFromSig) := by
  refine keeps_modify fun s => ?_
  split
  · intro id pubKey hlookup
    dsimp only at hlookup
    by_cases hid : id = ckidFrom
    · rw [hid, AList.lookup_insert] at hlookup
      obtain rfl := Option.some.inj hlookup
      exact .inr (hmatch.trans hid.symm)
    · rw [AList.lookup_insert_ne hid] at hlookup
      exact .inl hlookup
  · exact .of_eq rfl

theorem keeps_payloadSender (vchPayload vchMessage : List UInt8) :
    Keeps (KeysRecovered P) (payloadSender P env vchPayload vchMessage) := by
  refine keeps_bind (keeps_rejectIf _ _) fun _ => keeps_bind_of (keeps_lift _) fun s cpkFromSig t hrun => ?_
  have hmatch := senderKey_match (lift_ok.mp hrun).1
  exact keeps_bind (keeps_insertAddress hmatch) (fun _ => keeps_pure _) t

/-- **Decrypting stores no key but the one recovered** for the sender's id. -/
theorem keeps_decrypt (address : List Char) (smsg : SecureMessage) (payload : List UInt8) :
    Keeps (KeysRecovered P) (secureMsgDecrypt P env address smsg payload) := by
  refine keeps_bind (keeps_lift _) fun key_e => ?_
  split
  next => exact keeps_throw _
  next vchPayload _ =>
    refine keeps_bind (keeps_lift _) fun vchMessage => keeps_ite ?_ (keeps_bind ?_ fun _ => keeps_pure _)
    · exact keeps_bind (keeps_pure _) fun _ => keeps_pure _
    · exact keeps_payloadSender _ _

/-! ## The calls of the message store -/

theorem keeps_keys_storeUnscanned (smsg : SecureMessage) (payload : List UInt8) :
    Keeps (KeysRecovered P) (secureMsgStoreUnscanned env smsg payload) := by
  refine keeps_bind (keeps_rejectIf _ _) fun _ => keeps_bind (keeps_rejectIf _ _) fun _ => ?_
  refine keeps_bind (keeps_bind (keeps_rejectIf _ _) fun _ => keeps_modify_keys fun _ => rfl) fun _ => ?_
  exact keeps_bind (keeps_modify_keys fun _ => rfl) fun _ => keeps_rejectIf _ _

theorem keeps_keys_store (smsg : SecureMessage) (payload : List UInt8) (fUpdateBucket : Bool) :
    Keeps (KeysRecovered P) (secureMsgStore env smsg payload fUpdateBucket) := by
  refine keeps_bind (keeps_rejectIf _ _) fun _ => keeps_bind (keeps_rejectIf _ _) fun _ => ?_
  refine keeps_bind (keeps_modify_keys fun _ => rfl) fun _ => keeps_bind keeps_get fun s => ?_
  refine keeps_bind (keeps_rejectIf _ _) fun _ => keeps_bind ?_ fun _ => keeps_onlyIf (keeps_modify_keys fun _ => rfl)
  refine keeps_bind (keeps_bind (keeps_rejectIf _ _) fun _ => keeps_modify_keys fun _ => rfl) fun _ => ?_
  refine keeps_bind (keeps_rejectIf _ _) fun _ => keeps_bind keeps_get fun s => ?_
  refine keeps_bind (keeps_bind (keeps_modify_keys fun _ => rfl) fun _ => keeps_rejectIf _ _) fun _ => ?_
  exact keeps_modify_keys fun _ => rfl

theorem keeps_keys_findAddress (smsg : SecureMessage) (payload : List UInt8) (addresses : List SecMsgAddress) :
    Keeps (KeysRecovered P) (findAddress P env smsg payload addresses) := by
  induction addresses with
  | nil => exact keeps_pure _
  | cons it rest ih =>
    refine keeps_ite ih (keeps_ite (keeps_ite (keeps_pure _) ih) ?_)
    refine keeps_bind (keeps_succeeds (keeps_decrypt _ _ _)) fun msg => ?_
    cases msg with
    | none => exact ih
    | some msg => exact keeps_pure _

theorem keeps_keys_scanMessage (smsg : SecureMessage) (payload : List UInt8) :
    Keeps (KeysRecovered P) (secureMsgScanMessage P env smsg payload) := by
  refine keeps_ite (keeps_bind (keeps_succeeds (keeps_keys_storeUnscanned _ _)) fun rv => ?_) ?_
  · cases rv with
    | none => exact keeps_throw _
    | some _ => exact keeps_throw _
  · refine keeps_bind keeps_get fun s => keeps_bind (keeps_keys_findAddress _ _ _) fun addressTo => ?_
    cases addressTo with
    | none => exact keeps_pure _
    | some addressTo =>
      refine keeps_modify_keys fun s => ?_
      split <;> rfl

theorem keeps_keys_scanMessages (envs : Nat → SmsgEnv) (i : Nat) (messages : List (SecureMessage × List UInt8)) :
    Keeps (KeysRecovered P) (scanMessages P envs i messages) := by
  induction messages generalizing i with
  | nil => exact keeps_pure _
  | cons m rest ih => exact keeps_bind (keeps_succeeds (keeps_keys_scanMessage _ _)) fun _ => ih _

theorem pubkeys_removeFile (s : Smsg) (f : SmsgFile) : (s.removeFile env f).pubkeys = s.pubkeys := by
  unfold Smsg.removeFile
  split <;> rfl

theorem keeps_keys_scanFile (envs : Nat → SmsgEnv) (f : SmsgFile) : Keeps (KeysRecovered P) (scanFile P envs f) := by
  refine keeps_bind keeps_get fun s => keeps_bind (keeps_keys_scanMessages _ _ _) fun _ => ?_
  exact keeps_bind (keeps_rejectIf _ _) fun _ => keeps_modify_keys fun s => pubkeys_removeFile s f

theorem keeps_keys_scanBucket (envs : Nat → SmsgEnv) (f : SmsgFile) : Keeps (KeysRecovered P) (scanBucket P envs f) := by
  refine keeps_ite (keeps_modify_keys fun s => pubkeys_removeFile s f) ?_
  cases f with
  | wl time => exact keeps_pure _
  | dat time => exact keeps_ite (keeps_keys_scanFile _ _) (keeps_pure _)

theorem keeps_keys_scanUnlocked (envs : Nat → SmsgEnv) (f : SmsgFile) :
    Keeps (KeysRecovered P) (scanUnlocked P envs f) := by
  cases f with
  | dat time => exact keeps_pure _
  | wl time =>
    refine keeps_ite ?_ (keeps_ite (keeps_keys_scanFile _ _) (keeps_pure _))
    exact keeps_bind (keeps_rejectIf _ _) fun _ => keeps_modify_keys fun s => pubkeys_removeFile s _

theorem keeps_keys_receiveLoop (envs : Nat → SmsgEnv) (vchData : List UInt8) (left i n : Nat) :
    Keeps (KeysRecovered P) (receiveLoop P envs vchData left i n) := by
  induction left generalizing i n with
  | zero => exact keeps_pure _
  | succ left ih =>
    refine keeps_ite (keeps_pure _) ?_
    split
    · exact ih _ _
    · refine keeps_bind (keeps_succeeds (keeps_keys_store _ _ _)) fun rv => ?_
      cases rv with
      | none => exact keeps_pure _
      | some _ => exact keeps_bind (keeps_succeeds (keeps_keys_scanMessage _ _)) fun _ => ih _ _

theorem keeps_keys_receive (envs : Nat → SmsgEnv) (vchData : List UInt8) :
    Keeps (KeysRecovered P) (secureMsgReceive P envs vchData) := by
  refine keeps_bind (keeps_rejectIf _ _) fun _ => keeps_bind keeps_get fun s => keeps_ite ?_ ?_
  · refine keeps_ite (keeps_bind (keeps_modify_keys fun _ => rfl) fun _ => keeps_throw _) ?_
    exact keeps_bind (keeps_pure _) fun _ => keeps_throw _
  · refine keeps_bind (keeps_keys_receiveLoop _ _ _ _ _) fun _ => keeps_bind keeps_get fun s => ?_
    exact keeps_ite (keeps_throw _) (keeps_modify_keys fun _ => rfl)

theorem keeps_keys_pow (env' : SmsgEnv) (vchMessage : List UInt8) :
    Keeps (KeysRecovered P) (powMessage P env env' vchMessage) := by
  refine keeps_bind (keeps_lift _) fun smsg => keeps_bind (keeps_keys_store _ _ _) fun _ => ?_
  exact keeps_keys_scanMessage _ _

theorem pubkeys_tickBucket (time : Int) (s : Smsg) : (tickBucket env time s).pubkeys = s.pubkeys := by
  unfold tickBucket
  split
  · rfl
  · split
    · exact (pubkeys_removeFile _ _).trans (pubkeys_removeFile _ _)
    · split <;> rfl

theorem pubkeys_buildBucket (f : SmsgFile) (s : Smsg) : (buildBucket env f s).pubkeys = s.pubkeys := by
  unfold buildBucket
  split
  · exact pubkeys_removeFile s f
  · split
    · rfl
    · split <;> rfl

/-- A loop whose body leaves the keys alone leaves them alone. -/
theorem pubkeys_foldl {α : Type} {f : Smsg → α → Smsg} (h : ∀ s a, (f s a).pubkeys = s.pubkeys) (l : List α) (s : Smsg) :
    (l.foldl f s).pubkeys = s.pubkeys := by
  induction l generalizing s with
  | nil => rfl
  | cons a l ih => exact (ih _).trans (h s a)

theorem keysRecovered_whenEnabled {α : Type} {x : SmsgM α} (h : Keeps (KeysRecovered P) x) (s : Smsg) :
    KeysRecovered P s (whenEnabled x s) := by
  unfold whenEnabled
  split
  · exact h s
  · exact .of_eq rfl

end

/-! ## Keys that are offered -/

/-- What a database holds after keys were offered: its own, then the first
offered one. -/
theorem lookup_foldl_insertKey (entries : List (CKeyID × List UInt8)) (pubkeys : Map CKeyID (List UInt8)) (id : CKeyID) :
    (entries.foldl insertKey pubkeys).lookup id = (pubkeys.lookup id).or (entries.lookup id) := by
  induction entries generalizing pubkeys with
  | nil => simp
  | cons entry entries ih =>
    obtain ⟨hashKey, pubKey⟩ := entry
    rw [List.foldl_cons, ih, List.lookup_cons]
    by_cases hid : id = hashKey
    · subst hid
      rw [beq_self_eq_true]
      unfold insertKey
      cases hlookup : pubkeys.lookup id with
      | none => simp
      | some old => simp [hlookup]
    · rw [beq_eq_false_iff_ne.mpr hid]
      unfold insertKey
      split
      · rw [AList.lookup_insert_ne hid]
      · rfl

namespace DirectoryCall

variable {P : DirectoryParams} {call : DirectoryCall} {s : Smsg}

/-- The calls of the message store, and decrypting, store recovered keys
only. -/
theorem keysRecovered_store (call : SmsgCall) (s : Smsg) : KeysRecovered P.toSmsgParams s ((store call).run P s) := by
  cases call with
  | receive envs vchData => exact keysRecovered_whenEnabled (keeps_keys_receive envs vchData) s
  | pow env env' vchMessage => exact keeps_keys_pow env' vchMessage s
  | inv env ignoreUntil vchData =>
    exact keysRecovered_whenEnabled (keeps_smsgInv (fun s _ _ _ => .of_eq rfl) ignoreUntil) s
  | «have» env nPeerId vchData =>
    exact keysRecovered_whenEnabled (keeps_smsgHave (fun s _ _ _ => .of_eq rfl) nPeerId) s
  | thread env => exact .of_eq (pubkeys_foldl (fun s time => pubkeys_tickBucket time s) _ s)
  | scanBucket envs f => exact keeps_keys_scanBucket envs f s
  | scanUnlocked envs f => exact keeps_keys_scanUnlocked envs f s
  | dump env => exact .of_eq (pubkeys_foldl (fun s time => pubkeys_removeFile s _) _ s)
  | disable =>
    show KeysRecovered P.toSmsgParams s (secureMsgDisable s)
    unfold secureMsgDisable
    split <;> exact .of_eq rfl
  | start env smsgAddresses => exact .of_eq (pubkeys_foldl (fun s f => pubkeys_buildBucket f s) _ _)
  | aside smsgAddresses pubkeys inbox => exact .of_eq rfl

theorem pubkeys_scanBlocks (env : SmsgEnv) (readDiskTx : Uint256 → Option CTransaction) (blocks : List CBlock) :
    ((scanBlocks env readDiskTx blocks).run P s).pubkeys =
      ((scanBlocks env readDiskTx blocks).offered P).foldl insertKey s.pubkeys := by
  show (if env.dbOpen ∧ env.dbWritten then _ else s : Smsg).pubkeys = (if env.dbOpen ∧ env.dbWritten then _ else []).foldl _ _
  split <;> rfl

theorem pubkeys_addAddress (env : SmsgEnv) (address publicKey : List Char) :
    ((addAddress env address publicKey).run P s).pubkeys =
      ((addAddress env address publicKey).offered P).foldl insertKey s.pubkeys := by
  show (endState (secureMsgAddAddress P env address publicKey s)).pubkeys =
    (if env.dbOpen ∧ env.dbWritten then (checkAddress P address publicKey).toOption.toList else []).foldl _ _
  cases hcheck : checkAddress P address publicKey with
  | error e =>
    rw [secureMsgAddAddress, bind_run_error (lift_error.mpr ⟨hcheck, rfl⟩)]
    split <;> rfl
  | ok entry =>
    rw [secureMsgAddAddress, bind_run (lift_ok.mpr ⟨hcheck, rfl⟩)]
    show (if env.dbOpen ∧ s.pubkeys.lookup entry.1 = none ∧ env.dbWritten then _ else s : Smsg).pubkeys = _
    by_cases hopen : env.dbOpen ∧ env.dbWritten
    · rw [if_pos hopen]
      show _ = insertKey s.pubkeys entry
      unfold insertKey
      by_cases hnew : s.pubkeys.lookup entry.1 = none
      · rw [if_pos ⟨hopen.1, hnew, hopen.2⟩, if_pos hnew]
      · rw [if_neg fun h => hnew h.2.1, if_neg hnew]
    · rw [if_neg fun h => hopen ⟨h.1, h.2.2⟩, if_neg hopen]
      rfl

/-- Offered keys leave the directory sound exactly where they match. -/
theorem keysMatch_offered (hs : s.KeysMatch P.toSmsgParams)
    (hrun : (call.run P s).pubkeys = (call.offered P).foldl insertKey s.pubkeys) :
    (call.run P s).KeysMatch P.toSmsgParams ↔ call.Matches P s := by
  constructor
  · intro hafter id pubKey hoffered hnew
    refine hafter id pubKey ?_
    rw [hrun, lookup_foldl_insertKey, hnew, hoffered, Option.none_or]
  · intro hmatches id pubKey hlookup
    rw [hrun, lookup_foldl_insertKey] at hlookup
    cases hold : s.pubkeys.lookup id with
    | none =>
      rw [hold, Option.none_or] at hlookup
      exact hmatches id pubKey hlookup hold
    | some old =>
      rw [hold, Option.some_or] at hlookup
      obtain rfl := Option.some.inj hlookup
      exact hs id old hold

/-- **One call** leaves the directory sound exactly where the keys it is
offered match. -/
theorem keysMatch_iff (call : DirectoryCall) (s : Smsg) (hs : s.KeysMatch P.toSmsgParams) :
    (call.run P s).KeysMatch P.toSmsgParams ↔ call.Matches P s := by
  cases call with
  | store call =>
    refine iff_of_true ((keysRecovered_store call s).match hs) ?_
    intro id pubKey hoffered
    cases hoffered
  | decrypt env address smsg payload =>
    refine iff_of_true ((keeps_decrypt address smsg payload s).match hs) ?_
    intro id pubKey hoffered
    cases hoffered
  | scanBlocks env readDiskTx blocks => exact keysMatch_offered hs (pubkeys_scanBlocks env readDiskTx blocks)
  | addAddress env address publicKey => exact keysMatch_offered hs (pubkeys_addAddress env address publicKey)

/-- **The directory is sound in every state of a run** exactly where each call
was offered matching keys only. -/
theorem runs_keysMatch_iff {calls : List DirectoryCall} (hs : s.pubkeys = ∅) :
    (∀ n, (play (run P) (calls.take n) s).KeysMatch P.toSmsgParams) ↔ Meets (run P) (Matches P) calls s := by
  refine safe_iff_meets (fun call s => keysMatch_iff call s) ?_
  intro id pubKey hlookup
  rw [hs] at hlookup
  cases hlookup

end DirectoryCall

/-! ## Keys nobody has -/

namespace SmsgSample

/-- A library whose hash of a key is the first bytes of it. -/
def directory : DirectoryParams :=
  { params with
    hash160 := fun vch => ⟨(vch ++ List.replicate 20 0).take 20, by simp⟩
    isStandard := fun _ => true
    compressed := id }

/-- A key, and an id that is not its hash. -/
def strangeKey : List UInt8 := 2 :: List.replicate 32 9

def victim : CKeyID := .replicate 20 7

/-- A block, refused or not, with an input that spends a payment to the id
and pushes the key. -/
def strangeBlock : CBlock :=
  ⟨⟨1, 0, 0, 0, 0, 0⟩, [⟨1, 0, [⟨⟨5, 0⟩, CScript.push strangeKey, UINT_MAX⟩], [], 0⟩], []⟩

def payment (id : CKeyID) : CTransaction := ⟨1, 0, [], [⟨COIN, payToKeyID id⟩], 0⟩

/-- The scan of the block, with the id the spent output pays to. -/
def strangeScan (id : CKeyID) : DirectoryCall := .scanBlocks env (fun _ => some (payment id)) [strangeBlock]

def victimAddress : List Char := (CBitcoinAddress.ofKeyID false victim).toString params.hash

end SmsgSample

namespace DirectoryCall

/-- The same block, where the spent output pays to the key's own id. -/
theorem runs_keysMatch_iff_sample :
    (play (run SmsgSample.directory) ([SmsgSample.strangeScan (SmsgSample.directory.hash160 SmsgSample.strangeKey)].take 1)
      SmsgSample.node).KeysMatch SmsgSample.directory.toSmsgParams := by
  have hmeets : Meets (run SmsgSample.directory) (Matches SmsgSample.directory)
      [SmsgSample.strangeScan (SmsgSample.directory.hash160 SmsgSample.strangeKey)] SmsgSample.node := by
    refine ⟨?_, trivial⟩
    intro id pubKey hoffered hnew
    have hkeys : (SmsgSample.strangeScan (SmsgSample.directory.hash160 SmsgSample.strangeKey)).offered SmsgSample.directory =
        [(SmsgSample.directory.hash160 SmsgSample.strangeKey, SmsgSample.strangeKey)] := by decide +kernel
    rw [hkeys, List.lookup_cons] at hoffered
    split at hoffered
    next hid =>
      obtain rfl := Option.some.inj hoffered
      exact (beq_iff_eq.mp hid).symm
    next => cases hoffered
  exact (runs_keysMatch_iff rfl).mpr hmeets 1

/-- **A key under an id it does not hash to**: scanned from a block, and added
for an address. -/
theorem not_keysMatch_strange :
    (¬ ((SmsgSample.strangeScan SmsgSample.victim).run SmsgSample.directory SmsgSample.node).KeysMatch
      SmsgSample.directory.toSmsgParams) ∧
    ¬ ((addAddress SmsgSample.env SmsgSample.victimAddress (encodeBase58 SmsgSample.strangeKey)).run SmsgSample.directory
      SmsgSample.node).KeysMatch SmsgSample.directory.toSmsgParams := by
  constructor
  · intro h
    exact absurd (h SmsgSample.victim SmsgSample.strangeKey (by decide +kernel)) (by decide +kernel)
  · intro h
    exact absurd (h SmsgSample.victim SmsgSample.strangeKey (by decide +kernel)) (by decide +kernel)

end DirectoryCall

end Pinkcoin
