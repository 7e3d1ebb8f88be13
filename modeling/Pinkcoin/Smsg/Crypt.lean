/-
Encrypting, validating and decrypting a secure message.
-/
import Pinkcoin.Smsg.Lz4
import Pinkcoin.Smsg.State

namespace Pinkcoin

open CScript (leBytes leNat)

section

variable (P : SmsgParams)

/-! ## Proof of work and checksum -/

/-- The hash key of a nonce: its four bytes, eight times. -/
def nonceKey (nonse : Bytes 4) : Bytes 32 :=
  ⟨(List.replicate 8 nonse.toList).flatten, by simp⟩

/-- The hash of the header, from `version` on, and twice of the payload. -/
def messageHash (smsg : SecureMessage) (payload : List UInt8) : Option (Bytes 32) :=
  P.hmacSha256 (nonceKey smsg.nonse) (smsg.bytes.drop 4 ++ payload ++ payload)

/-- The last two bytes are zero, and the lowest bit of the third-last. -/
def hashValid (h : Bytes 32) : Prop :=
  h.toList.getD 31 0 = 0 ∧ h.toList.getD 30 0 = 0 ∧ (~~~ h.toList.getD 29 0) &&& 1 ≠ 0

instance (h : Bytes 32) : Decidable (hashValid h) := inferInstanceAs (Decidable (_ ∧ _ ∧ _))

/-- `SecureMsgValidate`. -/
def secureMsgValidate (smsg : SecureMessage) (payload : List UInt8) (nPayload : Nat) : Except SmsgError Unit :=
  if smsg.version.toList.getD 0 0 ≠ 1 then throw (.rv 4)
  else if SMSG_MAX_MSG_WORST < nPayload then throw (.rv 5)
  else match messageHash P smsg payload with
    | none => throw (.rv 1)
    | some sha256Hash =>
      if smsg.hash ≠ slice sha256Hash 0 4 (by decide) then throw (.rv 3)
      else if hashValid sha256Hash then pure ()
      else throw (.rv 2)

/-- The loop over the nonces, `fuel` of which are left. -/
def setHashLoop (env : SmsgEnv) (smsg : SecureMessage) (payload : List UInt8) : Nat → BitVec 32 → Except SmsgError SecureMessage
  | 0, _ => throw (.rv 1)
  | fuel + 1, nonse =>
    let n := nonse.toNat
    if ¬ env.enabled n then throw (if env.enabled (n + 1) then .rv 1 else .rv 2)
    else
      let smsg := { smsg with nonse := ⟨leBytes 4 n, CScript.length_leBytes _ _⟩ }
      match messageHash P smsg payload with
      | none => throw (if env.enabled (n + 1) then .rv 1 else .rv 2)
      | some sha256Hash =>
        if hashValid sha256Hash then
          if env.enabled (n + 1) then pure { smsg with hash := slice sha256Hash 0 4 (by decide) } else throw (.rv 2)
        else if 4294967295 ≤ n then throw (if env.enabled (n + 1) then .rv 1 else .rv 2)
        else setHashLoop env smsg payload fuel (nonse + 1)

/-- `SecureMsgSetHash`. There are 2^32 nonces, so the loop ends by itself. -/
def secureMsgSetHash (env : SmsgEnv) (smsg : SecureMessage) (payload : List UInt8) : Except SmsgError SecureMessage :=
  setHashLoop P env smsg payload (2 ^ 32) 0

/-! ## Keys -/

/-- `SecureMsgGetStoredKey`. -/
def secureMsgGetStoredKey (env : SmsgEnv) (s : Smsg) (ckid : CKeyID) : Except SmsgError (List UInt8) :=
  if ¬ env.dbOpen then throw (.rv 1)
  else match s.pubkeys.lookup ckid with
    | none => throw (.rv 2)
    | some cpk => pure cpk

/-- `SecureMsgGetLocalKey`. -/
def secureMsgGetLocalKey (env : SmsgEnv) (ckid : CKeyID) : Except SmsgError (List UInt8) :=
  match env.getKey ckid with
  | none => throw (.rv 4)
  | some key => pure (P.pubKey key.secret).toList

/-- `CKey::GetPubKey`. -/
def CKey.getPubKey (key : CKey) : List UInt8 :=
  if key.fCompressedPubKey then (P.pubKey key.secret).toList else (P.pubKeyUncompressed key.secret).toList

/-- The two halves of the hash of a shared secret: for the encryption and for
the authentication code. -/
def secretKeys (vchP : Bytes 32) : Bytes 32 × Bytes 32 :=
  let vchHashed := P.sha512 vchP.toList
  (slice vchHashed 0 32 (by decide), slice vchHashed 32 32 (by decide))

/-- `MAC`: of the time and the encrypted payload. -/
def messageMac (key_m : Bytes 32) (timestamp : BitVec 64) (payload : List UInt8) : Option (Bytes 32) :=
  P.hmacSha256 key_m (leBytes 8 timestamp.toNat ++ payload)

/-! ## Encryption -/

/-- The text, compressed if it has more than 128 bytes. -/
def messageData (message : List UInt8) : Except SmsgError (List UInt8) :=
  if 128 < message.length then
    let vchCompressed := Lz4.LZ4_compress message
    if vchCompressed.length < 1 then throw (.rv 9) else pure vchCompressed
  else pure message

/-- The payload of an anonymous message. Four bytes are unused. -/
def anonPayload (lenMsg : Nat) (msgData : List UInt8) : List UInt8 :=
  250 :: ([0, 0, 0, 0] ++ (leBytes 4 lenMsg ++ msgData))

/-- The payload of a message from an address, with its signature. -/
def signedPayload (nVersion : UInt8) (ckidFrom : CKeyID) (vchSignature : Bytes 65) (lenMsg : Nat) (msgData : List UInt8) :
    List UInt8 :=
  nVersion :: (ckidFrom.toList ++ (vchSignature.toList ++ (leBytes 4 lenMsg ++ msgData)))

def anon : List Char := "anon".toList

/-- The address of the sender and its key's hash, or nothing for an anonymous
message. -/
def senderAddress (addressFrom : List Char) : Except SmsgError (Option (CBitcoinAddress × CKeyID)) :=
  if addressFrom = anon then pure none
  else match CBitcoinAddress.setString P.hash addressFrom with
    | none => throw (.rv 3)
    | some coinAddrFrom =>
      match coinAddrFrom.getKeyID P.fTestNet with
      | none => throw (.rv 3)
      | some ckidFrom => pure (some (coinAddrFrom, ckidFrom))

/-- The hash of the key of the address that receives. -/
def destinationKeyID (rv : Nat) (address : List Char) : Except SmsgError CKeyID :=
  match (CBitcoinAddress.setString P.hash address).bind (CBitcoinAddress.getKeyID P.fTestNet) with
  | none => throw (.rv rv)
  | some ckid => pure ckid

/-- The public key of the address that receives: a stored one, or one of the
wallet. -/
def destinationKey (env : SmsgEnv) (s : Smsg) (ckidDest : CKeyID) : Except SmsgError (List UInt8) :=
  match secureMsgGetStoredKey env s ckidDest with
  | .ok cpk => pure cpk
  | .error _ =>
    match secureMsgGetLocalKey P env ckidDest with
    | .ok cpk => pure cpk
    | .error _ => throw (.rv 5)

/-- The payload before it is encrypted. -/
def plainPayload (env : SmsgEnv) (sender : Option (CBitcoinAddress × CKeyID)) (message : List UInt8) :
    Except SmsgError (List UInt8) := do
  let msgData ← messageData message
  match sender with
  | none => pure (anonPayload message.length msgData)
  | some (coinAddrFrom, ckidFrom) =>
    match env.getKey ckidFrom with
    | none => throw (.rv 7)
    | some keyFrom =>
      pure (signedPayload coinAddrFrom.nVersion ckidFrom (P.signCompact keyFrom (P.hash message)) message.length msgData)

/-- `SecureMspinkcrypt`: the header and the encrypted payload of a message. -/
def secureMspinkcrypt (env : SmsgEnv) (s : Smsg) (smsg : SecureMessage) (addressFrom addressTo : List Char)
    (message : List UInt8) : Except SmsgError (SecureMessage × List UInt8) := do
  StateError.rejectIf (SMSG_MAX_MSG_BYTES < message.length) (SmsgError.rv 2)
  let sender ← senderAddress P addressFrom
  let ckidDest ← destinationKeyID P 4 addressTo
  let cpkDestK ← destinationKey P env s ckidDest
  StateError.rejectIf (¬ P.validPubKey cpkDestK) (SmsgError.rv 4)
  match P.ecdh env.newKey cpkDestK with
  | none => throw (.rv 6)
  | some vchP =>
    let (key_e, key_m) := secretKeys P vchP
    let vchPayload ← plainPayload P env sender message
    match P.aesEncrypt key_e env.iv vchPayload with
    | none => throw (.rv 11)
    | some vchCiphertext =>
      let timestamp := BitVec.ofInt 64 env.adjustedTime
      match messageMac P key_m timestamp vchCiphertext with
      | none => throw (.rv 10)
      | some mac =>
        pure ({ smsg with
          version := ⟨[1, 1], rfl⟩
          timestamp := timestamp
          iv := env.iv
          cpkR := P.pubKey env.newKey
          mac := mac
          nPayload := BitVec.ofNat 32 vchCiphertext.length }, vchCiphertext)

/-! ## Decryption -/

/-- `MessageData`, without the addressee, which the function leaves alone. -/
structure MessageData where
  timestamp : BitVec 64
  vchMessage : List UInt8
  sFromAddress : List Char
  deriving DecidableEq

/-- The shared secret of the key of an own address and the key in the header. -/
def sharedSecret (env : SmsgEnv) (address : List Char) (smsg : SecureMessage) : Except SmsgError (Bytes 32) := do
  let ckidDest ← destinationKeyID P 3 address
  match env.getKey ckidDest with
  | none => throw (.rv 3)
  | some keyDest =>
    StateError.rejectIf (¬ P.validPubKey smsg.cpkR.toList) (SmsgError.rv 1)
    match P.ecdh keyDest.secret smsg.cpkR.toList with
    | none => throw (.rv 1)
    | some vchP => pure vchP

/-- Whether the authentication code is the one of the payload. -/
def checkMac (key_m : Bytes 32) (smsg : SecureMessage) (payload : List UInt8) : Except SmsgError Unit :=
  match messageMac P key_m smsg.timestamp payload with
  | none => throw (.rv 1)
  | some mac => if mac = smsg.mac then pure () else throw (.rv 1)

/-- The number of bytes in front of the text in a decrypted payload. -/
def payloadHeader (fFromAnonymous : Bool) : Nat := if fFromAnonymous then 9 else SMSG_PL_HDR_LEN

/-- The text of a decrypted payload, and a NUL. The length is the last field
in front of the text. -/
def payloadText (env : SmsgEnv) (fFromAnonymous : Bool) (vchPayload : List UInt8) : Except SmsgError (List UInt8) :=
  let ofs := payloadHeader fFromAnonymous
  let lenData := (BitVec.ofNat 32 vchPayload.length - BitVec.ofNat 32 ofs).toNat
  let lenPlain := leNat (env.memory vchPayload (ofs - 4) 4)
  if 128 < lenPlain then
    let source := env.memory vchPayload ofs lenData
    if lenPlain < 2 ^ 31 then
      match P.LZ4_decompress_safe source lenPlain with
      | none => throw (.rv 1)
      | some text => if text.length = lenPlain then pure (text ++ [0]) else throw (.rv 1)
    -- as an `int` the capacity is negative, and so is what is returned: they can be the same
    else if Lz4.refusal source = (lenPlain : Int) - 2 ^ 32 then pure (List.replicate (lenPlain + 1) 0)
    else throw (.rv 1)
  else pure (env.memory vchPayload ofs lenPlain ++ [0])

/-- The key of the sender, recovered from the signature of the text. -/
def senderKey (coinAddrFrom : CBitcoinAddress) (vchSig : Bytes 65) (vchMessage : List UInt8) :
    Except SmsgError (List UInt8) :=
  match P.recoverCompact (P.hash vchMessage.dropLast) vchSig with
  | none => throw .keyError
  | some cpkFromSig =>
    if ¬ (cpkFromSig.length = 33 ∨ cpkFromSig.length = 65) then throw (.rv 1)
    else if coinAddrFrom ≠ CBitcoinAddress.ofKeyID P.fTestNet (P.hash160 cpkFromSig) then throw (.rv 1)
    else pure cpkFromSig

/-- `SecureMsgInsertAddress`, whose return value is only printed. -/
def secureMsgInsertAddress (env : SmsgEnv) (hashKey : CKeyID) (pubKey : List UInt8) : SmsgM Unit :=
  modify fun s =>
    if env.dbOpen ∧ s.pubkeys.lookup hashKey = none ∧ env.dbWritten then
      { s with pubkeys := s.pubkeys.insert hashKey pubKey }
    else s

/-- The address of the sender of a payload that names one. Its public key is
stored, so that it can be answered. -/
def payloadSender (env : SmsgEnv) (vchPayload vchMessage : List UInt8) : SmsgM (List Char) := do
  let ckidFrom : CKeyID := ⟨env.memory vchPayload 1 20, env.length_memory _ _ _⟩
  let coinAddrFrom := CBitcoinAddress.ofKeyID P.fTestNet ckidFrom
  StateError.rejectIf (¬ coinAddrFrom.isValid P.fTestNet) (SmsgError.rv 1)
  let cpkFromSig ← StateError.lift (senderKey P coinAddrFrom ⟨env.memory vchPayload 21 65, env.length_memory _ _ _⟩ vchMessage)
  secureMsgInsertAddress env ckidFrom cpkFromSig
  pure (coinAddrFrom.toString P.hash)

/-- The keys of a message that is for the address. -/
def openMessage (env : SmsgEnv) (address : List Char) (smsg : SecureMessage) (payload : List UInt8) :
    Except SmsgError (Bytes 32) := do
  StateError.rejectIf (smsg.version.toList.getD 0 0 ≠ 1) (SmsgError.rv 2)
  let vchP ← sharedSecret P env address smsg
  let (key_e, key_m) := secretKeys P vchP
  checkMac P key_m smsg payload
  pure key_e

/-- `SecureMsgDecrypt` with `fTestOnly`: whether the message is for the
address. -/
def secureMsgDecryptTest (env : SmsgEnv) (address : List Char) (smsg : SecureMessage) (payload : List UInt8) : Bool :=
  (openMessage P env address smsg payload).isOk

/-- `SecureMsgDecrypt`. -/
def secureMsgDecrypt (env : SmsgEnv) (address : List Char) (smsg : SecureMessage) (payload : List UInt8) :
    SmsgM MessageData := do
  let key_e ← StateError.lift (openMessage P env address smsg payload)
  match P.aesDecrypt key_e smsg.iv payload with
  | none => throw (.rv 1)
  | some vchPayload =>
    let fFromAnonymous : Bool := env.memory vchPayload 0 1 = [250]
    let vchMessage ← StateError.lift (payloadText P env fFromAnonymous vchPayload)
    let sFromAddress ← if fFromAnonymous then pure anon else payloadSender P env vchPayload vchMessage
    pure ⟨smsg.timestamp, vchMessage, sFromAddress⟩

end

end Pinkcoin
