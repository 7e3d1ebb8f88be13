/-
A message that is encrypted and given its proof of work is accepted by
`SecureMsgValidate`, and decrypted to its text, time and sender.
-/
import Pinkcoin.Smsg.Crypt

namespace Pinkcoin

open CScript (leBytes leNat)

/-! ## What is relied on -/

/-- A public key of a private key, compressed or not. -/
def CKey.HasPubKey (P : SmsgParams) (key : CKey) (cpk : List UInt8) : Prop :=
  cpk = (P.pubKey key.secret).toList ∨ cpk = (P.pubKeyUncompressed key.secret).toList

/-- What the libraries do: AES pads to a multiple of 16 bytes and is undone by
the decryption, a long text is got back from its compressed block, and the key
that signed from the signature. -/
structure SmsgParams.Correct (P : SmsgParams) (message : List UInt8) : Prop where
  aes_length : ∀ {key_e iv plain cipher}, P.aesEncrypt key_e iv plain = some cipher → cipher.length = 16 * (plain.length / 16 + 1)
  aes_decrypt : ∀ {key_e iv plain cipher}, P.aesEncrypt key_e iv plain = some cipher → P.aesDecrypt key_e iv cipher = some plain
  lz4 : 128 < message.length → P.LZ4_decompress_safe (Lz4.LZ4_compress message) message.length = some message
  recover : ∀ (key : CKey) (h : Bytes 32), P.recoverCompact h (P.signCompact key h) = some (key.getPubKey P)

/-- The two sides of a shared secret: the receiver has the private key `key`
of the address, the sender a public key of it, and each gets the same secret
from its private key and the other's public key. -/
structure SmsgParams.Agreement (P : SmsgParams) (env env' : SmsgEnv) (s : Smsg) (address : List Char) (key : CKey) : Prop where
  private_key : ∀ {ckid}, destinationKeyID P 4 address = .ok ckid → env'.getKey ckid = some key
  public_key : ∀ {ckid cpk}, destinationKeyID P 4 address = .ok ckid → destinationKey P env s ckid = .ok cpk → key.HasPubKey P cpk
  agree : ∀ {cpk}, key.HasPubKey P cpk → P.ecdh key.secret (P.pubKey env.newKey).toList = P.ecdh env.newKey cpk
  valid : P.validPubKey (P.pubKey env.newKey).toList

/-- The keys of a wallet are found under their own hash. -/
def SmsgEnv.WalletKeys (P : SmsgParams) (env : SmsgEnv) : Prop :=
  ∀ {ckid key}, env.getKey ckid = some key → P.hash160 (key.getPubKey P) = ckid

section

variable {P : SmsgParams} {env : SmsgEnv} {s : Smsg} {smsg smsg' : SecureMessage} {payload : List UInt8}

/-! ## Proof of work -/

/-- The checksum in the header is not part of what is hashed. -/
theorem messageHash_with_hash (hash : Bytes 4) : messageHash P { smsg with hash := hash } payload = messageHash P smsg payload := by
  have hdrop : ∀ hash : Bytes 4, ({ smsg with hash := hash } : SecureMessage).bytes.drop 4 = ({ smsg with hash := smsg.hash } : SecureMessage).bytes.drop 4 := by
    intro hash
    rw [SecureMessage.bytes, SecureMessage.bytes, List.drop_append_of_le_length (by simp), List.drop_append_of_le_length (by simp)]
    rw [List.drop_of_length_le (by simp), List.drop_of_length_le (by simp)]
  rw [messageHash, messageHash, hdrop]

theorem setHashLoop_ok {fuel : Nat} {nonse : BitVec 32} (h : setHashLoop P env smsg payload fuel nonse = .ok smsg') :
    ∃ (nonse : Bytes 4) (sha256Hash : Bytes 32), messageHash P { smsg with nonse := nonse } payload = some sha256Hash ∧
      hashValid sha256Hash ∧ smsg' = { smsg with nonse := nonse, hash := slice sha256Hash 0 4 (by decide) } := by
  induction fuel generalizing smsg nonse with
  | zero => simp [setHashLoop] at h
  | succ fuel ih =>
    simp only [setHashLoop] at h
    split at h
    next => simp at h
    next =>
      split at h
      next => simp at h
      next sha256Hash hhash =>
        split at h
        next hvalid =>
          split at h
          next =>
            rw [StateError.except_pure_ok] at h
            exact ⟨_, sha256Hash, hhash, hvalid, h.symm⟩
          next => simp at h
        next =>
          split at h
          next => simp at h
          next =>
            obtain ⟨last, sha256Hash, hlast⟩ := ih h
            exact ⟨last, sha256Hash, hlast⟩

/-- A header that has its proof of work is accepted. -/
theorem secureMsgValidate_of_setHash {nPayload : Nat} (h : secureMsgSetHash P env smsg payload = .ok smsg')
    (hversion : smsg.version.toList.getD 0 0 = 1) (hsize : nPayload ≤ SMSG_MAX_MSG_WORST) :
    secureMsgValidate P smsg' payload nPayload = .ok () := by
  obtain ⟨nonse, sha256Hash, hhash, hvalid, rfl⟩ := setHashLoop_ok h
  have hhash' : messageHash P { smsg with nonse := nonse, hash := slice sha256Hash 0 4 (by decide) } payload = some sha256Hash :=
    (messageHash_with_hash _).trans hhash
  rw [secureMsgValidate, if_neg (not_not.mpr hversion), if_neg (by omega), hhash']
  exact (if_neg (not_not.mpr rfl)).trans (if_pos hvalid)

/-! ## The payload -/

theorem length_messageData {message msgData : List UInt8} (h : messageData message = .ok msgData) :
    msgData.length ≤ message.length + message.length / 255 + 2 := by
  simp only [messageData] at h
  split at h
  next =>
    split at h
    next => simp at h
    next =>
      rw [StateError.except_pure_ok] at h
      exact h ▸ Lz4.length_LZ4_compress message
  next =>
    rw [StateError.except_pure_ok] at h
    exact h ▸ by omega

/-- The payload a message has before it is encrypted, by whether it names its
sender. -/
theorem plainPayload_ok {sender : Option (CBitcoinAddress × CKeyID)} {message vchPayload : List UInt8}
    (h : plainPayload P env sender message = .ok vchPayload) :
    ∃ msgData, messageData message = .ok msgData ∧
      (sender = none ∧ vchPayload = anonPayload message.length msgData ∨
        ∃ coinAddrFrom ckidFrom keyFrom, sender = some (coinAddrFrom, ckidFrom) ∧ env.getKey ckidFrom = some keyFrom ∧
          vchPayload = signedPayload coinAddrFrom.nVersion ckidFrom (P.signCompact keyFrom (P.hash message)) message.length msgData) := by
  simp only [plainPayload, StateError.except_bind_ok] at h
  obtain ⟨msgData, hdata, h⟩ := h
  refine ⟨msgData, hdata, ?_⟩
  cases sender with
  | none =>
    simp only [StateError.except_pure_ok] at h
    exact .inl ⟨rfl, h.symm⟩
  | some sender =>
    obtain ⟨coinAddrFrom, ckidFrom⟩ := sender
    simp only at h
    split at h
    next => simp at h
    next keyFrom hkey =>
      rw [StateError.except_pure_ok] at h
      exact .inr ⟨coinAddrFrom, ckidFrom, keyFrom, rfl, hkey, h.symm⟩

theorem length_anonPayload (lenMsg : Nat) (msgData : List UInt8) : (anonPayload lenMsg msgData).length = 9 + msgData.length := by
  simp only [anonPayload, List.length_cons, List.length_append, CScript.length_leBytes, List.length_nil]
  omega

theorem length_signedPayload (nVersion : UInt8) (ckidFrom : CKeyID) (vchSignature : Bytes 65) (lenMsg : Nat) (msgData : List UInt8) :
    (signedPayload nVersion ckidFrom vchSignature lenMsg msgData).length = SMSG_PL_HDR_LEN + msgData.length := by
  simp only [signedPayload, List.length_cons, List.length_append, CScript.length_leBytes, List.Vector.toList_length, SMSG_PL_HDR_LEN]
  omega

/-- The payload of a text that is not too long, encrypted, is no larger than
`SecureMsgValidate` allows. -/
theorem length_cipher_le {sender : Option (CBitcoinAddress × CKeyID)} {message vchPayload : List UInt8}
    (h : plainPayload P env sender message = .ok vchPayload) (hsize : message.length ≤ SMSG_MAX_MSG_BYTES) :
    16 * (vchPayload.length / 16 + 1) ≤ SMSG_MAX_MSG_WORST := by
  obtain ⟨msgData, hdata, hvariant⟩ := plainPayload_ok h
  have hlen := length_messageData hdata
  have hmax : message.length ≤ 4096 := hsize
  have hworst : SMSG_MAX_MSG_WORST = 4218 := by decide
  have hpayload : vchPayload.length ≤ 90 + msgData.length := by
    rcases hvariant with ⟨-, rfl⟩ | ⟨_, _, _, -, -, rfl⟩
    · rw [length_anonPayload]
      omega
    · exact (length_signedPayload _ _ _ _ _).le
  omega

/-! ## Reading the payload -/

/-- A field of a payload is read where it was written. -/
theorem memory_field (env : SmsgEnv) (before field rest : List UInt8) {ofs n : Nat} (hofs : before.length = ofs)
    (hn : field.length = n) : env.memory (before ++ (field ++ rest)) ofs n = field := by
  subst hofs hn
  rw [env.memory_eq (by simp), List.drop_left, List.take_left]

/-- The text of a payload whose header ends with the length of the text. -/
theorem payloadText_ok {message : List UInt8} (hP : P.Correct message) (env : SmsgEnv) {fFromAnonymous : Bool} {msgData header : List UInt8}
    (hdata : messageData message = .ok msgData) (hsize : message.length ≤ SMSG_MAX_MSG_BYTES)
    (hheader : header.length + 4 = payloadHeader fFromAnonymous) :
    payloadText P env fFromAnonymous (header ++ (leBytes 4 message.length ++ msgData)) = .ok (message ++ [0]) := by
  have hmax : message.length ≤ 4096 := hsize
  have hlen : leNat (env.memory (header ++ (leBytes 4 message.length ++ msgData)) (payloadHeader fFromAnonymous - 4) 4) = message.length := by
    rw [memory_field env header _ _ (by omega) (CScript.length_leBytes _ _), leNat_leBytes]
    exact Nat.mod_eq_of_lt (by omega)
  have htext : ∀ n, n = msgData.length →
      env.memory (header ++ (leBytes 4 message.length ++ msgData)) (payloadHeader fFromAnonymous) n = msgData := by
    intro n hn
    have hfield := memory_field env (header ++ leBytes 4 message.length) msgData []
      (by rw [List.length_append, CScript.length_leBytes, hheader]) hn.symm
    rwa [List.append_nil, List.append_assoc] at hfield
  simp only [payloadText, hlen]
  simp only [messageData] at hdata
  split
  next hlong =>
    rw [if_pos hlong] at hdata
    split at hdata
    next => simp at hdata
    next =>
      rw [StateError.except_pure_ok] at hdata
      have hlz4 := Lz4.length_LZ4_compress message
      rw [hdata] at hlz4
      have hlenData : (BitVec.ofNat 32 (header ++ (leBytes 4 message.length ++ msgData)).length -
          BitVec.ofNat 32 (payloadHeader fFromAnonymous)).toNat = msgData.length := by
        have htotal : (header ++ (leBytes 4 message.length ++ msgData)).length = payloadHeader fFromAnonymous + msgData.length := by
          simp only [List.length_append, CScript.length_leBytes]
          omega
        rw [htotal, BitVec.ofNat_add, BitVec.add_comm, BitVec.add_sub_cancel, BitVec.toNat_ofNat]
        exact Nat.mod_eq_of_lt (by omega)
      rw [if_pos (by omega), htext _ hlenData, ← hdata, hP.lz4 hlong]
      exact if_pos rfl
  next hshort =>
    rw [if_neg hshort, StateError.except_pure_ok] at hdata
    rw [htext _ (congrArg List.length hdata), hdata]
    rfl

/-- The sender of a payload that its key has signed. -/
theorem payloadSender_ok {message : List UInt8} (hP : P.Correct message) {env : SmsgEnv} (env' : SmsgEnv) (hwallet : env.WalletKeys P) {nVersion : UInt8}
    {ckidFrom : CKeyID} {keyFrom : CKey} (hkey : env.getKey ckidFrom = some keyFrom) (msgData : List UInt8) (s : Smsg) :
    ∃ s', payloadSender P env' (signedPayload nVersion ckidFrom (P.signCompact keyFrom (P.hash message)) message.length msgData)
      (message ++ [0]) s = .ok ((CBitcoinAddress.ofKeyID P.fTestNet ckidFrom).toString P.hash) s' := by
  have hckid : ∀ h, (⟨env'.memory (signedPayload nVersion ckidFrom (P.signCompact keyFrom (P.hash message)) message.length msgData)
      1 20, h⟩ : CKeyID) = ckidFrom := fun _ => Subtype.ext (memory_field env' [nVersion] _ _ rfl (by simp))
  have hsig : ∀ h, (⟨env'.memory (signedPayload nVersion ckidFrom (P.signCompact keyFrom (P.hash message)) message.length msgData)
      21 65, h⟩ : Bytes 65) = P.signCompact keyFrom (P.hash message) :=
    fun _ => Subtype.ext (memory_field env' (nVersion :: ckidFrom.toList) _ _ (by simp) (by simp))
  have hsender : senderKey P (CBitcoinAddress.ofKeyID P.fTestNet ckidFrom) (P.signCompact keyFrom (P.hash message)) (message ++ [0]) =
      .ok (keyFrom.getPubKey P) := by
    have hsize : (keyFrom.getPubKey P).length = 33 ∨ (keyFrom.getPubKey P).length = 65 := by
      unfold CKey.getPubKey
      split
      · exact .inl (by simp)
      · exact .inr (by simp)
    rw [senderKey, List.dropLast_concat, hP.recover]
    simp only [hwallet hkey]
    exact (if_neg (not_not.mpr hsize)).trans (if_neg (not_not.mpr rfl))
  simp only [payloadSender, hckid, hsig, hsender, StateError.bind_ok, StateError.rejectIf_ok, StateError.lift_ok, StateError.pure_ok]
  exact ⟨_, (), s, ⟨not_not.mpr (CBitcoinAddress.isValid_ofKeyID _ _), rfl⟩, _, s, ⟨rfl, rfl⟩, (), _, rfl, trivial, rfl⟩

/-! ## Encrypted and decrypted -/

variable {addressFrom addressTo : List Char} {message : List UInt8}

/-- What is in a message that was encrypted. -/
theorem secureMspinkcrypt_ok (h : secureMspinkcrypt P env s smsg addressFrom addressTo message = .ok (smsg', payload)) :
    message.length ≤ SMSG_MAX_MSG_BYTES ∧ ∃ sender ckidDest cpkDestK vchP vchPayload mac,
      senderAddress P addressFrom = .ok sender ∧ destinationKeyID P 4 addressTo = .ok ckidDest ∧
      destinationKey P env s ckidDest = .ok cpkDestK ∧ P.ecdh env.newKey cpkDestK = some vchP ∧
      plainPayload P env sender message = .ok vchPayload ∧ P.aesEncrypt (secretKeys P vchP).1 env.iv vchPayload = some payload ∧
      messageMac P (secretKeys P vchP).2 (BitVec.ofInt 64 env.adjustedTime) payload = some mac ∧
      smsg' = { smsg with
        version := ⟨[1, 1], rfl⟩
        timestamp := BitVec.ofInt 64 env.adjustedTime
        iv := env.iv
        cpkR := P.pubKey env.newKey
        mac := mac
        nPayload := BitVec.ofNat 32 payload.length } := by
  simp only [secureMspinkcrypt, StateError.except_bind_ok, StateError.except_rejectIf_ok] at h
  obtain ⟨_, hsize, sender, hsender, ckidDest, hdest, cpkDestK, hcpk, _, -, h⟩ := h
  refine ⟨Nat.not_lt.mp hsize, sender, ckidDest, cpkDestK, ?_⟩
  split at h
  next => simp at h
  next vchP hecdh =>
    simp only [StateError.except_bind_ok] at h
    obtain ⟨vchPayload, hplain, h⟩ := h
    split at h
    next => simp at h
    next vchCiphertext hcipher =>
      split at h
      next => simp at h
      next mac hmac =>
        simp only [StateError.except_pure_ok, Prod.mk.injEq] at h
        obtain ⟨rfl, rfl⟩ := h
        exact ⟨vchP, vchPayload, mac, hsender, hdest, hcpk, hecdh, hplain, hcipher, hmac, rfl⟩

/-- The receiver finds the keys of the message. -/
theorem openMessage_ok {env' : SmsgEnv} {key : CKey} {ckidDest : CKeyID} {cpkDestK : List UInt8} {vchP mac : Bytes 32}
    (hagree : P.Agreement env env' s addressTo key) (hdest : destinationKeyID P 4 addressTo = .ok ckidDest)
    (hcpk : destinationKey P env s ckidDest = .ok cpkDestK) (hecdh : P.ecdh env.newKey cpkDestK = some vchP)
    (hmac : messageMac P (secretKeys P vchP).2 smsg.timestamp payload = some mac) (hversion : smsg.version.toList.getD 0 0 = 1)
    (hcpkR : smsg.cpkR = P.pubKey env.newKey) (hsmsg : smsg.mac = mac) :
    openMessage P env' addressTo smsg payload = .ok (secretKeys P vchP).1 := by
  have hdest' : destinationKeyID P 3 addressTo = .ok ckidDest := by
    unfold destinationKeyID at hdest ⊢
    split at hdest
    next => simp at hdest
    next => exact hdest
  have hsecret : sharedSecret P env' addressTo smsg = .ok vchP := by
    have hshared := (hagree.agree (hagree.public_key hdest hcpk)).trans hecdh
    simp only [sharedSecret, StateError.except_bind_ok]
    refine ⟨ckidDest, hdest', ?_⟩
    simp only [hagree.private_key hdest, hcpkR, hshared, StateError.except_bind_ok, StateError.except_rejectIf_ok]
    exact ⟨(), not_not.mpr hagree.valid, rfl⟩
  simp only [openMessage, StateError.except_bind_ok, StateError.except_rejectIf_ok]
  refine ⟨(), not_not.mpr hversion, vchP, hsecret, (), ?_, rfl⟩
  simp only [checkMac, hmac]
  exact if_pos hsmsg.symm

/-- The name of a sender: `anon`, or the address as `ToString` writes it. -/
def SenderName (P : SmsgParams) (addressFrom sFromAddress : List Char) : Prop :=
  if addressFrom = anon then sFromAddress = anon
  else ∃ coinAddrFrom, CBitcoinAddress.setString P.hash addressFrom = some coinAddrFrom ∧
    sFromAddress = coinAddrFrom.toString P.hash

/-- The sender a message is from, and how it is written. -/
theorem senderAddress_ok {sender : Option (CBitcoinAddress × CKeyID)} (h : senderAddress P addressFrom = .ok sender) :
    (sender = none ∧ addressFrom = anon) ∨ ∃ coinAddrFrom ckidFrom, sender = some (coinAddrFrom, ckidFrom) ∧ addressFrom ≠ anon ∧
      CBitcoinAddress.setString P.hash addressFrom = some coinAddrFrom ∧ coinAddrFrom.getKeyID P.fTestNet = some ckidFrom := by
  unfold senderAddress at h
  split at h
  next hanon =>
    rw [StateError.except_pure_ok] at h
    exact .inl ⟨h.symm, hanon⟩
  next hanon =>
    split at h
    next => simp at h
    next coinAddrFrom haddr =>
      split at h
      next => simp at h
      next ckidFrom hckid =>
        rw [StateError.except_pure_ok] at h
        exact .inr ⟨coinAddrFrom, ckidFrom, h.symm, hanon, haddr, hckid⟩

/-- The version byte of an address with a key is not the mark of an anonymous
message. -/
theorem nVersion_ne {fTestNet : Bool} {addr : CBitcoinAddress} {ckid : CKeyID} (h : addr.getKeyID fTestNet = some ckid) :
    [addr.nVersion] ≠ [250] := by
  rw [← CBitcoinAddress.ofKeyID_of_getKeyID h]
  cases fTestNet with
  | true => simp [CBitcoinAddress.ofKeyID, CBitcoinAddress.PUBKEY_ADDRESS_TEST]
  | false => simp [CBitcoinAddress.ofKeyID, CBitcoinAddress.PUBKEY_ADDRESS]

theorem secureMsgDecrypt_payload (hP : P.Correct message) {env env' : SmsgEnv} (hwallet : env.WalletKeys P) {key_e : Bytes 32}
    {sender : Option (CBitcoinAddress × CKeyID)} {vchPayload : List UInt8} (hsender : senderAddress P addressFrom = .ok sender)
    (hplain : plainPayload P env sender message = .ok vchPayload) (hsize : message.length ≤ SMSG_MAX_MSG_BYTES)
    (hopen : openMessage P env' addressTo smsg payload = .ok key_e) (hdec : P.aesDecrypt key_e smsg.iv payload = some vchPayload)
    (s : Smsg) :
    ∃ sFromAddress s', secureMsgDecrypt P env' addressTo smsg payload s = .ok ⟨smsg.timestamp, message ++ [0], sFromAddress⟩ s' ∧
      SenderName P addressFrom sFromAddress := by
  obtain ⟨msgData, hdata, hvariant⟩ := plainPayload_ok hplain
  simp only [secureMsgDecrypt, StateError.bind_ok, StateError.lift_ok]
  rcases hvariant with ⟨rfl, rfl⟩ | ⟨coinAddrFrom, ckidFrom, keyFrom, rfl, hkey, rfl⟩
  · -- an anonymous message
    obtain ⟨-, hanon⟩ | ⟨_, _, hsome, -⟩ := senderAddress_ok hsender
    · have hfirst : env'.memory (anonPayload message.length msgData) 0 1 = [250] := memory_field env' [] [250] _ rfl rfl
      have hheader : ([250, 0, 0, 0, 0] : List UInt8).length + 4 = payloadHeader true := rfl
      have hpayload : anonPayload message.length msgData = [250, 0, 0, 0, 0] ++ (leBytes 4 message.length ++ msgData) := rfl
      have htext : payloadText P env' true (anonPayload message.length msgData) = .ok (message ++ [0]) := by
        rw [hpayload]
        exact payloadText_ok hP env' hdata hsize hheader
      refine ⟨anon, s, ⟨key_e, s, ⟨hopen, rfl⟩, ?_⟩, (if_pos hanon).mpr rfl⟩
      simp only [hdec, hfirst, decide_true, htext, StateError.bind_ok, StateError.lift_ok]
      exact ⟨message ++ [0], s, ⟨rfl, rfl⟩, rfl⟩
    · simp at hsome
  · -- a message from an address
    obtain ⟨hnone, -⟩ | ⟨_, _, hsome, hanon, haddr, hckid⟩ := senderAddress_ok hsender
    · simp at hnone
    · obtain ⟨rfl, rfl⟩ := Prod.mk.inj (Option.some.inj hsome)
      obtain ⟨s', hfrom⟩ := payloadSender_ok hP env' hwallet hkey msgData s
      have hfirst : env'.memory (signedPayload coinAddrFrom.nVersion ckidFrom (P.signCompact keyFrom (P.hash message))
          message.length msgData) 0 1 = [coinAddrFrom.nVersion] := memory_field env' [] [_] _ rfl rfl
      have hheader : (coinAddrFrom.nVersion :: (ckidFrom.toList ++ (P.signCompact keyFrom (P.hash message)).toList)).length + 4 =
          payloadHeader false := by simp [payloadHeader, SMSG_PL_HDR_LEN]
      have htext : payloadText P env' false (signedPayload coinAddrFrom.nVersion ckidFrom
          (P.signCompact keyFrom (P.hash message)) message.length msgData) = .ok (message ++ [0]) := by
        rw [signedPayload, ← List.append_assoc, ← List.cons_append]
        exact payloadText_ok hP env' hdata hsize hheader
      refine ⟨coinAddrFrom.toString P.hash, s', ⟨key_e, s, ⟨hopen, rfl⟩, ?_⟩, (if_neg hanon).mpr ⟨coinAddrFrom, haddr, rfl⟩⟩
      rw [CBitcoinAddress.ofKeyID_of_getKeyID hckid] at hfrom
      simp only [hdec, hfirst, nVersion_ne hckid, decide_false, StateError.bind_ok, StateError.lift_ok]
      refine ⟨message ++ [0], s, ⟨htext, rfl⟩, ?_⟩
      exact StateError.bind_ok.mpr ⟨_, s', hfrom, rfl⟩

/-- **Encrypted and decrypted.** A message that was encrypted and has its
proof of work is accepted, and its addressee gets the text, its time and its
sender. -/
theorem secureMsgDecrypt_secureMspinkcrypt {env envPow env' : SmsgEnv} {s s' : Smsg} {smsg smsg₁ smsg₂ : SecureMessage}
    {addressFrom addressTo : List Char} {message payload : List UInt8} {key : CKey} (hP : P.Correct message) (hwallet : env.WalletKeys P) (hagree : P.Agreement env env' s addressTo key)
    (hcrypt : secureMspinkcrypt P env s smsg addressFrom addressTo message = .ok (smsg₁, payload))
    (hpow : secureMsgSetHash P envPow smsg₁ payload = .ok smsg₂) :
    secureMsgValidate P smsg₂ payload smsg₂.nPayload.toNat = .ok () ∧ payload.length = smsg₂.nPayload.toNat ∧
      ∃ sFromAddress s'', secureMsgDecrypt P env' addressTo smsg₂ payload s' =
          .ok ⟨BitVec.ofInt 64 env.adjustedTime, message ++ [0], sFromAddress⟩ s'' ∧ SenderName P addressFrom sFromAddress := by
  obtain ⟨hsize, sender, ckidDest, cpkDestK, vchP, vchPayload, mac, hsender, hdest, hcpk, hecdh, hplain, hcipher, hmac, rfl⟩ :=
    secureMspinkcrypt_ok hcrypt
  have hlen : payload.length ≤ SMSG_MAX_MSG_WORST :=
    (hP.aes_length hcipher).le.trans (length_cipher_le hplain hsize)
  have hworst : SMSG_MAX_MSG_WORST = 4218 := by decide
  have hnPayload : (BitVec.ofNat 32 payload.length).toNat = payload.length := by
    rw [BitVec.toNat_ofNat]
    exact Nat.mod_eq_of_lt (by omega)
  have hvalidate := secureMsgValidate_of_setHash hpow rfl (hnPayload.le.trans hlen)
  obtain ⟨nonse, sha256Hash, -, -, rfl⟩ := setHashLoop_ok hpow
  refine ⟨hvalidate, hnPayload.symm, ?_⟩
  refine secureMsgDecrypt_payload hP hwallet hsender hplain hsize ?_ (hP.aes_decrypt hcipher) s'
  exact openMessage_ok hagree hdest hcpk hecdh hmac rfl rfl rfl

end

namespace SmsgSample

def pubKey (secret : Bytes 32) : Bytes 33 := ⟨2 :: secret.toList, by simp⟩

def pubKeyUncompressed (secret : Bytes 32) : Bytes 65 := ⟨4 :: (secret.toList ++ secret.toList), by simp⟩

/-- A crypto library of a node with one key: keys are added, a signature holds
its key, and the cipher pads only. -/
def params : SmsgParams where
  fTestNet := false
  hash _ := .replicate 32 0
  hash160 _ := .replicate 20 7
  sha512 _ := .replicate 64 0
  hmacSha256 _ _ := some (.replicate 32 0)
  aesEncrypt _ _ plain :=
    let n := 16 - plain.length % 16
    some (plain ++ List.replicate n (UInt8.ofNat n))
  aesDecrypt _ _ cipher := some (cipher.take (cipher.length - (cipher.getLastD 0).toNat))
  pubKey := pubKey
  pubKeyUncompressed := pubKeyUncompressed
  validPubKey _ := true
  ecdh secret cpk :=
    let sum := secret.toList.zipWith (· + ·) (cpk.drop 1)
    if h : sum.length = 32 then some ⟨sum, h⟩ else none
  signCompact key _ := ⟨(if key.fCompressedPubKey then 31 else 27) :: (key.secret.toList ++ List.replicate 32 0), by simp⟩
  recoverCompact _ vchSig :=
    let secret := slice vchSig 1 32 (by decide)
    some (if vchSig.head = 31 then (pubKey secret).toList else (pubKeyUncompressed secret).toList)
  LZ4_decompress_safe _ _ := none

def key : CKey := ⟨.replicate 32 1, true⟩

def env : SmsgEnv where
  adjustedTime := 1500000000
  isLocked := false
  getKey ckid := if ckid = .replicate 20 7 then some key else none
  dbOpen := true
  dbWritten := true
  iv := .replicate 16 0
  newKey := .replicate 32 2
  createDirectory := true
  fopen _ := true
  fseek := true
  fwrite l := l.length
  fwriteOk := true
  fread _ := 1000
  remove _ := true
  heap _ := 0
  enabled _ := true

def node : Smsg := ⟨false, ∅, [], ∅, ∅, ∅⟩

def address : List Char := "2Dey6wn4WNSeAdm3UVrqurJzrLCog8jSmd".toList

def message : List UInt8 := [104, 101, 108, 108, 111]

def blank : SecureMessage :=
  ⟨.replicate 4 0, .replicate 2 0, 0, 0, .replicate 16 0, .replicate 33 0, .replicate 32 0, .replicate 4 0, 0⟩

/-- The message from the address to itself. -/
def written : SecureMessage × List UInt8 :=
  (secureMspinkcrypt params env node blank address address message).toOption.getD (blank, [])

def posted : SecureMessage := (secureMsgSetHash params env written.1 written.2).toOption.getD blank

theorem correct : params.Correct message where
  aes_length := by
    intro key_e iv plain cipher h
    obtain rfl := Option.some.inj h
    rw [List.length_append, List.length_replicate]
    omega
  aes_decrypt := by
    intro key_e iv plain cipher h
    obtain rfl := Option.some.inj h
    obtain ⟨n, hn⟩ : ∃ n, 16 - plain.length % 16 = n + 1 := ⟨15 - plain.length % 16, by omega⟩
    have hlast : (plain ++ List.replicate (n + 1) (UInt8.ofNat (n + 1))).getLastD 0 = UInt8.ofNat (n + 1) := by
      rw [List.replicate_succ', ← List.append_assoc, List.getLastD_concat]
    have hpad : (UInt8.ofNat (n + 1)).toNat = n + 1 := by
      rw [UInt8.toNat_ofNat']
      exact Nat.mod_eq_of_lt (by omega)
    simp only [params, hn, hlast, hpad, List.length_append, List.length_replicate, Nat.add_sub_cancel, List.take_left]
  lz4 := fun h => absurd h (by decide)
  recover := by
    intro key h
    have hsecret : ∀ v hlen, slice (⟨v :: (key.secret.toList ++ List.replicate 32 0), hlen⟩ : Bytes 65) 1 32 (by decide) =
        key.secret := fun v _ => Subtype.ext (List.take_left' key.secret.toList_length)
    simp only [params, hsecret]
    cases hcompressed : key.fCompressedPubKey with
    | true => simp only [CKey.getPubKey, hcompressed]; rfl
    | false => simp only [CKey.getPubKey, hcompressed]; rfl

theorem walletKeys : env.WalletKeys params := by
  intro ckid key h
  unfold env at h
  simp only at h
  split at h
  next hckid => exact hckid.symm
  next => simp at h

theorem agreement : params.Agreement env env node address key := by
  have hdest : ∀ ckid, destinationKeyID params 4 address = .ok ckid → ckid = .replicate 20 7 := by
    intro ckid h
    have hval : destinationKeyID params 4 address = .ok (.replicate 20 7) := by decide +kernel
    exact (Except.ok.inj (hval.symm.trans h)).symm
  refine ⟨fun h => hdest _ h ▸ rfl, fun h hcpk => ?_, fun h => ?_, rfl⟩
  · have hcpkDest : destinationKey params env node (.replicate 20 7) = .ok (pubKey key.secret).toList := by decide +kernel
    rw [hdest _ h] at hcpk
    exact .inl (Except.ok.inj (hcpk.symm.trans hcpkDest))
  · rcases h with rfl | rfl
    · decide +kernel
    · decide +kernel

end SmsgSample

/-- A signed message of five bytes. -/
theorem secureMsgDecrypt_sample :
    secureMsgValidate SmsgSample.params SmsgSample.posted SmsgSample.written.2 SmsgSample.posted.nPayload.toNat = .ok () ∧
      SmsgSample.written.2.length = SmsgSample.posted.nPayload.toNat ∧
      ∃ sFromAddress s', secureMsgDecrypt SmsgSample.params SmsgSample.env SmsgSample.address SmsgSample.posted
          SmsgSample.written.2 SmsgSample.node = .ok ⟨BitVec.ofInt 64 1500000000, SmsgSample.message ++ [0], sFromAddress⟩ s' ∧
        SenderName SmsgSample.params SmsgSample.address sFromAddress :=
  secureMsgDecrypt_secureMspinkcrypt SmsgSample.correct SmsgSample.walletKeys SmsgSample.agreement
    (by decide +kernel : secureMspinkcrypt SmsgSample.params SmsgSample.env SmsgSample.node SmsgSample.blank SmsgSample.address
      SmsgSample.address SmsgSample.message = .ok SmsgSample.written)
    (by decide +kernel : secureMsgSetHash SmsgSample.params SmsgSample.env SmsgSample.written.1 SmsgSample.written.2 =
      .ok SmsgSample.posted)

end Pinkcoin
