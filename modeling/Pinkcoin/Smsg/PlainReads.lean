/-
What `SecureMsgDecrypt` reads of the decrypted payload and writes to the text
of the message. Whoever has encrypted a message chose its plaintext, and no
length in it is compared with what is there.
-/
import Pinkcoin.Lib.Access
import Pinkcoin.Smsg.Sealed

namespace Pinkcoin

open CScript (leBytes leNat)
open Access (AllInside)
open StateError (lift modify_run rejectIf throw_run)

/-! ## The plaintext -/

/-- The kind of a payload, by its first byte. -/
def plainAnonymous (env : SmsgEnv) (vchPayload : List UInt8) : Bool := env.memory vchPayload 0 1 = [250]

/-- `lenPlain`: the length of the text, which stands in front of it. -/
def lenPlain (env : SmsgEnv) (vchPayload : List UInt8) : Nat :=
  leNat (env.memory vchPayload (payloadHeader (plainAnonymous env vchPayload) - 4) 4)

/-- `lenData`: what is left behind the header, as a `uint32_t`. -/
def lenData (env : SmsgEnv) (vchPayload : List UInt8) : Nat :=
  (BitVec.ofNat 32 vchPayload.length - BitVec.ofNat 32 (payloadHeader (plainAnonymous env vchPayload))).toNat

/-- What is given to the decompression. -/
def plainSource (env : SmsgEnv) (vchPayload : List UInt8) : List UInt8 :=
  env.memory vchPayload (payloadHeader (plainAnonymous env vchPayload)) (lenData env vchPayload)

section

variable (P : SmsgParams)

/-- The plaintext of a message that is for the address. -/
def plaintext (env : SmsgEnv) (address : List Char) (smsg : SecureMessage) (payload : List UInt8) : Option (List UInt8) :=
  match openMessage P env address smsg payload with
  | .ok key_e => P.aesDecrypt key_e smsg.iv payload
  | .error _ => none

/-! ## Accesses -/

/-- What is read of `vchPayload`: the kind, the length of the text, and the
text; when there is a text, also the sender and the signature of a payload that
names one. -/
def payloadReads (env : SmsgEnv) (vchPayload : List UInt8) : List Access :=
  let fFromAnonymous := plainAnonymous env vchPayload
  let ofs := payloadHeader fFromAnonymous
  let text := if 128 < lenPlain env vchPayload then lenData env vchPayload else lenPlain env vchPayload
  ⟨0, 1⟩ :: ⟨ofs - 4, 4⟩ :: ⟨ofs, text⟩ ::
    if (payloadText P env fFromAnonymous vchPayload).isOk ∧ ¬ fFromAnonymous then [⟨1, 20⟩, ⟨21, 65⟩] else []

/-- The size of `msg.vchMessage`. The sum is a `uint32_t`. -/
def messageSize (env : SmsgEnv) (vchPayload : List UInt8) : Nat := (lenPlain env vchPayload + 1) % 2 ^ 32

/-- What is written to `msg.vchMessage`: the text, for which a capacity that
is negative as an `int` gives no room, and the NUL behind it. -/
def messageWrites (env : SmsgEnv) (vchPayload : List UInt8) : List Access :=
  let n := lenPlain env vchPayload
  ⟨0, if n < 2 ^ 31 then n else 0⟩ ::
    if (payloadText P env (plainAnonymous env vchPayload) vchPayload).isOk then [⟨n, 1⟩] else []

/-- The text is there: as it is, or as what its compressed form gives. -/
def TextFits (env : SmsgEnv) (vchPayload : List UInt8) : Prop :=
  let ofs := payloadHeader (plainAnonymous env vchPayload)
  let n := lenPlain env vchPayload
  if n ≤ 128 then ofs + n ≤ vchPayload.length
  else n < 2 ^ 31 ∧ (P.LZ4_decompress_safe (plainSource env vchPayload) n).map List.length = some n

/-- Nothing is read or written outside, and a payload that is too short for
its kind, or for its text, is an error. -/
structure DecryptsInside (env : SmsgEnv) (address : List Char) (smsg : SecureMessage) (payload vchPayload : List UInt8)
    (s : Smsg) : Prop where
  reads : AllInside vchPayload.length (payloadReads P env vchPayload)
  writes : AllInside (messageSize env vchPayload) (messageWrites P env vchPayload)
  refused : ¬ (payloadHeader (plainAnonymous env vchPayload) ≤ vchPayload.length ∧ TextFits P env vchPayload) →
    ∃ e s', secureMsgDecrypt P env address smsg payload s = .error e s'

end

/-! ## What makes a plaintext harmless -/

/-- `n` bytes of a payload, zeros behind its end. -/
def field (vchPayload : List UInt8) (ofs n : Nat) : Bytes n := ⟨(List.range n).map fun i => vchPayload.getD (ofs + i) 0, by simp⟩

/-- The bytes in front of the text, by the first byte. -/
def headerSize (vchPayload : List UInt8) : Nat := payloadHeader (vchPayload.head? = some 250)

/-- The length a payload announces for its text. -/
def announced (vchPayload : List UInt8) : Nat := leNat (field vchPayload (headerSize vchPayload - 4) 4).toList

/-- The checks of the sender a payload names are passed with the text. -/
def SenderVerified (P : SmsgParams) (vchPayload vchMessage : List UInt8) : Prop :=
  let coinAddrFrom := CBitcoinAddress.ofKeyID P.fTestNet (field vchPayload 1 20)
  coinAddrFrom.isValid P.fTestNet ∧ (senderKey P coinAddrFrom (field vchPayload 21 65) vchMessage).isOk

/-- The plaintext has the fields of its kind; a text that is not compressed
lies in it as a whole; and a length that is negative as an `int` is not what
the decompression returns for it, unless the sender is refused. -/
structure PlainFramed (P : SmsgParams) (vchPayload : List UInt8) : Prop where
  header : headerSize vchPayload ≤ vchPayload.length
  text : announced vchPayload ≤ 128 → headerSize vchPayload + announced vchPayload ≤ vchPayload.length
  refused : 2 ^ 31 ≤ announced vchPayload →
    Lz4.refusal (vchPayload.drop (headerSize vchPayload)) = (announced vchPayload : Int) - 2 ^ 32 →
    vchPayload.head? ≠ some 250 ∧ ¬ SenderVerified P vchPayload (List.replicate (announced vchPayload + 1) 0)

section

variable {P : SmsgParams} {env : SmsgEnv} {address : List Char} {smsg : SecureMessage} {payload vchPayload : List UInt8}
  {s : Smsg}

variable (vchPayload) in
theorem headerSize_pos : 9 ≤ headerSize vchPayload := by
  rw [headerSize, payloadHeader]
  split
  · exact le_rfl
  · decide

variable (env) in
/-- Within the payload, what is read are its bytes. -/
theorem memory_eq_field {ofs n : Nat} (h : ofs + n ≤ vchPayload.length) :
    env.memory vchPayload ofs n = (field vchPayload ofs n).toList := by
  refine List.map_congr_left fun i hi => ?_
  have hlt : ofs + i < vchPayload.length := by
    have := List.mem_range.mp hi
    omega
  rw [List.getD_eq_getElem?_getD, List.getD_eq_getElem?_getD, List.getElem?_eq_getElem hlt]
  rfl

variable (env) in
theorem memoryBytes_eq_field {ofs n : Nat} (h : ofs + n ≤ vchPayload.length) :
    (⟨env.memory vchPayload ofs n, env.length_memory _ _ _⟩ : Bytes n) = field vchPayload ofs n :=
  Subtype.ext (memory_eq_field env h)

variable (env) in
theorem plainAnonymous_eq (h : 1 ≤ vchPayload.length) :
    plainAnonymous env vchPayload = (vchPayload.head? = some 250 : Bool) := by
  cases vchPayload with
  | nil => simp at h
  | cons b rest => simp [plainAnonymous, SmsgEnv.memory]

theorem payloadHeader_eq (h : 1 ≤ vchPayload.length) : payloadHeader (plainAnonymous env vchPayload) = headerSize vchPayload := by
  rw [plainAnonymous_eq env h, headerSize]

variable (env) in
theorem lenPlain_eq (h : headerSize vchPayload ≤ vchPayload.length) : lenPlain env vchPayload = announced vchPayload := by
  have hpos := headerSize_pos vchPayload
  rw [lenPlain, payloadHeader_eq (by omega), announced, memory_eq_field env (by omega)]

variable (env vchPayload) in
theorem lenPlain_lt : lenPlain env vchPayload < 2 ^ 32 := by
  have hlt := leNat_lt (env.memory vchPayload (payloadHeader (plainAnonymous env vchPayload) - 4) 4)
  rw [env.length_memory] at hlt
  exact hlt

/-! ## The outcomes -/

theorem payloadText_long (h : 128 < lenPlain env vchPayload) (hint : lenPlain env vchPayload < 2 ^ 31) :
    payloadText P env (plainAnonymous env vchPayload) vchPayload =
      match P.LZ4_decompress_safe (plainSource env vchPayload) (lenPlain env vchPayload) with
      | none => .error (.rv 1)
      | some text => if text.length = lenPlain env vchPayload then .ok (text ++ [0]) else .error (.rv 1) :=
  (if_pos h).trans (if_pos hint)

/-- A length that is negative as an `int` can be taken for the error. -/
theorem payloadText_negative (h : 2 ^ 31 ≤ lenPlain env vchPayload) :
    payloadText P env (plainAnonymous env vchPayload) vchPayload =
      if Lz4.refusal (plainSource env vchPayload) = (lenPlain env vchPayload : Int) - 2 ^ 32 then
        .ok (List.replicate (lenPlain env vchPayload + 1) 0)
      else .error (.rv 1) :=
  (if_pos (Nat.lt_of_lt_of_le (by decide) h)).trans (if_neg (Nat.not_lt.mpr h))

/-- A compressed text that does not give its length is an error. -/
theorem payloadText_long_error (h : 128 < lenPlain env vchPayload) (hint : lenPlain env vchPayload < 2 ^ 31)
    (hfits : ¬ TextFits P env vchPayload) : payloadText P env (plainAnonymous env vchPayload) vchPayload = .error (.rv 1) := by
  have hlz4 : (P.LZ4_decompress_safe (plainSource env vchPayload) (lenPlain env vchPayload)).map List.length ≠
      some (lenPlain env vchPayload) := fun hlen => hfits ((if_neg (Nat.not_le.mpr h)).mpr ⟨hint, hlen⟩)
  rw [payloadText_long h hint]
  cases hplain : P.LZ4_decompress_safe (plainSource env vchPayload) (lenPlain env vchPayload) with
  | none => rfl
  | some plain =>
    rw [hplain] at hlz4
    exact if_neg fun hlen => hlz4 (congrArg some hlen)

variable (P env s) in
/-- The sender of a payload that names one. -/
theorem payloadSender_error_iff (text : List UInt8) (hsize : SMSG_PL_HDR_LEN ≤ vchPayload.length) :
    (∃ e s', payloadSender P env vchPayload text s = .error e s') ↔ ¬ SenderVerified P vchPayload text := by
  have hlen : 90 ≤ vchPayload.length := hsize
  rw [SenderVerified, payloadSender, memoryBytes_eq_field _ (by omega), memoryBytes_eq_field _ (by omega)]
  by_cases hvalid : (CBitcoinAddress.ofKeyID P.fTestNet (field vchPayload 1 20)).isValid P.fTestNet
  · cases hkey : senderKey P (CBitcoinAddress.ofKeyID P.fTestNet (field vchPayload 1 20)) (field vchPayload 21 65) text with
    | error e =>
      simp [bind, EStateM.bind, rejectIf, pure, EStateM.pure, lift, hvalid, Except.isOk, Except.toBool]
    | ok cpkFromSig =>
      simp [bind, EStateM.bind, rejectIf, pure, EStateM.pure, lift, hvalid, Except.isOk, Except.toBool,
        secureMsgInsertAddress, modify_run]
  · simp [bind, EStateM.bind, rejectIf, throw_run, hvalid]

/-- A decryption, from the plaintext on. -/
theorem secureMsgDecrypt_eq (hplain : plaintext P env address smsg payload = some vchPayload) :
    secureMsgDecrypt P env address smsg payload s =
      (do
        let vchMessage ← lift (payloadText P env (plainAnonymous env vchPayload) vchPayload)
        let sFromAddress ← if plainAnonymous env vchPayload then pure anon else payloadSender P env vchPayload vchMessage
        pure ⟨smsg.timestamp, vchMessage, sFromAddress⟩ : SmsgM MessageData) s := by
  rw [plaintext] at hplain
  cases hopen : openMessage P env address smsg payload with
  | error e => simp [hopen] at hplain
  | ok key_e =>
    have hdecrypt : P.aesDecrypt key_e smsg.iv payload = some vchPayload := by simpa [hopen] using hplain
    simp only [secureMsgDecrypt, hopen, bind, EStateM.bind, lift, hdecrypt] <;> rfl

/-- **A decryption fails if there is no text, or its sender is refused.** -/
theorem secureMsgDecrypt_error_iff (hplain : plaintext P env address smsg payload = some vchPayload)
    (hheader : headerSize vchPayload ≤ vchPayload.length) :
    (∃ e s', secureMsgDecrypt P env address smsg payload s = .error e s') ↔
      ∀ text, payloadText P env (plainAnonymous env vchPayload) vchPayload = .ok text →
        vchPayload.head? ≠ some 250 ∧ ¬ SenderVerified P vchPayload text := by
  have hpos := headerSize_pos vchPayload
  have hanon := @plainAnonymous_eq env vchPayload (by omega)
  rw [secureMsgDecrypt_eq hplain]
  cases htext : payloadText P env (plainAnonymous env vchPayload) vchPayload with
  | error e => simp [bind, EStateM.bind, lift]
  | ok text =>
    by_cases hkind : vchPayload.head? = some 250
    · simp [bind, EStateM.bind, lift, hanon, hkind, pure, EStateM.pure]
    · have hsender := payloadSender_error_iff P env s text
        (by simpa [headerSize, payloadHeader, hkind] using hheader)
      cases hrun : payloadSender P env vchPayload text s with
      | error e s' => simpa [bind, EStateM.bind, lift, hanon, hkind, hrun] using hsender
      | ok sFromAddress s' => simpa [bind, EStateM.bind, lift, hanon, hkind, hrun, pure, EStateM.pure] using hsender

/-! ## The accesses -/

theorem payloadReads_inside_header (h : AllInside vchPayload.length (payloadReads P env vchPayload)) :
    headerSize vchPayload ≤ vchPayload.length ∧
      (lenPlain env vchPayload ≤ 128 → headerSize vchPayload + lenPlain env vchPayload ≤ vchPayload.length) := by
  simp only [payloadReads, Access.allInside_cons, Access.inside_mk] at h
  obtain ⟨hkind, hlength, htext, -⟩ := h
  have hpos := headerSize_pos vchPayload
  rw [payloadHeader_eq (by omega)] at hlength htext
  refine ⟨by omega, fun hshort => ?_⟩
  rwa [if_neg (by omega)] at htext

variable (env) in
theorem lenData_le (h : headerSize vchPayload ≤ vchPayload.length) :
    lenData env vchPayload ≤ vchPayload.length - headerSize vchPayload := by
  have hpos := headerSize_pos vchPayload
  obtain ⟨n, hn⟩ := Nat.exists_eq_add_of_le h
  rw [lenData, payloadHeader_eq (by omega), hn, BitVec.ofNat_add, BitVec.add_comm, BitVec.add_sub_cancel, BitVec.toNat_ofNat,
    Nat.add_sub_cancel_left]
  exact Nat.mod_le _ _

/-- A payload with its header, and its text if that is not compressed, is read
inside. -/
theorem payloadReads_inside (hheader : headerSize vchPayload ≤ vchPayload.length)
    (htext : lenPlain env vchPayload ≤ 128 → headerSize vchPayload + lenPlain env vchPayload ≤ vchPayload.length) :
    AllInside vchPayload.length (payloadReads P env vchPayload) := by
  have hpos := headerSize_pos vchPayload
  have hdata := lenData_le env hheader
  simp only [payloadReads, Access.allInside_cons, Access.inside_mk]
  rw [payloadHeader_eq (by omega)]
  refine ⟨by omega, by omega, ?_, ?_⟩
  · split
    next => omega
    next hshort => exact htext (Nat.not_lt.mp hshort)
  · split
    next h =>
      have hsize : headerSize vchPayload = 90 := by
        have hkind := h.2
        rw [plainAnonymous_eq _ (by omega)] at hkind
        simp only [headerSize, payloadHeader, hkind]
        rfl
      simp only [Access.allInside_cons, Access.allInside_nil, Access.inside_mk, and_true]
      omega
    next => exact Access.allInside_nil

/-- The text is written inside: a decompression does not return -1, so no text
has the length whose successor is 0. -/
theorem messageWrites_inside : AllInside (messageSize env vchPayload) (messageWrites P env vchPayload) := by
  have hlt := lenPlain_lt env vchPayload
  simp only [messageWrites, messageSize, Access.allInside_cons, Access.inside_mk]
  by_cases hlast : lenPlain env vchPayload = 2 ^ 32 - 1
  · have hrefusal := Lz4.refusal_lt (plainSource env vchPayload)
    have herror : payloadText P env (plainAnonymous env vchPayload) vchPayload = .error (.rv 1) := by
      rw [payloadText_negative (by omega)]
      exact if_neg (by omega)
    rw [herror, hlast]
    simp [Except.isOk, Except.toBool]
  · rw [Nat.mod_eq_of_lt (by omega)]
    refine ⟨by split <;> omega, ?_⟩
    split
    next => simp
    next => simp

/-- The source of the decompression, in a payload that has its header. -/
theorem plainSource_eq (hheader : headerSize vchPayload ≤ vchPayload.length) (hsize : vchPayload.length < 2 ^ 32) :
    plainSource env vchPayload = vchPayload.drop (headerSize vchPayload) := by
  have hpos := headerSize_pos vchPayload
  obtain ⟨n, hn⟩ := Nat.exists_eq_add_of_le hheader
  have hdata : lenData env vchPayload = n := by
    rw [lenData, payloadHeader_eq (by omega), hn, BitVec.ofNat_add, BitVec.add_comm, BitVec.add_sub_cancel, BitVec.toNat_ofNat]
    exact Nat.mod_eq_of_lt (by omega)
  rw [plainSource, payloadHeader_eq (by omega), hdata, env.memory_eq (by omega), List.take_of_length_le]
  rw [List.length_drop]
  omega

/-- **A decryption stays inside the plaintext and the text, and refuses what
does not fit, exactly for a plaintext that is framed.** A plaintext is no
longer than the payload, whose size is a `uint32_t`. -/
theorem decryptsInside_iff (hplain : plaintext P env address smsg payload = some vchPayload)
    (hsize : vchPayload.length < 2 ^ 32) :
    DecryptsInside P env address smsg payload vchPayload s ↔ PlainFramed P vchPayload := by
  constructor
  · intro h
    obtain ⟨hheader, htext⟩ := payloadReads_inside_header h.reads
    have hlen := lenPlain_eq env hheader
    refine ⟨hheader, hlen ▸ htext, fun hneg hrefusal => ?_⟩
    have hnofit : ¬ TextFits P env vchPayload := by
      rw [TextFits, hlen, if_neg (by omega)]
      exact fun hfits => absurd hfits.1 (by omega)
    have herror := h.refused fun hfits => hnofit hfits.2
    rw [← hlen]
    refine (secureMsgDecrypt_error_iff hplain hheader).mp herror _ ?_
    rw [payloadText_negative (by omega), plainSource_eq hheader hsize, hlen]
    exact if_pos hrefusal
  · intro h
    have hheader := h.header
    have hlen := lenPlain_eq env hheader
    have hpos := headerSize_pos vchPayload
    refine ⟨payloadReads_inside h.header (hlen ▸ h.text), messageWrites_inside, fun hnot => ?_⟩
    rw [payloadHeader_eq (by omega)] at hnot
    have hnofit : ¬ TextFits P env vchPayload := fun hfits => hnot ⟨h.header, hfits⟩
    have hlong : 128 < lenPlain env vchPayload := by
      refine Nat.lt_of_not_le fun hshort => hnofit ?_
      rw [TextFits, if_pos hshort, payloadHeader_eq (by omega), hlen]
      exact h.text (hlen ▸ hshort)
    refine (secureMsgDecrypt_error_iff hplain h.header).mpr fun text htext => ?_
    by_cases hint : lenPlain env vchPayload < 2 ^ 31
    · rw [payloadText_long_error hlong hint hnofit] at htext
      cases htext
    · rw [payloadText_negative (Nat.not_lt.mp hint), plainSource_eq h.header hsize, hlen] at htext
      split at htext
      next hrefusal =>
        cases htext
        exact h.refused (hlen ▸ Nat.not_lt.mp hint) hrefusal
      next => cases htext

end

namespace SmsgSample

/-- The plaintext of the message of five bytes. -/
def opened : List UInt8 := (plaintext params env address posted written.2).getD []

theorem plaintext_opened : plaintext params env address posted written.2 = some opened := by decide +kernel

end SmsgSample

theorem decryptsInside_iff_sample :
    SmsgSample.opened.length = 95 ∧
      (DecryptsInside SmsgSample.params SmsgSample.env SmsgSample.address SmsgSample.posted SmsgSample.written.2
        SmsgSample.opened SmsgSample.node ↔ PlainFramed SmsgSample.params SmsgSample.opened) :=
  ⟨by decide +kernel, decryptsInside_iff SmsgSample.plaintext_opened (by decide +kernel)⟩

/-- A payload that is padding only, encrypted for the address: its kind is
read from nothing. -/
theorem payloadReads_outside :
    plaintext SmsgSample.params SmsgSample.env SmsgSample.address SmsgSample.posted (List.replicate 16 16) = some [] ∧
      ¬ DecryptsInside SmsgSample.params SmsgSample.env SmsgSample.address SmsgSample.posted (List.replicate 16 16) []
        SmsgSample.node :=
  ⟨by decide +kernel, fun h => absurd h.reads (by decide +kernel)⟩

end Pinkcoin
