/-
Stealth addresses as text: a version byte, the options, the two public keys
with the counts around them, and a checksum, in Base58.
-/
import Pinkcoin.Text.Base58

namespace Pinkcoin

open CScript (leBytes leNat length_leBytes)

/-! ## Checksums -/

def stealth_version_byte : UInt8 := 0x28

/-- `CStealthAddress`, without what its text does not carry. -/
structure CStealthAddress where
  options : UInt8
  scan_pubkey : List UInt8
  spend_pubkey : List UInt8
  deriving DecidableEq

section

variable (sha256 : List UInt8 → Bytes 32)

/-- `BitcoinChecksum`: `from_little_endian` of the first bytes of the hash. -/
def bitcoinChecksum (p : List UInt8) : Nat :=
  if p.length = 0 then 0 else leNat ((sha256 (sha256 p).toList).toList.take 4)

/-- `AppendChecksum`. -/
def appendChecksum (data : List UInt8) : List UInt8 := data ++ leBytes 4 (bitcoinChecksum sha256 data)

/-- `VerifyChecksum`. -/
def verifyChecksum (data : List UInt8) : Bool :=
  if data.length < 4 then false
  else bitcoinChecksum sha256 (data.take (data.length - 4)) == leNat (data.drop (data.length - 4))

/-- The smallest address. -/
def STEALTH_SIZE : Nat := 1 + 1 + 33 + 1 + 33 + 1 + 1 + 4

namespace CStealthAddress

/-- `SetEncoded`: what it returns, and the address after it. -/
def setEncoded (a : CStealthAddress) (encodedAddress : List Char) : Bool × CStealthAddress :=
  match decodeBase58 encodedAddress with
  | none => (false, a)
  | some raw =>
    if !verifyChecksum sha256 raw then (false, a)
    else if raw.length < STEALTH_SIZE then (false, a)
    else if raw.getD 0 0 ≠ stealth_version_byte then (false, a)
    else (true, ⟨raw.getD 1 0, (raw.drop 2).take 33, (raw.drop 36).take 33⟩)

/-- The bytes before the checksum. -/
def body (a : CStealthAddress) : List UInt8 :=
  stealth_version_byte :: a.options :: a.scan_pubkey ++ 1 :: a.spend_pubkey ++ [0, 0]

/-- `Encoded`. -/
def encoded (a : CStealthAddress) : List Char := encodeBase58 (appendChecksum sha256 a.body)

end CStealthAddress

/-- `IsStealthAddress`. -/
def isStealthAddress (encodedAddress : List Char) : Bool :=
  match decodeBase58 encodedAddress with
  | none => false
  | some raw =>
    if !verifyChecksum sha256 raw then false
    else if raw.length < STEALTH_SIZE then false
    else if raw.getD 0 0 ≠ stealth_version_byte then false
    else true

end

section

variable {sha256 : List UInt8 → Bytes 32} {a b : CStealthAddress} {s : List Char} {data raw : List UInt8}

theorem bitcoinChecksum_lt (data : List UInt8) : bitcoinChecksum sha256 data < 256 ^ 4 := by
  unfold bitcoinChecksum
  split
  · decide
  · refine (leNat_lt _).trans_le (Nat.pow_le_pow_right (by decide) ?_)
    exact List.length_take_le 4 _

theorem verifyChecksum_append (data : List UInt8) {sum : List UInt8} (h : sum.length = 4) :
    verifyChecksum sha256 (data ++ sum) = true ↔ bitcoinChecksum sha256 data = leNat sum := by
  have hlen : (data ++ sum).length - 4 = data.length := by
    rw [List.length_append, h, Nat.add_sub_cancel]
  have hlarge : ¬ (data ++ sum).length < 4 := by
    rw [List.length_append]
    omega
  rw [verifyChecksum, if_neg hlarge, hlen, List.take_left, List.drop_left, beq_iff_eq]

/-- **The bytes that are accepted** are those that end with the checksum of
what is in front of it. -/
theorem verifyChecksum_iff (raw : List UInt8) : verifyChecksum sha256 raw = true ↔ ∃ data, raw = appendChecksum sha256 data := by
  constructor
  · intro h
    have hlarge : ¬ raw.length < 4 := fun hlt => by
      rw [verifyChecksum, if_pos hlt] at h
      cases h
    have hsum : (raw.drop (raw.length - 4)).length = 4 := by
      rw [List.length_drop]
      omega
    refine ⟨raw.take (raw.length - 4), ?_⟩
    rw [← List.take_append_drop (raw.length - 4) raw] at h
    have hsame := (verifyChecksum_append (raw.take (raw.length - 4)) hsum).mp h
    have hbytes := leBytes_leNat (raw.drop (raw.length - 4))
    rw [hsum] at hbytes
    rw [appendChecksum, hsame, hbytes, List.take_append_drop]
  · intro ⟨data, h⟩
    rw [h, appendChecksum, verifyChecksum_append data (length_leBytes 4 _), leNat_leBytes,
      Nat.mod_eq_of_lt (bitcoinChecksum_lt data)]

/-! ## Reading -/

/-- What `SetEncoded` requires of the bytes. -/
structure Accepts (sha256 : List UInt8 → Bytes 32) (raw : List UInt8) : Prop where
  checksum : verifyChecksum sha256 raw = true
  size : STEALTH_SIZE ≤ raw.length
  version : raw.getD 0 0 = stealth_version_byte

/-- The address some bytes stand for. -/
def ofRaw (raw : List UInt8) : CStealthAddress := ⟨raw.getD 1 0, (raw.drop 2).take 33, (raw.drop 36).take 33⟩

theorem setEncoded_of_accepts (hs : decodeBase58 s = some raw) (h : Accepts sha256 raw) :
    a.setEncoded sha256 s = (true, ofRaw raw) := by
  have hsize : ¬ raw.length < STEALTH_SIZE := Nat.not_lt.mpr h.size
  have hversion : ¬ raw.getD 0 0 ≠ stealth_version_byte := not_not_intro h.version
  simp only [CStealthAddress.setEncoded, hs, h.checksum, Bool.not_true, Bool.false_eq_true, if_false, if_neg hsize, if_neg hversion]
  rfl

/-- What is refused leaves the address as it is. -/
theorem setEncoded_cases (a : CStealthAddress) (s : List Char) :
    a.setEncoded sha256 s = (false, a) ∨
      ∃ raw, decodeBase58 s = some raw ∧ Accepts sha256 raw ∧ a.setEncoded sha256 s = (true, ofRaw raw) := by
  cases hs : decodeBase58 s with
  | none => exact .inl (by rw [CStealthAddress.setEncoded, hs])
  | some raw =>
    by_cases hsum : verifyChecksum sha256 raw = true
    · by_cases hsize : raw.length < STEALTH_SIZE
      · exact .inl (by simp [CStealthAddress.setEncoded, hs, hsize])
      · by_cases hversion : raw.getD 0 0 = stealth_version_byte
        · have h : Accepts sha256 raw := ⟨hsum, Nat.not_lt.mp hsize, hversion⟩
          exact .inr ⟨raw, rfl, h, setEncoded_of_accepts hs h⟩
        · simp only [CStealthAddress.setEncoded, hs, if_pos hversion]
          exact .inl (by simp)
    · exact .inl (by simp [CStealthAddress.setEncoded, hs, hsum])

/-! ## Round trips -/

theorem drop_eq_getD_cons {i : Nat} (h : i < raw.length) : raw.drop i = raw.getD i 0 :: raw.drop (i + 1) := by
  rw [List.drop_eq_getElem_cons h, List.getD_eq_getElem _ _ h]

/-- The bytes of an address with keys of 33 bytes, put together again. -/
theorem body_ofRaw (hlen : data.length = STEALTH_SIZE - 4) (hversion : data.getD 0 0 = stealth_version_byte)
    (hcount : data.getD 35 0 = 1) (hsigs : data.getD 69 0 = 0) (hpre : data.getD 70 0 = 0) : (ofRaw data).body = data := by
  have hsize : data.length = 71 := hlen
  have hend : data.drop 69 = [0, 0] := by
    rw [drop_eq_getD_cons (by omega), drop_eq_getD_cons (by omega), hsigs, hpre, List.drop_eq_nil_of_le (by omega)]
  have hspend : data.drop 35 = 1 :: (data.drop 36).take 33 ++ [0, 0] := by
    have hrest := List.take_append_drop 33 (data.drop 36)
    rw [List.drop_drop, hend] at hrest
    rw [drop_eq_getD_cons (by omega), hcount, List.cons_append, hrest]
  have hscan : data.drop 2 = (data.drop 2).take 33 ++ data.drop 35 := by
    have hrest := List.take_append_drop 33 (data.drop 2)
    rw [List.drop_drop] at hrest
    exact hrest.symm
  have hall : data = data.getD 0 0 :: data.getD 1 0 :: data.drop 2 := by
    rw [← drop_eq_getD_cons (by omega), ← drop_eq_getD_cons (by omega), List.drop_zero]
  conv => rhs; rw [hall, hscan, hspend, hversion]
  simp [CStealthAddress.body, ofRaw]

theorem length_body (hscan : a.scan_pubkey.length = 33) (hspend : a.spend_pubkey.length = 33) :
    a.body.length = STEALTH_SIZE - 4 := by
  simp [CStealthAddress.body, hscan, hspend, STEALTH_SIZE]

/-- The bytes of an address with keys of 33 bytes stand for it. -/
theorem ofRaw_body (hscan : a.scan_pubkey.length = 33) (hspend : a.spend_pubkey.length = 33) (sum : List UInt8) :
    ofRaw (a.body ++ sum) = a := by
  obtain ⟨options, scan, spend⟩ := a
  have hscan : scan.length = 33 := hscan
  have hspend : spend.length = 33 := hspend
  simp [ofRaw, CStealthAddress.body, List.take_append, List.drop_append, hscan, hspend]

/-- A string that decodes to what is written gives the address. -/
theorem setEncoded_of_body (hscan : a.scan_pubkey.length = 33) (hspend : a.spend_pubkey.length = 33)
    (hs : decodeBase58 s = some (appendChecksum sha256 a.body)) : b.setEncoded sha256 s = (true, a) := by
  have hsize : (appendChecksum sha256 a.body).length = STEALTH_SIZE := by
    rw [appendChecksum, List.length_append, length_body hscan hspend, length_leBytes]
    rfl
  have haccepts : Accepts sha256 (appendChecksum sha256 a.body) :=
    ⟨(verifyChecksum_iff _).mpr ⟨_, rfl⟩, hsize.ge, rfl⟩
  rw [setEncoded_of_accepts hs haccepts, appendChecksum, ofRaw_body hscan hspend]

/-- What is written is read back. -/
theorem setEncoded_encoded (hscan : a.scan_pubkey.length = 33) (hspend : a.spend_pubkey.length = 33) :
    b.setEncoded sha256 (a.encoded sha256) = (true, a) :=
  setEncoded_of_body hscan hspend (decodeBase58_encodeBase58 _)

/-- The bytes have the length, the count of keys and the other counts that are
written. -/
structure Canonical (raw : List UInt8) : Prop where
  length : raw.length = STEALTH_SIZE
  keys : raw.getD 35 0 = 1
  signatures : raw.getD 69 0 = 0
  bits : raw.getD 70 0 = 0

/-- What is accepted is written again, if it has the form that is written. -/
theorem encoded_of_setEncoded (hs : decodeBase58 s = some raw) (hform : Canonical raw) (h : (a.setEncoded sha256 s).1 = true) :
    (a.setEncoded sha256 s).2.encoded sha256 = strip (cstr s) := by
  rcases @setEncoded_cases sha256 a s with hfalse | ⟨raw', hraw', haccepts, hset⟩
  · rw [hfalse] at h
    cases h
  · rw [hs] at hraw'
    obtain rfl := Option.some.inj hraw'
    obtain ⟨data, rfl⟩ := (verifyChecksum_iff raw).mp haccepts.checksum
    have hlen : data.length = STEALTH_SIZE - 4 := by
      have := hform.length
      rw [appendChecksum, List.length_append, length_leBytes] at this
      omega
    have hget : ∀ i, i < 71 → (appendChecksum sha256 data).getD i 0 = data.getD i 0 := fun i hi => by
      have hi : i < data.length := by
        rw [hlen]
        exact hi
      exact List.getD_append _ _ _ _ hi
    have hbody : (ofRaw data).body = data := by
      refine body_ofRaw hlen ?_ ?_ ?_ ?_
      · rw [← hget 0 (by decide)]
        exact haccepts.version
      · rw [← hget 35 (by decide)]
        exact hform.keys
      · rw [← hget 69 (by decide)]
        exact hform.signatures
      · rw [← hget 70 (by decide)]
        exact hform.bits
    have hraw : ofRaw (appendChecksum sha256 data) = ofRaw data := by
      have hsize : data.length = 71 := hlen
      simp [ofRaw, appendChecksum, List.drop_append, List.take_append, hsize, List.getD_eq_getElem?_getD,
        List.getElem?_append_left]
    rw [hset, CStealthAddress.encoded, hraw, hbody]
    exact encodeBase58_of_decodeBase58 hs

/-- **Stealth addresses as text**: an address is read back from its text; a
string that is accepted and decodes to the form that is written is written
again, but for blanks around it and what is behind a NUL; what is accepted ends
with its checksum; and what is refused leaves the address as it is. -/
theorem stealthText_spec :
    (∀ a b : CStealthAddress, a.scan_pubkey.length = 33 → a.spend_pubkey.length = 33 →
        b.setEncoded sha256 (a.encoded sha256) = (true, a)) ∧
      (∀ (a : CStealthAddress) (s : List Char) (raw : List UInt8), decodeBase58 s = some raw → Canonical raw →
        (a.setEncoded sha256 s).1 = true → (a.setEncoded sha256 s).2.encoded sha256 = strip (cstr s)) ∧
      (∀ (a : CStealthAddress) (s : List Char), (a.setEncoded sha256 s).1 = true →
        ∃ data, decodeBase58 s = some (appendChecksum sha256 data)) ∧
      ∀ (a : CStealthAddress) (s : List Char), (a.setEncoded sha256 s).1 = false → (a.setEncoded sha256 s).2 = a := by
  refine ⟨fun a b hscan hspend => setEncoded_encoded hscan hspend, fun a s raw hs hform h => encoded_of_setEncoded hs hform h,
    fun a s h => ?_, fun a s h => ?_⟩
  · rcases setEncoded_cases a s with hfalse | ⟨raw, hraw, haccepts, -⟩
    · rw [hfalse] at h
      cases h
    · obtain ⟨data, rfl⟩ := (verifyChecksum_iff raw).mp haccepts.checksum
      exact ⟨data, hraw⟩
  · rcases setEncoded_cases a s with hfalse | ⟨raw, -, -, htrue⟩
    · rw [hfalse]
    · rw [htrue] at h
      cases h

end

theorem decodeBase58_blank (s : List Char) : decodeBase58 (' ' :: s) = decodeBase58 s := by
  have hcstr : cstr (' ' :: s) = ' ' :: cstr s := List.takeWhile_cons_of_pos (by decide)
  have hpsz : (cstr (' ' :: s)).dropWhile isspace = (cstr s).dropWhile isspace := by
    rw [hcstr]
    exact List.dropWhile_cons_of_pos (by decide)
  unfold cstr at hpsz
  simp only [decodeBase58, hpsz]

/-- An address with a blank in front of it is accepted, and written without
the blank. -/
theorem not_encoded_blank :
    ¬ ∃ sha256 : List UInt8 → Bytes 32, ∀ (a : CStealthAddress) (s : List Char) (raw : List UInt8),
      decodeBase58 s = some raw → Canonical raw → (a.setEncoded sha256 s).1 = true → (a.setEncoded sha256 s).2.encoded sha256 = s := by
  intro ⟨sha256, h⟩
  let a : CStealthAddress := ⟨0, List.replicate 33 2, List.replicate 33 3⟩
  have hdecode : decodeBase58 (' ' :: a.encoded sha256) = some (appendChecksum sha256 a.body) :=
    (decodeBase58_blank _).trans (decodeBase58_encodeBase58 _)
  have hset : a.setEncoded sha256 (' ' :: a.encoded sha256) = (true, a) := setEncoded_of_body rfl rfl hdecode
  have hlen := length_leBytes 4 (bitcoinChecksum sha256 a.body)
  have hform : Canonical (appendChecksum sha256 a.body) := by
    refine ⟨?_, rfl, rfl, rfl⟩
    rw [appendChecksum, List.length_append, hlen]
    rfl
  have hwritten := h a _ _ hdecode hform (congrArg Prod.fst hset)
  rw [hset] at hwritten
  exact absurd hwritten.symm (List.cons_ne_self _ _)

end Pinkcoin
