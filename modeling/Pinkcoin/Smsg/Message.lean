/-
The header of a secure message: its fields, and the 104 bytes that are sent
and stored. A buffer is cast to the header in the source, which reads the
fields at their offsets.
-/
import Mathlib.Data.Vector.Defs
import Pinkcoin.Script

namespace Pinkcoin

/-! ## Sizes -/

def SMSG_HDR_LEN : Nat := 104
def SMSG_PL_HDR_LEN : Nat := 1 + 20 + 65 + 4
def SMSG_BUCKET_LEN : Int := 60 * 10
def SMSG_RETENTION : Int := 60 * 60 * 48
def SMSG_TIME_LEEWAY : Int := 60
def SMSG_TIME_IGNORE : Int := 90
def SMSG_MAX_MSG_BYTES : Nat := 4096

/-- `LZ4_COMPRESSBOUND`. -/
def LZ4_COMPRESSBOUND (isize : Nat) : Nat := if 0x7E000000 < isize then 0 else isize + isize / 255 + 16

def SMSG_MAX_MSG_WORST : Nat := LZ4_COMPRESSBOUND (SMSG_MAX_MSG_BYTES + SMSG_PL_HDR_LEN)

/-! ## Bytes -/

open CScript (leBytes leNat length_leBytes leBytes_inj)

/-- A fixed number of bytes. -/
abbrev Bytes (n : Nat) := List.Vector UInt8 n

/-- The `n` bytes at an offset. -/
def slice {m : Nat} (b : Bytes m) (ofs n : Nat) (h : ofs + n ≤ m) : Bytes n :=
  ⟨(b.toList.drop ofs).take n, by rw [List.length_take, List.length_drop, b.toList_length]; omega⟩

theorem toList_slice {m : Nat} (b : Bytes m) (ofs n : Nat) (h : ofs + n ≤ m) :
    (slice b ofs n h).toList = (b.toList.drop ofs).take n := rfl

/-- Consecutive bytes, put together again. -/
theorem slice_append_drop {m : Nat} (b : Bytes m) {ofs n k : Nat} (h : ofs + n ≤ m) (hk : ofs + n = k) :
    (slice b ofs n h).toList ++ b.toList.drop k = b.toList.drop ofs := by
  rw [toList_slice, ← hk, ← List.drop_drop, List.take_append_drop]

theorem leNat_leBytes (k n : Nat) : leNat (leBytes k n) = n % 256 ^ k := by
  induction k generalizing n with
  | zero => simp [leNat, leBytes, Nat.mod_one]
  | succ k ih =>
    have hbyte : (UInt8.ofNat (n % 256)).toNat = n % 256 := by simp
    change (UInt8.ofNat (n % 256)).toNat + 256 * leNat (leBytes k (n / 256)) = _
    rw [hbyte, ih, Nat.pow_succ, Nat.mul_comm (256 ^ k), Nat.mod_mul]

theorem leNat_lt (l : List UInt8) : leNat l < 256 ^ l.length := by
  induction l with
  | nil => simp [leNat]
  | cons b l ih =>
    change b.toNat + 256 * leNat l < _
    have hb : b.toNat < 256 := b.toNat_lt
    rw [List.length_cons, Nat.pow_succ]
    omega

theorem leBytes_leNat (l : List UInt8) : leBytes l.length (leNat l) = l := by
  induction l with
  | nil => rfl
  | cons b l ih =>
    have hb : b.toNat < 256 := b.toNat_lt
    have hmod : (b.toNat + 256 * leNat l) % 256 = b.toNat := by omega
    have hdiv : (b.toNat + 256 * leNat l) / 256 = leNat l := by omega
    change UInt8.ofNat ((b.toNat + 256 * leNat l) % 256) :: leBytes l.length ((b.toNat + 256 * leNat l) / 256) = _
    rw [hmod, hdiv, ih, UInt8.ofNat_toNat]

/-! ## The header -/

/-- `SecureMessage`, without the pointer to the payload. `timestamp` is an
`int64_t` and `nPayload` a `uint32_t`. -/
structure SecureMessage where
  hash : Bytes 4
  version : Bytes 2
  flags : UInt8
  timestamp : BitVec 64
  iv : Bytes 16
  cpkR : Bytes 33
  mac : Bytes 32
  nonse : Bytes 4
  nPayload : BitVec 32
  deriving DecidableEq

namespace SecureMessage

/-- The header as it lies in memory. -/
def bytes (smsg : SecureMessage) : List UInt8 :=
  smsg.hash.toList ++ (smsg.version.toList ++ (smsg.flags :: (leBytes 8 smsg.timestamp.toNat ++ (smsg.iv.toList ++
    (smsg.cpkR.toList ++ (smsg.mac.toList ++ (smsg.nonse.toList ++ leBytes 4 smsg.nPayload.toNat)))))))

/-- `(SecureMessage*) pHeader`. -/
def ofBytes (b : Bytes SMSG_HDR_LEN) : SecureMessage where
  hash := slice b 0 4 (by decide)
  version := slice b 4 2 (by decide)
  flags := (slice b 6 1 (by decide)).head
  timestamp := BitVec.ofNat 64 (leNat (slice b 7 8 (by decide)).toList)
  iv := slice b 15 16 (by decide)
  cpkR := slice b 31 33 (by decide)
  mac := slice b 64 32 (by decide)
  nonse := slice b 96 4 (by decide)
  nPayload := BitVec.ofNat 32 (leNat (slice b 100 4 (by decide)).toList)

theorem length_bytes (smsg : SecureMessage) : smsg.bytes.length = SMSG_HDR_LEN := by
  simp [bytes, length_leBytes, SMSG_HDR_LEN]

theorem leBytes_ofNat {k w : Nat} (v : Bytes k) (hw : 2 ^ w = 256 ^ k) :
    leBytes k (BitVec.ofNat w (leNat v.toList)).toNat = v.toList := by
  have hlt := leNat_lt v.toList
  rw [v.toList_length] at hlt
  have hle := leBytes_leNat v.toList
  rw [v.toList_length] at hle
  rw [BitVec.toNat_ofNat, hw, Nat.mod_eq_of_lt hlt, hle]

/-- A cast keeps the bytes. -/
theorem bytes_ofBytes (b : Bytes SMSG_HDR_LEN) : (ofBytes b).bytes = b.toList := by
  have hflags : ∀ (v : Bytes 1) (l : List UInt8), v.head :: l = v.toList ++ l := fun v l => by
    obtain ⟨a, hv⟩ := List.length_eq_one_iff.mp v.toList_length
    have hhead : v.head = a := by
      obtain ⟨l', hl'⟩ := v
      subst hv
      rfl
    rw [hhead, hv, List.singleton_append]
  have hlast : (slice b 100 4 (by decide)).toList = b.toList.drop 100 := by
    rw [toList_slice, List.take_of_length_le]
    rw [List.length_drop, b.toList_length]
    decide
  simp only [bytes, ofBytes]
  rw [leBytes_ofNat _ (by decide), leBytes_ofNat _ (by decide), hflags, hlast, slice_append_drop b _ rfl,
    slice_append_drop b _ rfl, slice_append_drop b _ rfl, slice_append_drop b _ rfl, slice_append_drop b _ rfl,
    slice_append_drop b _ rfl, slice_append_drop b _ rfl, slice_append_drop b _ rfl, List.drop_zero]

theorem bytes_injective {smsg smsg' : SecureMessage} (h : smsg.bytes = smsg'.bytes) : smsg = smsg' := by
  obtain ⟨hash, version, flags, timestamp, iv, cpkR, mac, nonse, nPayload⟩ := smsg
  obtain ⟨hash', version', flags', timestamp', iv', cpkR', mac', nonse', nPayload'⟩ := smsg'
  obtain ⟨hhash, h⟩ := List.append_inj h (by simp)
  obtain ⟨hversion, h⟩ := List.append_inj h (by simp)
  obtain ⟨hflags, h⟩ := List.cons.inj h
  obtain ⟨htime, h⟩ := List.append_inj h (by simp [length_leBytes])
  obtain ⟨hiv, h⟩ := List.append_inj h (by simp)
  obtain ⟨hcpkR, h⟩ := List.append_inj h (by simp)
  obtain ⟨hmac, h⟩ := List.append_inj h (by simp)
  obtain ⟨hnonse, hsize⟩ := List.append_inj h (by simp)
  have ht := BitVec.eq_of_toNat_eq (leBytes_inj timestamp.isLt timestamp'.isLt htime)
  have hn := BitVec.eq_of_toNat_eq (leBytes_inj nPayload.isLt nPayload'.isLt hsize)
  rw [mk.injEq]
  exact ⟨Subtype.ext hhash, Subtype.ext hversion, hflags, ht, Subtype.ext hiv, Subtype.ext hcpkR, Subtype.ext hmac,
    Subtype.ext hnonse, hn⟩

/-- **The header read back from its bytes.** -/
theorem ofBytes_bytes (smsg : SecureMessage) : ofBytes ⟨smsg.bytes, smsg.length_bytes⟩ = smsg :=
  bytes_injective (bytes_ofBytes _)

end SecureMessage

end Pinkcoin
