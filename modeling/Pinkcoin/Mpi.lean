/-
The format OpenSSL writes a number in: its size in four bytes, then the
magnitude, the most significant byte first, with the sign in the highest bit,
for which a null byte makes room.
-/
import Pinkcoin.Stealth
import Pinkcoin.Interp.Bounds
import Pinkcoin.Text.Base64

namespace Pinkcoin

open CScript (leBytes leNat vchSize length_leBytes)

namespace Mpi

variable {d e : List UInt8} {z : Int} {n : Nat}

/-! ## The format -/

/-- The number that some bytes are. -/
def value : List UInt8 → Int
  | [] => 0
  | b :: d => if b &&& 0x80 ≠ 0 then -(beNat ((b &&& 0x7f) :: d) : Int) else beNat (b :: d)

/-- A null byte, where the highest bit is taken. -/
def padded : List UInt8 → List UInt8
  | [] => []
  | b :: d => if b &&& 0x80 ≠ 0 then 0 :: b :: d else b :: d

def signed (negative : Bool) : List UInt8 → List UInt8
  | [] => []
  | b :: d => (if negative then b ||| 0x80 else b) :: d

/-- The bytes of a number. -/
def bytes (z : Int) : List UInt8 := signed (decide (z < 0)) (padded (bn2bin z.natAbs))

/-- The size in front. -/
def lengthBytes (n : Nat) : List UInt8 := (leBytes 4 n).reverse

/-! ## The sign bit -/

theorem topBit_iff (b : UInt8) : b &&& 0x80 ≠ 0 ↔ 128 ≤ b.toNat :=
  forall_char (P := fun b => b &&& 0x80 ≠ 0 ↔ 128 ≤ b.toNat) (by decide +kernel) b

theorem toNat_low (b : UInt8) : (b &&& 0x7f).toNat = b.toNat % 128 :=
  forall_char (P := fun b => (b &&& 0x7f).toNat = b.toNat % 128) (by decide +kernel) b

theorem toNat_signed (b : UInt8) : (b ||| 0x80).toNat = b.toNat % 128 + 128 :=
  forall_char (P := fun b => (b ||| 0x80).toNat = b.toNat % 128 + 128) (by decide +kernel) b

theorem low_signed {b : UInt8} (hb : b.toNat < 128) : (b ||| 0x80) &&& 0x7f = b := by
  refine UInt8.toNat.inj ?_
  rw [toNat_low, toNat_signed]
  omega

/-! ## Bytes and numbers -/

theorem beNat_bound (d : List UInt8) : beNat d < 256 ^ d.length := by
  have h := leNat_lt d.reverse
  rwa [List.length_reverse] at h

theorem beNat_inj (hlength : d.length = e.length) (h : beNat d = beNat e) : d = e := by
  have hd := leBytes_leNat d.reverse
  have he := leBytes_leNat e.reverse
  rw [List.length_reverse] at hd he
  refine List.reverse_inj.mp ?_
  rw [← hd, ← he, hlength]
  exact congrArg (leBytes e.length) h

theorem leNat_append (d e : List UInt8) : leNat (d ++ e) = leNat d + 256 ^ d.length * leNat e := by
  induction d with
  | nil => simp [leNat]
  | cons b d ih =>
    show b.toNat + 256 * leNat (d ++ e) = b.toNat + 256 * leNat d + 256 ^ (d.length + 1) * leNat e
    rw [ih, Nat.pow_succ]
    ring

theorem value_cons_of_lt {b : UInt8} (hb : b.toNat < 128) (d : List UInt8) : value (b :: d) = beNat (b :: d) := by
  rw [value, if_neg (mt (topBit_iff b).mp (Nat.not_le.mpr hb))]

theorem value_cons_signed {b : UInt8} (hb : b.toNat < 128) (d : List UInt8) :
    value ((b ||| 0x80) :: d) = -(beNat (b :: d) : Int) := by
  have htop : 128 ≤ (b ||| 0x80).toNat := by
    rw [toNat_signed]
    omega
  rw [value, if_pos ((topBit_iff _).mpr htop), low_signed hb]

/-- **The sign is read back.** -/
theorem value_signed (negative : Bool) {b : UInt8} (hb : b.toNat < 128) (d : List UInt8) :
    value (signed negative (b :: d)) = if negative then -(beNat (b :: d) : Int) else beNat (b :: d) := by
  cases negative with
  | false => exact value_cons_of_lt hb d
  | true => exact value_cons_signed hb d

/-- A null byte in front is no more than room. -/
theorem beNat_padded (d : List UInt8) : beNat (padded d) = beNat d := by
  cases d with
  | nil => rfl
  | cons b d =>
    rw [padded]
    split
    · rw [beNat_cons]
      exact Nat.add_zero _
    · rfl

theorem padded_cons {b : UInt8} {d' : List UInt8} (h : padded d = b :: d') : b.toNat < 128 := by
  cases d with
  | nil => cases h
  | cons c d =>
    rw [padded] at h
    split at h
    next =>
      cases h
      decide
    next hc =>
      cases h
      exact Nat.not_le.mp (mt (topBit_iff _).mpr hc)

theorem value_signed_padded (negative : Bool) (d : List UInt8) :
    value (signed negative (padded d)) = if negative then -(beNat d : Int) else beNat d := by
  rw [← beNat_padded d]
  cases h : padded d with
  | nil => cases negative <;> rfl
  | cons b d' => exact value_signed negative (padded_cons h) d'

/-- **A number is read back from its bytes.** -/
theorem value_bytes (z : Int) : value (bytes z) = z := by
  rw [bytes, value_signed_padded, beNat_bn2bin]
  by_cases hz : z < 0
  · rw [decide_eq_true hz, if_pos rfl]
    omega
  · rw [decide_eq_false hz, if_neg Bool.false_ne_true]
    omega

/-! ## No bytes to spare -/

theorem length_signed (negative : Bool) (d : List UInt8) : (signed negative d).length = d.length := by
  cases d <;> rfl

theorem length_padded_bn2bin (n : Nat) : (padded (bn2bin n)).length = vchSize n := by
  by_cases hzero : n = 0
  · subst hzero
    rfl
  have hlength := length_bn2bin n
  have hbits : bnNumBytes n = (n.log2 + 1 + 7) / 8 := by rw [bnNumBytes, bnNumBits, if_neg hzero]
  cases h : bn2bin n with
  | nil =>
    rw [h, List.length_nil] at hlength
    omega
  | cons b d =>
    have hn := beNat_bn2bin n
    rw [h, beNat_cons] at hn
    rw [h, List.length_cons, hbits] at hlength
    have hd := beNat_bound d
    have hpow : (256 : Nat) ^ d.length = 2 ^ (8 * d.length) := by rw [Nat.pow_mul]
    have htop : 128 ≤ b.toNat ↔ 8 * d.length + 7 ≤ n.log2 := by
      rw [Nat.le_log2 hzero, Nat.pow_add, ← hpow, ← hn]
      constructor
      · intro hb
        calc 256 ^ d.length * 2 ^ 7
            _ ≤ 256 ^ d.length * b.toNat := Nat.mul_le_mul_left _ hb
            _ ≤ beNat d + 256 ^ d.length * b.toNat := Nat.le_add_left _ _
      · intro hle
        by_contra hb
        have hmul : 256 ^ d.length * (b.toNat + 1) ≤ 256 ^ d.length * 2 ^ 7 := Nat.mul_le_mul_left _ (by omega)
        rw [Nat.mul_succ] at hmul
        omega
    rw [padded, vchSize, if_neg hzero]
    by_cases hb : 128 ≤ b.toNat
    · rw [if_pos ((topBit_iff b).mpr hb), List.length_cons, List.length_cons]
      have hlog := htop.mp hb
      omega
    · rw [if_neg (mt (topBit_iff b).mp hb), List.length_cons]
      have hlog := mt htop.mpr hb
      omega

theorem length_bytes (z : Int) : (bytes z).length = vchSize z.natAbs := by
  rw [bytes, length_signed, length_padded_bn2bin]

/-- The sign is the highest bit, and the others are the magnitude. -/
theorem value_cons (b : UInt8) (d : List UInt8) :
    value (b :: d) = if 128 ≤ b.toNat then -(beNat ((b &&& 0x7f) :: d) : Int) else beNat ((b &&& 0x7f) :: d) := by
  have hlow : ¬ 128 ≤ b.toNat → b &&& 0x7f = b := by
    intro hb
    refine UInt8.toNat.inj ?_
    rw [toNat_low]
    omega
  rw [value]
  by_cases hb : 128 ≤ b.toNat
  · rw [if_pos ((topBit_iff b).mpr hb), if_pos hb]
  · rw [if_neg (mt (topBit_iff b).mp hb), if_neg hb, hlow hb]

theorem natAbs_value_cons (b : UInt8) (d : List UInt8) : (value (b :: d)).natAbs = beNat ((b &&& 0x7f) :: d) := by
  rw [value_cons]
  split <;> omega

/-- A number of so many bytes leaves the sign bit free. -/
theorem natAbs_value_lt (b : UInt8) (d : List UInt8) : (value (b :: d)).natAbs < 2 ^ (8 * d.length + 7) := by
  have hd := beNat_bound d
  have hpow : (2 : Nat) ^ (8 * d.length + 7) = 256 ^ d.length * 128 := by
    rw [Nat.pow_add, Nat.pow_mul]
  have hmul : 256 ^ d.length * (b.toNat % 128 + 1) ≤ 256 ^ d.length * 128 :=
    Nat.mul_le_mul_left _ (Nat.mod_lt _ (by decide))
  rw [Nat.mul_succ] at hmul
  rw [natAbs_value_cons, hpow, beNat_cons, toNat_low]
  omega

/-- **No shorter bytes are the number,** -/
theorem length_bytes_le (d : List UInt8) : (bytes (value d)).length ≤ d.length := by
  rw [length_bytes]
  cases d with
  | nil => exact Nat.le_refl 0
  | cons b d => exact vchSize_le (natAbs_value_lt b d)

/-- and none as short. -/
theorem bytes_inj (hlength : d.length = e.length) (h : value d = value e) (hne : value d ≠ 0) : d = e := by
  cases d with
  | nil => exact (hne rfl).elim
  | cons b d =>
    cases e with
    | nil => cases hlength
    | cons c e =>
      have hmagnitude : beNat ((b &&& 0x7f) :: d) = beNat ((c &&& 0x7f) :: e) := by
        rw [← natAbs_value_cons, ← natAbs_value_cons, h]
      rw [value_cons] at h hne
      rw [value_cons] at h
      have hsign : 128 ≤ b.toNat ↔ 128 ≤ c.toNat := by
        rw [hmagnitude] at h hne
        by_cases hb : 128 ≤ b.toNat
        · by_cases hc : 128 ≤ c.toNat
          · exact iff_of_true hb hc
          · rw [if_pos hb] at h hne
            rw [if_neg hc] at h
            omega
        · by_cases hc : 128 ≤ c.toNat
          · rw [if_neg hb] at h hne
            rw [if_pos hc] at h
            omega
          · exact iff_of_false hb hc
      have hcells := beNat_inj (d := (b &&& 0x7f) :: d) (e := (c &&& 0x7f) :: e) hlength hmagnitude
      injection hcells with hlow hrest
      have hmod := congrArg UInt8.toNat hlow
      rw [toNat_low, toNat_low] at hmod
      have hb := b.toNat_lt
      have hc := c.toNat_lt
      have hbyte : b = c := UInt8.toNat.inj (by omega)
      rw [hbyte, hrest]

/-! ## The numbers of scripts -/

/-- What `setvch` reads, the other way around. -/
theorem value_reverse (vch : List UInt8) : value vch.reverse = Pinkcoin.setvch vch := by
  cases h : vch.reverse with
  | nil =>
    rw [List.reverse_eq_nil_iff] at h
    rw [h]
    rfl
  | cons b d =>
    have hlast : vch.getLast? = some b := by
      rw [← List.head?_reverse, h]
      rfl
    have hlength : vch.length - 1 = d.length := by
      have hsize := congrArg List.length h
      rw [List.length_reverse, List.length_cons] at hsize
      omega
    have hnat : leNat vch = beNat (b :: d) := by rw [← h, beNat, List.reverse_reverse]
    rw [Pinkcoin.setvch, hlast, hnat, hlength]
    show value (b :: d) = if b.toNat < 128 then _ else _
    by_cases hb : b.toNat < 128
    · rw [if_pos hb, value_cons_of_lt hb]
    · have hsplit : 256 ^ d.length * b.toNat = 256 ^ d.length * (b.toNat % 128) + 128 * 256 ^ d.length := by
        have hbyte : b.toNat = b.toNat % 128 + 128 := by
          have hlt := b.toNat_lt
          omega
        calc 256 ^ d.length * b.toNat
            _ = 256 ^ d.length * (b.toNat % 128 + 128) := by rw [← hbyte]
            _ = 256 ^ d.length * (b.toNat % 128) + 128 * 256 ^ d.length := by ring
      rw [if_neg hb, value, if_pos ((topBit_iff b).mpr (Nat.not_lt.mp hb)), beNat_cons, beNat_cons, toNat_low, hsplit,
        ← Nat.add_assoc, Nat.add_sub_cancel]

/-- The bytes of a number as one number: the sign is its highest bit. -/
theorem beNat_bytes (z : Int) :
    beNat (bytes z) = if z < 0 then z.natAbs + 128 * 256 ^ (vchSize z.natAbs - 1) else z.natAbs := by
  have hlength := length_padded_bn2bin z.natAbs
  rw [bytes]
  cases h : padded (bn2bin z.natAbs) with
  | nil =>
    have hzero : z.natAbs = 0 := by
      have hn := beNat_padded (bn2bin z.natAbs)
      rw [h, beNat_bn2bin] at hn
      exact hn.symm
    have hz : ¬ z < 0 := by omega
    rw [if_neg hz, hzero]
    rfl
  | cons b d =>
    have hb := padded_cons h
    have hn := beNat_padded (bn2bin z.natAbs)
    rw [h, beNat_bn2bin] at hn
    rw [h, List.length_cons] at hlength
    rw [← hlength, Nat.add_sub_cancel, ← hn]
    by_cases hz : z < 0
    · rw [decide_eq_true hz, if_pos hz, signed, if_pos rfl, beNat_cons, beNat_cons, toNat_signed, Nat.mod_eq_of_lt hb]
      ring
    · rw [decide_eq_false hz, if_neg hz]
      rfl

/-- What `getvch` writes, the other way around. -/
theorem reverse_bytes (z : Int) : (bytes z).reverse = Pinkcoin.getvch z := by
  have h := leBytes_leNat (bytes z).reverse
  rw [List.length_reverse, length_bytes] at h
  rw [← h, Pinkcoin.getvch]
  exact congrArg (leBytes (vchSize z.natAbs)) (beNat_bytes z)

end Mpi

end Pinkcoin
