/-
The compact form of a number, as `SetCompact` and `GetCompact` take it from
the bytes OpenSSL reads and writes, and what is lost between the two.
-/
import Mathlib.Tactic.IntervalCases
import Pinkcoin.BigNumBytes
import Pinkcoin.Retarget.Compact

namespace Pinkcoin

open CScript (leBytes leNat vchSize length_leBytes)
open Mpi (lengthBytes)

namespace BigNumBytes

/-! ## The bytes -/

/-- The byte of `nCompact` from some bit on. -/
def byteAt (nCompact : BitVec 32) (shift : Nat) : UInt8 := ⟨((nCompact >>> shift) &&& 0xff#32).setWidth 8⟩

/-- `SetCompact`. -/
def setCompact (ssl : BN) (pbn : CBigNum) (nCompact : BitVec 32) : CBigNum :=
  let nSize := (nCompact >>> 24).toNat
  let vch : List UInt8 := List.replicate (4 + nSize) 0
  let vch := vch.set 3 (UInt8.ofNat nSize)
  let vch := if nSize ≥ 1 then vch.set 4 (byteAt nCompact 16) else vch
  let vch := if nSize ≥ 2 then vch.set 5 (byteAt nCompact 8) else vch
  let vch := if nSize ≥ 3 then vch.set 6 (byteAt nCompact 0) else vch
  (ssl.mpi2bn vch vch.length).getD pbn

/-- `GetCompact`. The size is an `unsigned int` as well, of which the shift
keeps one byte. -/
def getCompact (ssl : BN) (bn : CBigNum) : BitVec 32 :=
  let vch := ssl.bn2mpi bn
  let nSize := BitVec.ofNat 32 vch.length - 4
  let nCompact := nSize <<< 24
  let nCompact := if nSize ≥ 1 then nCompact ||| ((vch.getD 4 0).toBitVec.setWidth 32 <<< 16) else nCompact
  let nCompact := if nSize ≥ 2 then nCompact ||| ((vch.getD 5 0).toBitVec.setWidth 32 <<< 8) else nCompact
  if nSize ≥ 3 then nCompact ||| ((vch.getD 6 0).toBitVec.setWidth 32 <<< 0) else nCompact

variable {ssl : BN}

theorem toNat_byteAt (nCompact : BitVec 32) (shift : Nat) :
    (byteAt nCompact shift).toNat = nCompact.toNat / 2 ^ shift % 256 := by
  rw [byteAt, toNat_byte _ (by decide), BitVec.toNat_ushiftRight, Nat.shiftRight_eq_div_pow]

theorem lengthBytes_of_lt {n : Nat} (hn : n < 256) : lengthBytes n = [0, 0, 0, UInt8.ofNat n] := by
  show [UInt8.ofNat (n / 256 / 256 / 256 % 256), UInt8.ofNat (n / 256 / 256 % 256), UInt8.ofNat (n / 256 % 256),
    UInt8.ofNat (n % 256)] = _
  rw [show n / 256 = 0 by omega, Nat.mod_eq_of_lt hn]
  rfl

/-- The bytes after the size: three at most, and then zeros. -/
def payload (nCompact : BitVec 32) : Nat → List UInt8
  | 0 => []
  | 1 => [byteAt nCompact 16]
  | 2 => [byteAt nCompact 16, byteAt nCompact 8]
  | k + 3 => byteAt nCompact 16 :: byteAt nCompact 8 :: byteAt nCompact 0 :: List.replicate k 0

theorem length_payload (nCompact : BitVec 32) (n : Nat) : (payload nCompact n).length = n := by
  match n with
  | 0 | 1 | 2 => rfl
  | k + 3 => simp [payload]

/-- What `SetCompact` reads. -/
theorem setCompact_eq_value (h : ssl.Documented) (pbn : CBigNum) (nCompact : BitVec 32) :
    setCompact ssl pbn nCompact = Mpi.value (payload nCompact (nCompact >>> 24).toNat) := by
  have hlt : nCompact.toNat < 2 ^ 32 := nCompact.isLt
  have hsize : (nCompact >>> 24).toNat < 256 := by
    rw [BitVec.toNat_ushiftRight, Nat.shiftRight_eq_div_pow]
    omega
  have hroom := h.room
  rw [setCompact]
  generalize (nCompact >>> 24).toNat = n at hsize ⊢
  have hreads := h.reads (payload nCompact n) (by rw [length_payload]; omega)
  rw [length_payload, lengthBytes_of_lt hsize] at hreads
  have hbuffer : ∀ vch : List UInt8, vch = [0, 0, 0, UInt8.ofNat n] ++ payload nCompact n →
      (ssl.mpi2bn vch vch.length).getD pbn = Mpi.value (payload nCompact n) := by
    intro vch hvch
    have hlength : (vch.length : Int) = n + 4 := by
      rw [hvch, List.length_append, length_payload]
      simp
      omega
    rw [hlength, hvch, hreads]
    rfl
  refine hbuffer _ ?_
  match n with
  | 0 | 1 | 2 => rfl
  | k + 3 =>
    rw [show 4 + (k + 3) = k + 7 by omega]
    simp [payload, List.replicate_succ]

/-- Three bytes and what follows them. -/
theorem beNat_three (x y z : UInt8) (d : List UInt8) :
    beNat (x :: y :: z :: d) = (x.toNat * 65536 + y.toNat * 256 + z.toNat) * 256 ^ d.length + beNat d := by
  rw [beNat_cons, beNat_cons, beNat_cons, List.length_cons, List.length_cons, List.length_cons, Nat.pow_succ,
    Nat.pow_succ]
  ring

theorem beNat_replicate_zero (k : Nat) : beNat (List.replicate k 0) = 0 := by
  rw [beNat, List.reverse_replicate, leNat_replicate_zero]

theorem beNat_singleton (x : UInt8) : beNat [x] = x.toNat := by simp [beNat, leNat]

theorem beNat_pair (x y : UInt8) : beNat [x, y] = x.toNat * 256 + y.toNat := by
  simp [beNat, leNat]
  omega

/-- **The number is that of the arithmetic.** -/
theorem setCompact_eq (h : ssl.Documented) (pbn : CBigNum) (nCompact : BitVec 32) :
    setCompact ssl pbn nCompact = CBigNum.setCompact nCompact.toNat := by
  have hlt : nCompact.toNat < 2 ^ 32 := nCompact.isLt
  have h16 := toNat_byteAt nCompact 16
  have h8 := toNat_byteAt nCompact 8
  have h0 := toNat_byteAt nCompact 0
  have hlow : (byteAt nCompact 16 &&& 0x7f).toNat = nCompact.toNat % 2 ^ 23 / 2 ^ 16 := by
    rw [Mpi.toNat_low, h16]
    omega
  have hsign : 128 ≤ (byteAt nCompact 16).toNat ↔ nCompact.toNat / 2 ^ 23 % 2 = 1 := by omega
  have hvalue : ∀ d : List UInt8, Mpi.value (byteAt nCompact 16 :: d) =
      if nCompact.toNat / 2 ^ 23 % 2 = 1 then -(beNat ((byteAt nCompact 16 &&& 0x7f) :: d) : Int)
      else beNat ((byteAt nCompact 16 &&& 0x7f) :: d) := by
    intro d
    rw [Mpi.value_cons]
    simp only [hsign]
  rw [setCompact_eq_value h, BitVec.toNat_ushiftRight, Nat.shiftRight_eq_div_pow, CBigNum.setCompact]
  generalize nCompact.toNat / 2 ^ 24 = n
  obtain hlt | ⟨k, rfl⟩ := (Nat.lt_or_ge n 3).imp_right Nat.exists_eq_add_of_le'
  · interval_cases n
    · have hzero : nCompact.toNat % 2 ^ 23 / 2 ^ (8 * (3 - 0)) = 0 := by omega
      simp only [hzero]
      rfl
    · have hmantissa : beNat [byteAt nCompact 16 &&& 0x7f] = nCompact.toNat % 2 ^ 23 / 2 ^ (8 * (3 - 1)) := by
        rw [beNat_singleton, hlow]
      rw [payload, hvalue, hmantissa]
      simp
    · have hmantissa : beNat [byteAt nCompact 16 &&& 0x7f, byteAt nCompact 8] =
          nCompact.toNat % 2 ^ 23 / 2 ^ (8 * (3 - 2)) := by
        rw [beNat_pair, hlow, h8]
        omega
      rw [payload, hvalue, hmantissa]
      simp
  · have hmantissa : (byteAt nCompact 16 &&& 0x7f).toNat * 65536 + (byteAt nCompact 8).toNat * 256 +
        (byteAt nCompact 0).toNat = nCompact.toNat % 2 ^ 23 := by
      rw [hlow, h8, h0]
      omega
    have hpow : (256 : Nat) ^ k = 2 ^ (8 * (k + 3 - 3)) := by rw [Nat.add_sub_cancel, Nat.pow_mul]
    have hmagnitude : (if k + 3 ≤ 3 then nCompact.toNat % 2 ^ 23 / 2 ^ (8 * (3 - (k + 3)))
        else nCompact.toNat % 2 ^ 23 * 2 ^ (8 * (k + 3 - 3))) = nCompact.toNat % 2 ^ 23 * 256 ^ k := by
      split
      next hle =>
        rw [show k = 0 by omega]
        simp
      next => rw [hpow]
    rw [payload, hvalue, beNat_three, List.length_replicate, beNat_replicate_zero, hmantissa, Nat.add_zero]
    simp only [hmagnitude]
    rw [if_congr (and_iff_right (by omega : 1 ≤ k + 3)) rfl rfl]

/-! ## From numbers -/

/-- A byte that is put below what there is. -/
theorem toNat_or_byte {x : BitVec 32} {k : Nat} {p : Prop} [Decidable p] {c : UInt8} (hx : 2 ^ (k + 8) ∣ x.toNat)
    (hk : k + 8 ≤ 32) (hc : ¬ p → c = 0) :
    (if p then x ||| (c.toBitVec.setWidth 32 <<< k) else x).toNat = x.toNat + c.toNat * 2 ^ k := by
  have hbyte : c.toNat < 2 ^ 8 := c.toNat_lt
  have hlt : c.toNat * 2 ^ k < 2 ^ (k + 8) := by
    rw [Nat.pow_add, Nat.mul_comm]
    exact Nat.mul_lt_mul_of_pos_left hbyte (Nat.two_pow_pos k)
  have hle : 2 ^ (k + 8) ≤ 2 ^ 32 := Nat.pow_le_pow_right (by decide) hk
  have hshift : (c.toBitVec.setWidth 32 <<< k).toNat = c.toNat * 2 ^ k := by
    rw [BitVec.toNat_shiftLeft, BitVec.toNat_setWidth, Nat.shiftLeft_eq]
    show c.toNat % 2 ^ 32 * 2 ^ k % 2 ^ 32 = _
    rw [Nat.mod_eq_of_lt (lt_trans hbyte (by decide)), Nat.mod_eq_of_lt (lt_of_lt_of_le hlt hle)]
  obtain ⟨q, hq⟩ := hx
  split
  next =>
    rw [BitVec.toNat_or, hshift, hq]
    exact (Nat.two_pow_add_eq_or_of_lt hlt q).symm
  next hp =>
    rw [hc hp]
    exact (Nat.add_zero _).symm.trans (congrArg (x.toNat + ·) (Nat.zero_mul _).symm)

/-- The bytes of `GetCompact`: the size, as far as it is one, and the first
three of the number. -/
theorem toNat_getCompact (h : ssl.Documented) {z : CBigNum} (hz : Holds ssl z) :
    (getCompact ssl z).toNat = (vchSize z.natAbs * 2 ^ 24) % 2 ^ 32 + ((Mpi.bytes z).getD 0 0).toNat * 65536 +
      ((Mpi.bytes z).getD 1 0).toNat * 256 + ((Mpi.bytes z).getD 2 0).toNat := by
  have hrange := h.range
  have hlength := Mpi.length_bytes z
  rw [getCompact, h.writes z hz, List.length_append, length_lengthBytes]
  rw [Holds] at hz
  rw [← hlength]
  generalize Mpi.bytes z = d at hz hlength ⊢
  have hget (i : Nat) : (lengthBytes d.length ++ d).getD (4 + i) 0 = d.getD i 0 := by
    rw [List.getD_append_right _ _ _ _ (by rw [length_lengthBytes]; omega), length_lengthBytes, Nat.add_sub_cancel_left]
  have hsize : (BitVec.ofNat 32 (4 + d.length) - 4).toNat = d.length := by
    rw [BitVec.toNat_sub, BitVec.toNat_ofNat]
    show (2 ^ 32 - 4 + (4 + d.length) % 2 ^ 32) % 2 ^ 32 = d.length
    omega
  have hnone (i : Nat) (hi : i < 3) (hshort : ¬ BitVec.ofNat 32 (4 + d.length) - 4 ≥ BitVec.ofNat 32 (i + 1)) :
      d.getD i 0 = 0 := by
    rw [ge_iff_le, BitVec.le_def, hsize, BitVec.toNat_ofNat] at hshort
    exact List.getD_eq_default _ _ (by omega)
  have hshift : ((BitVec.ofNat 32 (4 + d.length) - 4) <<< 24).toNat = (d.length * 2 ^ 24) % 2 ^ 32 := by
    rw [BitVec.toNat_shiftLeft, hsize, Nat.shiftLeft_eq]
  have hdvd : 2 ^ 24 ∣ (d.length * 2 ^ 24) % 2 ^ 32 := by omega
  rw [hget 0, hget 1, hget 2]
  generalize BitVec.ofNat 32 (4 + d.length) - 4 = nSize at hsize hnone hshift ⊢
  have hfirst := toNat_or_byte (x := nSize <<< 24) (k := 16) (by rwa [hshift]) (by decide) (hnone 0 (by decide))
  have hsecond := toNat_or_byte (k := 8) (by rw [hfirst, hshift]; omega) (by decide) (hnone 1 (by decide))
  have hthird := toNat_or_byte (k := 0) (by rw [hsecond, hfirst, hshift]; omega) (by decide) (hnone 2 (by decide))
  rw [hsecond, hfirst, hshift] at hthird
  refine hthird.trans ?_
  omega

/-- The first three bytes of a number. -/
theorem three_eq (d : List UInt8) :
    (d.getD 0 0).toNat * 65536 + (d.getD 1 0).toNat * 256 + (d.getD 2 0).toNat =
      if d.length ≤ 3 then beNat d * 2 ^ (8 * (3 - d.length)) else beNat d / 2 ^ (8 * (d.length - 3)) := by
  match d with
  | [] => rfl
  | [x] => simp [beNat_singleton]
  | [x, y] =>
    simp [beNat_pair]
    omega
  | x :: y :: z :: d =>
    have hrest := Mpi.beNat_bound d
    have hpow : (2 : Nat) ^ (8 * ((x :: y :: z :: d).length - 3)) = 256 ^ d.length := by
      rw [show (x :: y :: z :: d).length - 3 = d.length from rfl, Nat.pow_mul]
    rw [beNat_three]
    split
    next hle =>
      have hnil : d = [] := by
        refine List.eq_nil_of_length_eq_zero ?_
        rw [List.length_cons, List.length_cons, List.length_cons] at hle
        omega
      subst hnil
      simp [beNat, leNat]
    next =>
      have hquotient (t : Nat) : (t * 256 ^ d.length + beNat d) / 256 ^ d.length = t := by
        rw [Nat.add_comm, Nat.add_mul_div_right _ _ (Nat.pow_pos (by decide)), Nat.div_eq_of_lt hrest, Nat.zero_add]
      rw [hpow, hquotient]
      rfl

/-- The sign of a number is the highest bit of its first three bytes. -/
theorem three_signed {n s : Nat} (hs : 0 < s) :
    (if s ≤ 3 then (n + 128 * 256 ^ (s - 1)) * 2 ^ (8 * (3 - s)) else (n + 128 * 256 ^ (s - 1)) / 2 ^ (8 * (s - 3))) =
      (if s ≤ 3 then n * 2 ^ (8 * (3 - s)) else n / 2 ^ (8 * (s - 3))) + 2 ^ 23 := by
  by_cases hle : s ≤ 3
  · have hpow : 128 * 256 ^ (s - 1) * 2 ^ (8 * (3 - s)) = 2 ^ 23 := by
      obtain rfl | rfl | rfl : s = 1 ∨ s = 2 ∨ s = 3 := by omega
      all_goals rfl
    rw [if_pos hle, if_pos hle, Nat.add_mul, hpow]
  · have hpow : 128 * 256 ^ (s - 1) = 2 ^ 23 * 2 ^ (8 * (s - 3)) := by
      rw [show (256 : Nat) ^ (s - 1) = 2 ^ (8 * (s - 1)) from (Nat.pow_mul 2 8 _).symm,
        show 8 * (s - 1) = 16 + 8 * (s - 3) by omega, Nat.pow_add]
      ring
    rw [if_neg hle, if_neg hle, hpow, Nat.add_mul_div_right _ _ (Nat.two_pow_pos _)]

/-- **The compact form is that of the arithmetic.** -/
theorem getCompact_eq (h : ssl.Documented) {z : CBigNum} (hz : Holds ssl z) :
    (getCompact ssl z).toNat = CBigNum.getCompact z := by
  have hlength := Mpi.length_bytes z
  have hnat := Mpi.beNat_bytes z
  have hthree := three_eq (Mpi.bytes z)
  have hx := ((Mpi.bytes z).getD 0 0).toNat_lt
  have hy := ((Mpi.bytes z).getD 1 0).toNat_lt
  have hw := ((Mpi.bytes z).getD 2 0).toNat_lt
  have hlead : ((Mpi.bytes z).getD 0 0).toNat * 65536 + ((Mpi.bytes z).getD 1 0).toNat * 256 +
      ((Mpi.bytes z).getD 2 0).toNat = (if vchSize z.natAbs ≤ 3 then z.natAbs * 2 ^ (8 * (3 - vchSize z.natAbs))
        else z.natAbs / 2 ^ (8 * (vchSize z.natAbs - 3))) + if z < 0 then 2 ^ 23 else 0 := by
    rw [hthree, hlength, hnat]
    by_cases hneg : z < 0
    · have hne : z.natAbs ≠ 0 := Int.natAbs_ne_zero.mpr (Int.ne_of_lt hneg)
      have hpos : 0 < vchSize z.natAbs := CBigNum.mpiSize_pos hne
      rw [if_pos hneg, if_pos hneg, three_signed hpos]
    · rw [if_neg hneg, if_neg hneg, Nat.add_zero]
  rw [toNat_getCompact h hz, CBigNum.getCompact]
  show _ = (vchSize z.natAbs * 2 ^ 24 + (if vchSize z.natAbs ≤ 3 then z.natAbs * 2 ^ (8 * (3 - vchSize z.natAbs))
        else z.natAbs / 2 ^ (8 * (vchSize z.natAbs - 3))) + if z < 0 then 2 ^ 23 else 0) % 2 ^ 32
  generalize hvalue : (if vchSize z.natAbs ≤ 3 then _ else _) = lead at hlead ⊢
  generalize (if z < 0 then 2 ^ 23 else 0) = sign at hlead ⊢
  omega

/-! ## There and back -/

theorem mpiSize_le_of_lt {x m k : Nat} (hx : x < 2 ^ m) (hm : m ≤ 8 * k + 7) : CBigNum.mpiSize x ≤ k + 1 :=
  vchSize_le (lt_of_lt_of_le hx (Nat.pow_le_pow_right (by decide) hm))

theorem le_mpiSize_of_le {x m k : Nat} (hx : 2 ^ m ≤ x) (hm : 8 * k + 7 ≤ m) : k + 2 ≤ CBigNum.mpiSize x := by
  have hne : x ≠ 0 := Nat.ne_of_gt (lt_of_lt_of_le (Nat.two_pow_pos m) hx)
  have hlog := (Nat.le_log2 hne).mpr hx
  rw [CBigNum.mpiSize, if_neg hne]
  omega

/-- What is read back, of a number the library holds. -/
theorem setCompact_getCompact (h : ssl.Documented) (pbn : CBigNum) {z : CBigNum} (hz : Holds ssl z) :
    setCompact ssl pbn (getCompact ssl z) = CBigNum.setCompact (CBigNum.getCompact z) := by
  rw [setCompact_eq h, getCompact_eq h hz]

/-- **The compact form of a target**: it is never read back as more, the size
of 256 bytes as nothing; below that it is close, in order, and read back as
itself when it was read before. -/
structure Codec (ssl : BN) (pbn : CBigNum) : Prop where
  le : ∀ x : Nat, x < 2 ^ 2040 → setCompact ssl pbn (getCompact ssl (x : Int)) ≤ (x : Int)
  zero : setCompact ssl pbn (getCompact ssl 0) = 0
  close : ∀ x : Nat, 0 < x → x < 2 ^ 2039 →
    ((x : Int) - setCompact ssl pbn (getCompact ssl (x : Int))) * 2 ^ 15 < x
  mono : ∀ x y : Nat, x ≤ y → y < 2 ^ 2039 → getCompact ssl (x : Int) ≤ getCompact ssl (y : Int)
  back : ∀ z : Int, z.natAbs < 2 ^ 2039 → getCompact ssl (setCompact ssl pbn (getCompact ssl z)) = getCompact ssl z

theorem compact_codec (h : ssl.Documented) (pbn : CBigNum) : Codec ssl pbn := by
  have hholds {z : Int} (hz : z.natAbs < 2 ^ 2039) : Holds ssl z := holds_of_lt h (k := 254) hz (by decide) (by decide)
  have hsize {x : Nat} (hx : x < 2 ^ 2039) : CBigNum.mpiSize x ≤ 255 := mpiSize_le_of_lt (k := 254) hx (by decide)
  have hread {x : Nat} (hx : x < 2 ^ 2039) :
      setCompact ssl pbn (getCompact ssl (x : Int)) = (CBigNum.rounded x : Int) := by
    rw [setCompact_getCompact h pbn (hholds (by rwa [Int.natAbs_natCast])),
      CBigNum.setCompact_getCompact_of_size (by rw [Int.natAbs_natCast]; exact hsize hx),
      if_neg (by omega), Int.natAbs_natCast]
  constructor
  · intro x hx
    by_cases hlow : x < 2 ^ 2039
    · have hle := CBigNum.rounded_le x
      rw [hread hlow]
      exact_mod_cast hle
    · have hwide : CBigNum.mpiSize x = 256 := Nat.le_antisymm (mpiSize_le_of_lt (k := 255) hx (by decide))
        (le_mpiSize_of_le (k := 254) (Nat.not_lt.mp hlow) (by decide))
      have hz : Holds ssl (x : Int) :=
        holds_of_lt h (z := (x : Int)) (m := 2040) (k := 255) (by rwa [Int.natAbs_natCast]) (by decide) (by decide)
      rw [setCompact_getCompact h pbn hz, CBigNum.setCompact_getCompact_wide hwide]
      exact Int.natCast_nonneg x
  · have hpos (m : Nat) : 0 < 2 ^ m := Nat.two_pow_pos m
    exact hread (x := 0) (hpos 2039)
  · intro x hpos hx
    have hlost := CBigNum.sub_rounded_lt (Nat.ne_of_gt hpos)
    have hle := CBigNum.rounded_le x
    rw [hread hx]
    omega
  · intro x y hle hy
    have hmono := CBigNum.getCompact_mono hle (hsize hy)
    rw [← getCompact_eq h (hholds (by rw [Int.natAbs_natCast]; omega)),
      ← getCompact_eq h (hholds (by rwa [Int.natAbs_natCast]))] at hmono
    exact hmono
  · intro z hz
    have hback := CBigNum.getCompact_setCompact_getCompact (hsize hz)
    have hlt := CBigNum.rounded_le z.natAbs
    have hagain : Holds ssl (setCompact ssl pbn (getCompact ssl z)) := by
      refine hholds ?_
      rw [setCompact_getCompact h pbn (hholds hz), CBigNum.setCompact_getCompact_of_size (hsize hz)]
      refine lt_of_le_of_lt ?_ hz
      split <;> omega
    refine BitVec.eq_of_toNat_eq ?_
    rw [getCompact_eq h hagain, setCompact_getCompact h pbn (hholds hz), hback, getCompact_eq h (hholds hz)]

theorem compact_codec_plain : BN.plain.Documented ∧ Codec BN.plain 0 :=
  ⟨plain_documented, compact_codec plain_documented 0⟩

/-- At 2^2039 the byte for the size is too small: the compact form is below
that of the number before, and is read back as zero, which is not close and
has another compact form. For zero there is nothing less to be close by. -/
theorem compact_codec_wide :
    ¬ getCompact BN.plain ((2 ^ 2039 - 1 : Nat) : Int) ≤ getCompact BN.plain ((2 ^ 2039 : Nat) : Int) ∧
    ¬ (((2 ^ 2039 : Nat) : Int) - setCompact BN.plain 0 (getCompact BN.plain ((2 ^ 2039 : Nat) : Int))) * 2 ^ 15 <
      ((2 ^ 2039 : Nat) : Int) ∧
    getCompact BN.plain (setCompact BN.plain 0 (getCompact BN.plain ((2 ^ 2039 : Nat) : Int))) ≠
      getCompact BN.plain ((2 ^ 2039 : Nat) : Int) ∧
    ¬ ((0 : Int) - setCompact BN.plain 0 (getCompact BN.plain 0)) * 2 ^ 15 < 0 := by
  have hgrow {m n : Nat} (hmn : m < n) : 2 ^ m < 2 ^ n := Nat.pow_lt_pow_right (by decide) hmn
  have hheld {z : Int} (hz : z.natAbs ≤ 2 ^ 2039) : Holds BN.plain z :=
    holds_of_lt plain_documented (m := 2040) (k := 255) (lt_of_le_of_lt hz (hgrow (by decide))) (by decide) (by decide)
  have hlast : (getCompact BN.plain ((2 ^ 2039 - 1 : Nat) : Int)).toNat = 0xff7fffff := by
    rw [getCompact_eq plain_documented (hheld (le_of_eq_of_le (Int.natAbs_natCast _) (Nat.sub_le _ 1)))]
    decide +kernel
  have hwide : getCompact BN.plain ((2 ^ 2039 : Nat) : Int) = 0x8000 := by
    refine BitVec.eq_of_toNat_eq ?_
    rw [getCompact_eq plain_documented (hheld (le_of_eq (Int.natAbs_natCast _)))]
    decide +kernel
  have hzero : getCompact BN.plain 0 = 0 := by decide +kernel
  have hread : setCompact BN.plain 0 0x8000 = 0 := by decide +kernel
  have hread0 : setCompact BN.plain 0 0 = 0 := by decide +kernel
  rw [hwide, hread, hzero, hread0]
  refine ⟨?_, ?_, by decide, by decide⟩
  · rw [BitVec.le_def, hlast]
    decide
  · have hpos (m : Nat) : 0 < 2 ^ m := Nat.two_pow_pos m
    have hx := hpos 2039
    generalize 2 ^ 2039 = x at hx ⊢
    omega

end BigNumBytes

end Pinkcoin
