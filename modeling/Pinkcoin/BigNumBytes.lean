/-
The conversions of `CBigNum`, as they build the bytes that OpenSSL reads and
take apart the ones it writes. Elsewhere a `CBigNum` is an integer, with the
conversions as arithmetic; here the two are shown to be the same.
-/
import Pinkcoin.BaseUintFacts
import Pinkcoin.BigNum
import Pinkcoin.Mpi

namespace Pinkcoin

open CScript (leBytes leNat vchSize length_leBytes)
open Mpi (lengthBytes)

/-! ## OpenSSL -/

/-- The conversions of OpenSSL: `BN_mpi2bn`, of bytes and their number, which
may fail, `BN_bn2mpi`, and a size of numbers that are taken. -/
structure BN where
  mpi2bn : List UInt8 → Int → Option CBigNum
  bn2mpi : CBigNum → List UInt8
  maxBytes : Nat

/-- **What is relied on:** numbers are read and written in their format, up to
some size, which an `int` holds. -/
structure BN.Documented (ssl : BN) : Prop where
  reads : ∀ d, d.length ≤ ssl.maxBytes →
    ssl.mpi2bn (lengthBytes d.length ++ d) (d.length + 4) = some (Mpi.value d)
  writes : ∀ z, (Mpi.bytes z).length ≤ ssl.maxBytes →
    ssl.bn2mpi z = lengthBytes (Mpi.bytes z).length ++ Mpi.bytes z
  room : 256 ≤ ssl.maxBytes
  range : ssl.maxBytes + 4 < 2 ^ 31

/-- A library that takes what has the size it says. -/
def BN.plain : BN where
  mpi2bn d n := if n < 4 ∨ beNat (d.take 4) + 4 ≠ n then none else some (Mpi.value (d.drop 4))
  bn2mpi z := lengthBytes (Mpi.bytes z).length ++ Mpi.bytes z
  maxBytes := 2 ^ 26

namespace BigNumBytes

/-! ## To numbers -/

/-- `nSize`, one byte after the other. -/
def nSizeBytes (nSize : BitVec 32) : List UInt8 :=
  [⟨((nSize >>> 24) &&& 0xff#32).setWidth 8⟩, ⟨((nSize >>> 16) &&& 0xff#32).setWidth 8⟩,
    ⟨((nSize >>> 8) &&& 0xff#32).setWidth 8⟩, ⟨(nSize &&& 0xff#32).setWidth 8⟩]

/-- `fLeadingZeroes`, and what has been written from `pch + 4` on. -/
structure Pch where
  fLeadingZeroes : Bool
  out : List UInt8

def Pch.start : Pch := ⟨true, []⟩

/-- One turn of the loop: zeros in front are left out, and the first byte that
is not zero makes room for the sign, or holds it. -/
def Pch.turn (fNegative : Bool) (p : Pch) (c : UInt8) : Pch :=
  if p.fLeadingZeroes then
    if c = 0 then p
    else if c &&& 0x80 ≠ 0 then ⟨false, p.out ++ [if fNegative then 0x80 else 0] ++ [c]⟩
    else if fNegative then ⟨false, p.out ++ [c ||| 0x80]⟩
    else ⟨false, p.out ++ [c]⟩
  else ⟨false, p.out ++ [c]⟩

/-- The loop over a `uint64_t`, with so many turns left. -/
def loop64 (fNegative : Bool) : Nat → BitVec 64 → Pch → Pch
  | 0, _, p => p
  | i + 1, n, p => loop64 fNegative i (n <<< 8) (p.turn fNegative ⟨((n >>> 56) &&& 0xff#64).setWidth 8⟩)

/-- The end of the conversions: the size goes in front, and what `BN_mpi2bn`
returns is not looked at. -/
def finish (ssl : BN) (pbn : CBigNum) (p : Pch) : CBigNum :=
  (ssl.mpi2bn (nSizeBytes (BitVec.ofNat 32 p.out.length) ++ p.out) (p.out.length + 4)).getD pbn

def setint64 (ssl : BN) (pbn : CBigNum) (sn : BitVec 64) : CBigNum :=
  if sn.slt 0 then
    let n := -(sn + 1)
    finish ssl pbn (loop64 true 8 (n + 1) Pch.start)
  else finish ssl pbn (loop64 false 8 sn Pch.start)

def setuint64 (ssl : BN) (pbn : CBigNum) (n : BitVec 64) : CBigNum := finish ssl pbn (loop64 false 8 n Pch.start)

/-- `setuint256`, from the last byte of the array to the first. -/
def setuint256 (ssl : BN) (pbn : CBigNum) (n : BaseUint 256) : CBigNum :=
  finish ssl pbn (n.bytes.reverse.foldl (Pch.turn false) Pch.start)

/-- `setvch`. The size is an `unsigned int`, and an `int` where it is passed
on. -/
def setvch (ssl : BN) (pbn : CBigNum) (vch : List UInt8) : CBigNum :=
  let vch2 := nSizeBytes (BitVec.ofNat 32 vch.length) ++ vch.reverse
  (ssl.mpi2bn vch2 (BitVec.ofNat 32 vch2.length).toInt).getD pbn

/-! ## From numbers -/

/-- The loop of `getuint64` and `getuint256`: the last bytes of the number,
into `sizeof(n)` bytes that are zero. -/
def lastBytes (sizeofN : Nat) (vch : List UInt8) : List UInt8 :=
  ((vch.drop 4).reverse ++ List.replicate sizeofN 0).take sizeofN

/-- What the two share: the sign is cleared before the loop. -/
def magnitudeBytes (ssl : BN) (sizeofN : Nat) (bn : CBigNum) : List UInt8 :=
  let vch := ssl.bn2mpi bn
  if vch.length < 4 then List.replicate sizeofN 0
  else lastBytes sizeofN (if vch.length > 4 then vch.modify 4 (· &&& 0x7f) else vch)

def getuint64 (ssl : BN) (bn : CBigNum) : BitVec 64 := BitVec.ofNat 64 (leNat (magnitudeBytes ssl 8 bn))

def getuint256 (ssl : BN) (bn : CBigNum) : BaseUint 256 :=
  ⟨BaseUint.ofBytes (WIDTH 256) (magnitudeBytes ssl 32 bn), BaseUint.length_ofBytes _ _⟩

def getvch (ssl : BN) (bn : CBigNum) : List UInt8 :=
  let vch := ssl.bn2mpi bn
  if vch.length ≤ 4 then [] else (vch.drop 4).reverse

variable {ssl : BN}

/-! ## The bytes that are read -/

theorem toNat_byte {w : Nat} (x : BitVec w) (hw : 8 ≤ w) :
    (⟨(x &&& BitVec.ofNat w 0xff).setWidth 8⟩ : UInt8).toNat = x.toNat % 256 := by
  have hmask : (BitVec.ofNat w 0xff).toNat = 2 ^ 8 - 1 :=
    Nat.mod_eq_of_lt (lt_of_lt_of_le (by decide : 0xff < 2 ^ 8) (Nat.pow_le_pow_right (by decide) hw))
  show ((x &&& BitVec.ofNat w 0xff).setWidth 8).toNat = _
  rw [BitVec.toNat_setWidth, BitVec.toNat_and, hmask, Nat.and_two_pow_sub_one_eq_mod, Nat.mod_mod]

theorem nSizeBytes_ofNat (n : Nat) : nSizeBytes (BitVec.ofNat 32 n) = lengthBytes n := by
  have hbyte (x : BitVec 32) (m : Nat) (h : x.toNat % 256 = m % 256) :
      (⟨(x &&& 0xff#32).setWidth 8⟩ : UInt8) = UInt8.ofNat (m % 256) := by
    refine UInt8.toNat.inj ?_
    rw [toNat_byte x (by decide), h, UInt8.toNat_ofNat']
    exact (Nat.mod_mod _ _).symm
  have hshift (k : Nat) : (BitVec.ofNat 32 n >>> k).toNat = n % 2 ^ 32 / 2 ^ k := by
    rw [BitVec.toNat_ushiftRight, BitVec.toNat_ofNat, Nat.shiftRight_eq_div_pow]
  show _ = [UInt8.ofNat (n / 256 / 256 / 256 % 256), UInt8.ofNat (n / 256 / 256 % 256), UInt8.ofNat (n / 256 % 256),
    UInt8.ofNat (n % 256)]
  rw [nSizeBytes, hbyte _ (n / 256 / 256 / 256) (by rw [hshift]; omega),
    hbyte _ (n / 256 / 256) (by rw [hshift]; omega), hbyte _ (n / 256) (by rw [hshift]; omega),
    hbyte _ n (by rw [BitVec.toNat_ofNat]; omega)]

/-- What `finish` reads is what has been written. -/
theorem finish_eq (h : ssl.Documented) (pbn : CBigNum) {p : Pch} (hp : p.out.length ≤ ssl.maxBytes) :
    finish ssl pbn p = Mpi.value p.out := by
  rw [finish, nSizeBytes_ofNat, h.reads _ hp]
  rfl

/-! ## The loop over the bytes -/

theorem foldl_turn_false (fNegative : Bool) (out cs : List UInt8) :
    cs.foldl (Pch.turn fNegative) ⟨false, out⟩ = ⟨false, out ++ cs⟩ := by
  induction cs generalizing out with
  | nil => rw [List.append_nil]; rfl
  | cons c cs ih =>
    rw [List.foldl_cons]
    show cs.foldl (Pch.turn fNegative) ⟨false, out ++ [c]⟩ = _
    rw [ih, List.append_assoc]
    rfl

/-- The first byte that is not zero is written as the format has it. -/
theorem turn_start (fNegative : Bool) {c : UInt8} (hc : c ≠ 0) :
    Pch.turn fNegative Pch.start c = ⟨false, Mpi.signed fNegative (Mpi.padded [c])⟩ := by
  rw [Pch.turn, if_pos (show Pch.start.fLeadingZeroes = true from rfl), if_neg hc, Mpi.padded]
  by_cases htop : c &&& 0x80 ≠ 0
  · rw [if_pos htop, if_pos htop]
    cases fNegative <;> rfl
  · rw [if_neg htop, if_neg htop]
    cases fNegative <;> rfl

theorem signed_padded_append (fNegative : Bool) (c : UInt8) (cs : List UInt8) :
    Mpi.signed fNegative (Mpi.padded [c]) ++ cs = Mpi.signed fNegative (Mpi.padded (c :: cs)) := by
  rw [Mpi.padded, Mpi.padded]
  split <;> rfl

theorem turn_zero (fNegative : Bool) : Pch.turn fNegative Pch.start 0 = Pch.start := rfl

theorem beNat_zero_cons (cs : List UInt8) : beNat (0 :: cs) = beNat cs := by
  rw [beNat_cons]
  exact Nat.add_zero _

/-- **The loop writes the number** that its bytes are. -/
theorem value_foldl_turn (fNegative : Bool) (cs : List UInt8) :
    Mpi.value (cs.foldl (Pch.turn fNegative) Pch.start).out = if fNegative then -(beNat cs : Int) else beNat cs := by
  induction cs with
  | nil => cases fNegative <;> rfl
  | cons c cs ih =>
    rw [List.foldl_cons]
    by_cases hzero : c = 0
    · rw [hzero, turn_zero, ih, beNat_zero_cons]
    · rw [turn_start fNegative hzero, foldl_turn_false, signed_padded_append, Mpi.value_signed_padded]

/-- One byte more than there are, for the sign. -/
theorem length_foldl_turn (fNegative : Bool) (cs : List UInt8) :
    (cs.foldl (Pch.turn fNegative) Pch.start).out.length ≤ cs.length + 1 := by
  induction cs with
  | nil => exact Nat.zero_le _
  | cons c cs ih =>
    rw [List.foldl_cons, List.length_cons]
    by_cases hzero : c = 0
    · rw [hzero, turn_zero]
      omega
    · rw [turn_start fNegative hzero, foldl_turn_false, signed_padded_append, Mpi.length_signed, Mpi.padded]
      split <;> simp

/-- What `loop64` takes off the top. -/
def topBytes : Nat → BitVec 64 → List UInt8
  | 0, _ => []
  | i + 1, n => ⟨((n >>> 56) &&& 0xff#64).setWidth 8⟩ :: topBytes i (n <<< 8)

theorem length_topBytes (i : Nat) (n : BitVec 64) : (topBytes i n).length = i := by
  induction i generalizing n with
  | zero => rfl
  | succ i ih => exact congrArg (· + 1) (ih _)

theorem loop64_eq (fNegative : Bool) (i : Nat) (n : BitVec 64) (p : Pch) :
    loop64 fNegative i n p = (topBytes i n).foldl (Pch.turn fNegative) p := by
  induction i generalizing n p with
  | zero => rfl
  | succ i ih => rw [loop64, topBytes, List.foldl_cons, ih]

theorem beNat_topBytes {i : Nat} (hi : i ≤ 8) (n : BitVec 64) : beNat (topBytes i n) = n.toNat / 2 ^ (64 - 8 * i) := by
  induction i generalizing n with
  | zero => exact (Nat.div_eq_of_lt n.isLt).symm
  | succ i ih =>
    have hlt : n.toNat < 2 ^ 64 := n.isLt
    have hbyte : (⟨((n >>> 56) &&& 0xff#64).setWidth 8⟩ : UInt8).toNat = n.toNat / 2 ^ 56 := by
      rw [toNat_byte _ (by decide), BitVec.toNat_ushiftRight, Nat.shiftRight_eq_div_pow]
      omega
    have hpow : (2 : Nat) ^ (64 - 8 * i) = 256 * 2 ^ (64 - 8 * (i + 1)) := by
      rw [show 64 - 8 * i = 8 + (64 - 8 * (i + 1)) by omega, Nat.pow_add]
    have hsplit : (2 : Nat) ^ 56 = 256 ^ i * 2 ^ (64 - 8 * (i + 1)) := by
      rw [show (256 : Nat) ^ i = 2 ^ (8 * i) from (Nat.pow_mul 2 8 i).symm, ← Nat.pow_add]
      congr 1
      omega
    have hshift : n.toNat <<< 8 % 2 ^ 64 = 256 * (n.toNat % 2 ^ 56) := by
      rw [Nat.shiftLeft_eq]
      omega
    have hpos : 0 < 2 ^ (64 - 8 * (i + 1)) := Nat.two_pow_pos _
    rw [topBytes, beNat_cons, length_topBytes, ih (by omega), hbyte, BitVec.toNat_shiftLeft, hpow, hshift,
      Nat.mul_div_mul_left _ _ (by decide)]
    have hdiv : n.toNat = n.toNat % 2 ^ 56 + 2 ^ (64 - 8 * (i + 1)) * (256 ^ i * (n.toNat / 2 ^ 56)) := by
      rw [← Nat.mul_assoc, Nat.mul_comm (2 ^ (64 - 8 * (i + 1))), ← hsplit, Nat.mod_add_div]
    conv_rhs => rw [hdiv, Nat.add_mul_div_left _ _ hpos]

theorem beNat_topBytes_eight (n : BitVec 64) : beNat (topBytes 8 n) = n.toNat := by
  rw [beNat_topBytes (Nat.le_refl 8)]
  exact Nat.div_one _

theorem finish_loop64 (h : ssl.Documented) (pbn : CBigNum) (fNegative : Bool) (n : BitVec 64) :
    finish ssl pbn (loop64 fNegative 8 n Pch.start) = if fNegative then -(n.toNat : Int) else n.toNat := by
  have hlength := length_foldl_turn fNegative (topBytes 8 n)
  rw [length_topBytes] at hlength
  have hroom := h.room
  rw [loop64_eq, finish_eq h pbn (by omega), value_foldl_turn, beNat_topBytes_eight]

/-! ## To numbers -/

/-- **Every `int64_t` is written**, the least one too. -/
theorem setint64_eq (h : ssl.Documented) (pbn : CBigNum) (sn : BitVec 64) : setint64 ssl pbn sn = sn.toInt := by
  rw [setint64]
  by_cases hneg : sn.slt 0
  · have hlt : sn.toInt < 0 := by simpa [BitVec.slt] using hneg
    rw [if_pos hneg, finish_loop64 h, if_pos rfl]
    have hminus : -(sn + 1) + 1 = -sn := by rw [BitVec.neg_add, BitVec.sub_add_cancel]
    rw [hminus, BitVec.toNat_neg]
    show (_ : Int) = _
    rw [BitVec.toInt_eq_toNat_cond] at hlt ⊢
    split at hlt <;> split <;> omega
  · have hge : 0 ≤ sn.toInt := by simpa [BitVec.slt] using hneg
    rw [if_neg hneg, finish_loop64 h, if_neg Bool.false_ne_true]
    show (_ : Int) = _
    rw [BitVec.toInt_eq_toNat_cond] at hge ⊢
    split at hge <;> split <;> omega

theorem setuint64_eq (h : ssl.Documented) (pbn : CBigNum) (n : BitVec 64) : setuint64 ssl pbn n = n.toNat := by
  rw [setuint64, finish_loop64 h, if_neg Bool.false_ne_true]

/-- The bytes of an array are its number. -/
theorem leNat_bytes {BITS : Nat} (a : BaseUint BITS) : leNat a.bytes = a.value := by
  rw [BaseUint.bytes, BaseUint.value]
  generalize a.pn = pn
  induction pn with
  | nil => rfl
  | cons x pn ih =>
    have hx : x.toNat < 256 ^ 4 := x.isLt
    rw [List.flatMap_cons, Mpi.leNat_append, leNat_leBytes, length_leBytes, Nat.mod_eq_of_lt hx, ih]
    rfl

theorem setuint256_eq (h : ssl.Documented) (pbn : CBigNum) (n : BaseUint 256) :
    setuint256 ssl pbn n = n.value := by
  have hlength := length_foldl_turn false n.bytes.reverse
  rw [List.length_reverse, BaseUint.length_bytes] at hlength
  have hroom := h.room
  rw [setuint256, finish_eq h pbn (le_trans hlength (le_trans (by decide) hroom)), value_foldl_turn,
    if_neg Bool.false_ne_true, beNat, List.reverse_reverse, leNat_bytes]

theorem length_lengthBytes (n : Nat) : (lengthBytes n).length = 4 := by
  rw [lengthBytes, List.length_reverse, length_leBytes]

theorem setvch_eq (h : ssl.Documented) (pbn : CBigNum) {vch : List UInt8} (hlength : vch.length ≤ ssl.maxBytes) :
    setvch ssl pbn vch = Pinkcoin.setvch vch := by
  have hrange := h.range
  have hreads := h.reads vch.reverse (by rwa [List.length_reverse])
  have hint : (BitVec.ofNat 32 (vch.length + 4)).toInt = (vch.length : Int) + 4 := by
    rw [BitVec.toInt_eq_toNat_cond, BitVec.toNat_ofNat]
    split <;> omega
  rw [List.length_reverse] at hreads
  rw [setvch, nSizeBytes_ofNat, List.length_append, length_lengthBytes, List.length_reverse, Nat.add_comm 4, hint,
    hreads, Mpi.value_reverse]
  rfl

/-! ## From numbers -/

/-- The number is not too long for the library. -/
def Holds (ssl : BN) (z : CBigNum) : Prop := (Mpi.bytes z).length ≤ ssl.maxBytes

theorem getvch_eq (h : ssl.Documented) {z : CBigNum} (hz : Holds ssl z) : getvch ssl z = Pinkcoin.getvch z := by
  rw [getvch, h.writes z hz, List.length_append, length_lengthBytes, List.drop_left' (length_lengthBytes _),
    Mpi.reverse_bytes]
  by_cases hempty : (Mpi.bytes z).length = 0
  · rw [if_pos (by omega), ← Mpi.reverse_bytes, List.eq_nil_of_length_eq_zero hempty]
    rfl
  · rw [if_neg (by omega)]

theorem leNat_replicate_zero (k : Nat) : leNat (List.replicate k 0) = 0 := by
  induction k with
  | zero => rfl
  | succ k ih =>
    show 0 + 256 * leNat (List.replicate k 0) = 0
    rw [ih]

theorem leNat_take {k : Nat} {l : List UInt8} (hk : k ≤ l.length) : leNat (l.take k) = leNat l % 256 ^ k := by
  have hlt := leNat_lt (l.take k)
  rw [List.length_take, Nat.min_eq_left hk] at hlt
  have hsplit : leNat l = leNat (l.take k) + 256 ^ k * leNat (l.drop k) := by
    conv_lhs => rw [← List.take_append_drop k l, Mpi.leNat_append, List.length_take, Nat.min_eq_left hk]
  rw [hsplit, Nat.add_mul_mod_self_left, Nat.mod_eq_of_lt hlt]

theorem leNat_lastBytes (k n : Nat) (d : List UInt8) :
    leNat (lastBytes k (lengthBytes n ++ d)) = beNat d % 256 ^ k := by
  rw [lastBytes, List.drop_left' (length_lengthBytes _), leNat_take (by simp), Mpi.leNat_append, leNat_replicate_zero]
  rfl

/-- **The last bytes of the magnitude.** -/
theorem leNat_magnitudeBytes (h : ssl.Documented) {z : CBigNum} (hz : Holds ssl z) (k : Nat) :
    leNat (magnitudeBytes ssl k z) = z.natAbs % 256 ^ k := by
  have hvalue := Mpi.value_bytes z
  rw [magnitudeBytes, h.writes z hz]
  cases hbytes : Mpi.bytes z with
  | nil =>
    rw [hbytes] at hvalue
    rw [← hvalue, if_neg (by rw [List.length_append, length_lengthBytes]; omega),
      if_neg (by rw [List.length_append, length_lengthBytes]; decide), leNat_lastBytes]
    rfl
  | cons b d =>
    have hclear (f : UInt8 → UInt8) (n : Nat) : (lengthBytes n ++ b :: d).modify 4 f = lengthBytes n ++ f b :: d := by
      rw [List.modify_eq_take_drop, List.take_left' (length_lengthBytes n), List.drop_left' (length_lengthBytes n)]
      rfl
    rw [hbytes] at hvalue
    rw [if_neg (by rw [List.length_append, length_lengthBytes]; omega),
      if_pos (by rw [List.length_append, length_lengthBytes, List.length_cons]; omega), hclear, leNat_lastBytes,
      ← Mpi.natAbs_value_cons, hvalue]

theorem length_magnitudeBytes (ssl : BN) (k : Nat) (z : CBigNum) : (magnitudeBytes ssl k z).length = k := by
  rw [magnitudeBytes]
  split
  · exact List.length_replicate
  · rw [lastBytes, List.length_take, List.length_append, List.length_replicate]
    omega

theorem value_ofBytes {n : Nat} {bytes : List UInt8} (hlength : bytes.length = n * 4) :
    Words.value (BaseUint.ofBytes n bytes) = leNat bytes := by
  induction n generalizing bytes with
  | zero =>
    rw [Nat.zero_mul] at hlength
    rw [List.eq_nil_of_length_eq_zero hlength]
    rfl
  | succ n ih =>
    have htake : (bytes.take 4).length = 4 := by
      rw [List.length_take]
      omega
    have hword : 256 ^ 4 = 2 ^ 32 := by decide
    have hlt := leNat_lt (bytes.take 4)
    rw [htake, hword] at hlt
    have hsplit : leNat bytes = leNat (bytes.take 4) + 2 ^ 32 * leNat (bytes.drop 4) := by
      conv_lhs => rw [← List.take_append_drop 4 bytes, Mpi.leNat_append, htake, hword]
    rw [BaseUint.ofBytes, Words.value_cons, ih (by rw [List.length_drop]; omega), hsplit, BitVec.toNat_ofNat,
      Nat.mod_eq_of_lt hlt]

theorem getuint256_eq (h : ssl.Documented) {z : CBigNum} (hz : Holds ssl z) :
    (getuint256 ssl z).value = CBigNum.getuint256 z := by
  show Words.value (BaseUint.ofBytes _ (magnitudeBytes ssl 32 z)) = _
  rw [value_ofBytes (length_magnitudeBytes ssl 32 z), leNat_magnitudeBytes h hz]
  rfl

theorem getuint64_eq (h : ssl.Documented) {z : CBigNum} (hz : Holds ssl z) :
    (getuint64 ssl z).toNat = CBigNum.getuint64 z := by
  rw [getuint64, leNat_magnitudeBytes h hz, BitVec.toNat_ofNat]
  exact Nat.mod_mod _ _

/-- Of 256 bytes at most. -/
theorem holds_of_lt (h : ssl.Documented) {z : CBigNum} {m k : Nat} (hz : z.natAbs < 2 ^ m) (hm : m ≤ 8 * k + 7)
    (hk : k < 256) : Holds ssl z := by
  have hsize := vchSize_le (k := k) (lt_of_lt_of_le hz (Nat.pow_le_pow_right (by decide) hm))
  have hroom := h.room
  rw [Holds, Mpi.length_bytes]
  omega

/-! ## Every conversion -/

/-- **The conversions are exact**, whatever the number was before: the bytes
of a vector are read up to the size the library takes, and written for the
numbers it holds, as few as there are. -/
structure Exact (ssl : BN) : Prop where
  setint64 : ∀ pbn (sn : BitVec 64), setint64 ssl pbn sn = sn.toInt
  setuint64 : ∀ pbn (n : BitVec 64), setuint64 ssl pbn n = n.toNat
  setuint256 : ∀ pbn (n : BaseUint 256), setuint256 ssl pbn n = n.value
  getuint64 : ∀ pbn n, getuint64 ssl (BigNumBytes.setuint64 ssl pbn n) = n
  getuint256 : ∀ pbn n, getuint256 ssl (BigNumBytes.setuint256 ssl pbn n) = n
  setvch : ∀ pbn (vch : List UInt8), vch.length ≤ ssl.maxBytes → setvch ssl pbn vch = Mpi.value vch.reverse
  setvch_getvch : ∀ pbn n, Holds ssl n → BigNumBytes.setvch ssl pbn (getvch ssl n) = n
  getvch : ∀ n, Holds ssl n → getvch ssl n = (Mpi.bytes n).reverse
  getvch_minimal : ∀ vch : List UInt8, vch.length ≤ ssl.maxBytes →
    (BigNumBytes.getvch ssl (Mpi.value vch.reverse)).length ≤ vch.length
  getvch_unique : ∀ vch : List UInt8, vch.length ≤ ssl.maxBytes →
    vch.length = (BigNumBytes.getvch ssl (Mpi.value vch.reverse)).length →
    vch = BigNumBytes.getvch ssl (Mpi.value vch.reverse)

/-- The bytes of a number that a vector is read as are no more than it has. -/
theorem holds_value {vch : List UInt8} (hlength : vch.length ≤ ssl.maxBytes) : Holds ssl (Mpi.value vch.reverse) := by
  have hle := Mpi.length_bytes_le vch.reverse
  rw [List.length_reverse] at hle
  exact le_trans hle hlength

theorem conversions_exact (h : ssl.Documented) : Exact ssl where
  setint64 := setint64_eq h
  setuint64 := setuint64_eq h
  setuint256 := setuint256_eq h
  getuint64 pbn n := by
    have hlt : n.toNat < 2 ^ 64 := n.isLt
    have hholds : Holds ssl (n.toNat : Int) := holds_of_lt h hlt (k := 8) (by decide) (by decide)
    refine BitVec.eq_of_toNat_eq ?_
    rw [setuint64_eq h, getuint64_eq h hholds]
    exact Nat.mod_eq_of_lt hlt
  getuint256 pbn n := by
    have hlt : n.value < 2 ^ 256 := n.value_lt
    have hholds : Holds ssl (n.value : Int) := holds_of_lt h hlt (k := 32) (by decide) (by decide)
    refine BaseUint.eq_of_value ?_
    rw [setuint256_eq h, getuint256_eq h hholds]
    exact Nat.mod_eq_of_lt hlt
  setvch pbn vch hlength := by rw [setvch_eq h pbn hlength, Mpi.value_reverse]
  setvch_getvch pbn n hn := by
    have hlength : (Mpi.bytes n).reverse.length ≤ ssl.maxBytes := by rwa [List.length_reverse]
    rw [getvch_eq h hn, ← Mpi.reverse_bytes, setvch_eq h pbn hlength, ← Mpi.value_reverse, List.reverse_reverse,
      Mpi.value_bytes]
  getvch n hn := by rw [getvch_eq h hn, Mpi.reverse_bytes]
  getvch_minimal vch hlength := by
    have hle := Mpi.length_bytes_le vch.reverse
    rw [getvch_eq h (holds_value hlength), ← Mpi.reverse_bytes, List.length_reverse]
    rwa [List.length_reverse] at hle
  getvch_unique vch hlength hshort := by
    rw [getvch_eq h (holds_value hlength), ← Mpi.reverse_bytes] at hshort ⊢
    by_cases hzero : Mpi.value vch.reverse = 0
    · rw [hzero] at hshort ⊢
      exact List.eq_nil_of_length_eq_zero hshort
    · have hvch : vch.reverse.length = vch.length := List.length_reverse
      rw [List.length_reverse, ← hvch] at hshort
      exact List.reverse_eq_iff.mp (Mpi.bytes_inj hshort (Mpi.value_bytes _).symm hzero)

theorem plain_documented : BN.plain.Documented where
  reads d hlength := by
    have hle : d.length ≤ 2 ^ 26 := hlength
    have hsize : beNat (lengthBytes d.length) = d.length := by
      rw [lengthBytes, beNat, List.reverse_reverse, leNat_leBytes, Nat.mod_eq_of_lt (by omega)]
    have hcheck : ¬ ((d.length : Int) + 4 < 4 ∨
        (beNat ((lengthBytes d.length ++ d).take 4) : Int) + 4 ≠ d.length + 4) := by
      rw [List.take_left' (length_lengthBytes _), hsize]
      omega
    show (if _ then _ else _) = _
    rw [if_neg hcheck, List.drop_left' (length_lengthBytes _)]
  writes z hz := rfl
  room := by decide
  range := by decide

theorem conversions_exact_plain : BN.plain.Documented ∧ Exact BN.plain :=
  ⟨plain_documented, conversions_exact plain_documented⟩

/-- A vector that an `int` has no size for is not read. -/
theorem setvch_plain_of_neg (pbn : CBigNum) {vch : List UInt8} (hneg : (BitVec.ofNat 32 (4 + vch.length)).toInt < 4) :
    setvch BN.plain pbn vch = pbn := by
  rw [setvch, nSizeBytes_ofNat, List.length_append, length_lengthBytes, List.length_reverse]
  show (if _ then _ else _ : Option CBigNum).getD pbn = pbn
  rw [if_pos (.inl hneg)]
  rfl

theorem lt_value_replicate (k : Nat) : 7 < Mpi.value (List.replicate (k + 2) 1) := by
  have hpow : 1 ≤ 256 ^ k := Nat.one_le_pow _ _ (by decide)
  have hlt : 7 < beNat (List.replicate (k + 2) 1) := by
    rw [List.replicate_succ, beNat_cons, List.length_replicate, Nat.pow_succ]
    show 7 < _ + 256 ^ k * 256 * 1
    omega
  have hvalue : Mpi.value (List.replicate (k + 2) 1) = beNat (List.replicate (k + 2) 1) :=
    Mpi.value_cons_of_lt (by decide) _
  rw [hvalue]
  exact_mod_cast hlt

/-- The number stays what it was. -/
theorem setvch_too_long : setvch BN.plain 7 (List.replicate (2 ^ 31) 1) = 7 ∧
    Mpi.value (List.replicate (2 ^ 31) 1).reverse ≠ 7 := by
  constructor
  · refine setvch_plain_of_neg 7 ?_
    rw [List.length_replicate]
    decide
  · obtain ⟨k, hk⟩ : ∃ k, 2 ^ 31 = k + 2 := ⟨2147483646, rfl⟩
    rw [List.reverse_replicate, hk]
    exact (lt_value_replicate k).ne'

end BigNumBytes

end Pinkcoin
