/-
The compact form of a target keeps its three leading bytes: what is read back
is the target rounded down to the unit of its size.
-/
import Mathlib.Algebra.Order.Group.Nat
import Mathlib.Tactic.Ring
import Pinkcoin.BigNum

namespace Pinkcoin

namespace CBigNum

variable {x y : Nat} {z : Int}

/-! ## Sizes -/

theorem mpiSize_pos (hx : x ≠ 0) : 0 < mpiSize x := by simp [mpiSize, hx]

/-- A magnitude of `mpiSize` bytes leaves the sign bit free, -/
theorem lt_two_pow_mpiSize (hx : x ≠ 0) : x < 2 ^ (8 * mpiSize x - 1) := by
  refine (Nat.log2_lt hx).mp ?_
  simp only [mpiSize, if_neg hx]
  omega

/-- and does not fit a byte less. -/
theorem two_pow_mpiSize_le (hx : x ≠ 0) : 2 ^ (8 * (mpiSize x - 1) - 1) ≤ x := by
  refine (Nat.le_log2 hx).mp ?_
  simp only [mpiSize, if_neg hx]
  omega

theorem mpiSize_le {k : Nat} (hx : x < 2 ^ (8 * k)) : mpiSize x ≤ k + 1 := by
  by_cases hzero : x = 0
  · simp [mpiSize, hzero]
  · have hlog := (Nat.log2_lt hzero).mpr hx
    simp only [mpiSize, if_neg hzero]
    omega

/-! ## Rounding -/

/-- What the compact form counts in. -/
def unit (x : Nat) : Nat := 2 ^ (8 * (mpiSize x - 3))

theorem unit_eq_one (hsize : mpiSize x ≤ 3) : unit x = 1 := by simp [unit, Nat.sub_eq_zero_of_le hsize]

theorem unit_pos (x : Nat) : 0 < unit x := Nat.two_pow_pos _

/-- The target that is read back. -/
def rounded (x : Nat) : Nat := x / unit x * unit x

theorem rounded_le (x : Nat) : rounded x ≤ x := Nat.div_mul_le_self _ _

theorem unit_le (hx : x ≠ 0) : unit x ≤ x := by
  refine le_trans (Nat.pow_le_pow_right (by omega) ?_) (two_pow_mpiSize_le hx)
  omega

theorem rounded_pos (hx : x ≠ 0) : 0 < rounded x := Nat.mul_pos (Nat.div_pos (unit_le hx) (unit_pos x)) (unit_pos x)

/-- The three bytes of the compact form. -/
def leading (x : Nat) : Nat :=
  if mpiSize x ≤ 3 then x * 2 ^ (8 * (3 - mpiSize x)) else x / 2 ^ (8 * (mpiSize x - 3))

theorem leading_lt (x : Nat) : leading x < 2 ^ 23 := by
  by_cases hx : x = 0
  · rw [hx]
    decide
  have hlt := lt_two_pow_mpiSize hx
  have hpos := mpiSize_pos hx
  rw [leading]
  split
  next hle =>
    have hpow : 2 ^ (8 * mpiSize x - 1) * 2 ^ (8 * (3 - mpiSize x)) = 2 ^ 23 := by
      rw [← Nat.pow_add]
      congr 1
      omega
    rw [← hpow]
    exact Nat.mul_lt_mul_of_pos_right hlt (Nat.two_pow_pos _)
  next hgt =>
    refine Nat.div_lt_of_lt_mul ?_
    rw [← Nat.pow_add]
    refine lt_of_lt_of_le hlt (Nat.pow_le_pow_right (by omega) ?_)
    omega

/-- The magnitude that a size and three bytes are read as. -/
def magnitude (nSize lead : Nat) : Nat :=
  if nSize ≤ 3 then lead / 2 ^ (8 * (3 - nSize)) else lead * 2 ^ (8 * (nSize - 3))

theorem magnitude_leading (x : Nat) : magnitude (mpiSize x) (leading x) = rounded x := by
  by_cases hle : mpiSize x ≤ 3
  · rw [magnitude, leading, if_pos hle, if_pos hle, Nat.mul_div_cancel _ (Nat.two_pow_pos _), rounded, unit_eq_one hle,
      Nat.div_one, Nat.mul_one]
  · rw [magnitude, leading, if_neg hle, if_neg hle]
    rfl

/-- The size, three bytes, and the sign above them. -/
theorem getCompact_eq_add (hsize : mpiSize z.natAbs ≤ 255) :
    getCompact z = mpiSize z.natAbs * 2 ^ 24 + leading z.natAbs + if z < 0 then 2 ^ 23 else 0 := by
  have hlead := leading_lt z.natAbs
  rw [getCompact]
  show (mpiSize z.natAbs * 2 ^ 24 + leading z.natAbs + if z < 0 then 2 ^ 23 else 0) % 2 ^ 32 = _
  refine Nat.mod_eq_of_lt ?_
  split <;> omega

theorem setCompact_add {nSize lead : Nat} (hlead : lead < 2 ^ 23) {negative : Prop} [Decidable negative]
    (hsign : negative → 1 ≤ nSize) : setCompact (nSize * 2 ^ 24 + lead + if negative then 2 ^ 23 else 0) =
      if negative then -(magnitude nSize lead : Int) else magnitude nSize lead := by
  by_cases hneg : negative
  · have hnSize : (nSize * 2 ^ 24 + lead + 2 ^ 23) / 2 ^ 24 = nSize := by omega
    have hmantissa : (nSize * 2 ^ 24 + lead + 2 ^ 23) % 2 ^ 23 = lead := by omega
    have hbit : 1 ≤ nSize ∧ (nSize * 2 ^ 24 + lead + 2 ^ 23) / 2 ^ 23 % 2 = 1 := ⟨hsign hneg, by omega⟩
    rw [if_pos hneg, if_pos hneg, setCompact]
    simp only [hnSize, hmantissa, if_pos hbit]
    rfl
  · have hnSize : (nSize * 2 ^ 24 + lead + 0) / 2 ^ 24 = nSize := by omega
    have hmantissa : (nSize * 2 ^ 24 + lead + 0) % 2 ^ 23 = lead := by omega
    have hbit : ¬ (1 ≤ nSize ∧ (nSize * 2 ^ 24 + lead + 0) / 2 ^ 23 % 2 = 1) := by omega
    rw [if_neg hneg, if_neg hneg, setCompact]
    simp only [hnSize, hmantissa, if_neg hbit]
    rfl

/-- **A number is read back rounded**, with its sign, where its size is a
byte. -/
theorem setCompact_getCompact_of_size (hsize : mpiSize z.natAbs ≤ 255) :
    setCompact (getCompact z) = if z < 0 then -(rounded z.natAbs : Int) else rounded z.natAbs := by
  rw [getCompact_eq_add hsize, setCompact_add (leading_lt _) fun hz => mpiSize_pos (by omega), magnitude_leading]

/-- A target is. -/
theorem setCompact_getCompact (hx : x < 2 ^ 256) : setCompact (getCompact (x : Int)) = (rounded x : Int) := by
  have hsize : mpiSize x ≤ 255 := le_trans (mpiSize_le (k := 32) hx) (by decide)
  rw [setCompact_getCompact_of_size (by rwa [Int.natAbs_natCast]), if_neg (by omega), Int.natAbs_natCast]

/-- Where the size is 256, the byte for it is zero, and zero is read back. -/
theorem setCompact_getCompact_wide (hsize : mpiSize x = 256) : setCompact (getCompact (x : Int)) = 0 := by
  have hlead := leading_lt x
  have hget : getCompact (x : Int) = 0 * 2 ^ 24 + leading x + if False then 2 ^ 23 else 0 := by
    have hnonneg : ¬ (x : Int) < 0 := by omega
    rw [getCompact, Int.natAbs_natCast]
    show (mpiSize x * 2 ^ 24 + leading x + if (x : Int) < 0 then 2 ^ 23 else 0) % 2 ^ 32 = _
    rw [hsize, if_neg hnonneg, if_neg id]
    omega
  have hzero : magnitude 0 (leading x) = 0 := Nat.div_eq_of_lt (lt_trans hlead (by decide))
  rw [hget, setCompact_add hlead False.elim, hzero]
  rfl

/-! ## Rounding keeps the order -/

theorem mpiSize_mono (hle : x ≤ y) : mpiSize x ≤ mpiSize y := by
  by_cases hzero : x = 0
  · simp [mpiSize, hzero]
  · by_contra hlt
    have hlow := two_pow_mpiSize_le hzero
    have hhigh := lt_two_pow_mpiSize (x := y) (by omega)
    have hpow : 2 ^ (8 * mpiSize y - 1) ≤ 2 ^ (8 * (mpiSize x - 1) - 1) := Nat.pow_le_pow_right (by omega) (by omega)
    omega

theorem leading_mono (hle : x ≤ y) (hsize : mpiSize x = mpiSize y) : leading x ≤ leading y := by
  rw [leading, leading, hsize]
  split
  · exact Nat.mul_le_mul_right _ hle
  · exact Nat.div_le_div_right hle

/-- **The compact form keeps the order.** -/
theorem getCompact_mono (hle : x ≤ y) (hsize : mpiSize y ≤ 255) : getCompact (x : Int) ≤ getCompact (y : Int) := by
  have hmono := mpiSize_mono hle
  have hx := leading_lt x
  have hgetx := getCompact_eq_add (z := (x : Int)) (by rw [Int.natAbs_natCast]; omega)
  have hgety := getCompact_eq_add (z := (y : Int)) (by rwa [Int.natAbs_natCast])
  rw [Int.natAbs_natCast, if_neg (by omega)] at hgetx hgety
  by_cases heq : mpiSize x = mpiSize y
  · have hlead := leading_mono hle heq
    omega
  · omega

theorem unit_congr (h : mpiSize x = mpiSize y) : unit x = unit y := by rw [unit, unit, h]

/-- The unit divides the least magnitude of its size. -/
theorem unit_dvd (hx : x ≠ 0) {k : Nat} (hk : 8 * (mpiSize x - 1) - 1 ≤ k) : unit x ∣ 2 ^ k := by
  have hpos := mpiSize_pos hx
  exact Nat.pow_dvd_pow 2 (by omega)

theorem rounded_eq_of_dvd (hdvd : unit x ∣ x) : rounded x = x := Nat.div_mul_cancel hdvd

theorem unit_dvd_rounded (x : Nat) : unit x ∣ rounded x := Dvd.intro_left _ rfl

theorem lt_rounded_add_unit (x : Nat) : x < rounded x + unit x := by
  have hmod := Nat.mod_lt x (unit_pos x)
  have hsplit := Nat.div_add_mod' x (unit x)
  rw [rounded]
  omega

/-- A multiple of the unit below the number is below what it is rounded to. -/
theorem le_rounded {m : Nat} (hdvd : unit x ∣ m) (hle : m ≤ x) : m ≤ rounded x := by
  obtain ⟨q, rfl⟩ := hdvd
  rw [rounded, Nat.mul_comm]
  exact Nat.mul_le_mul_right _ ((Nat.le_div_iff_mul_le (unit_pos x)).mpr (by rwa [Nat.mul_comm]))

theorem rounded_mono (hle : x ≤ y) : rounded x ≤ rounded y := by
  by_cases hzero : x = 0
  · simp [hzero, rounded]
  have hy : y ≠ 0 := by omega
  have hsize := mpiSize_mono hle
  by_cases heq : mpiSize x = mpiSize y
  · have hunit := unit_congr heq
    rw [rounded, rounded, hunit]
    exact Nat.mul_le_mul_right _ (Nat.div_le_div_right hle)
  · have hlow := le_rounded (unit_dvd hy (Nat.le_refl _)) (two_pow_mpiSize_le hy)
    have hhigh := lt_two_pow_mpiSize hzero
    have hpow : 2 ^ (8 * mpiSize x - 1) ≤ 2 ^ (8 * (mpiSize y - 1) - 1) := Nat.pow_le_pow_right (by omega) (by omega)
    have hrounded := rounded_le x
    omega

/-- The next multiple of the unit is not beyond the numbers of the size. -/
theorem rounded_add_unit_le (hx : x ≠ 0) : rounded x + unit x ≤ 2 ^ (8 * mpiSize x - 1) := by
  have hpos := mpiSize_pos hx
  obtain ⟨q, hq⟩ := unit_dvd hx (k := 8 * mpiSize x - 1) (by omega)
  have hlt := lt_of_le_of_lt (rounded_le x) (lt_two_pow_mpiSize hx)
  rw [hq, rounded, Nat.mul_comm] at hlt ⊢
  have hdiv : x / unit x < q := Nat.lt_of_mul_lt_mul_left hlt
  calc unit x * (x / unit x) + unit x = unit x * (x / unit x + 1) := by ring
    _ ≤ unit x * q := Nat.mul_le_mul_left _ hdiv

/-- **What is rounded to no more** lies below the next multiple of the
unit. -/
theorem rounded_le_rounded_iff (hx : x ≠ 0) : rounded y ≤ rounded x ↔ y < rounded x + unit x := by
  have hbound := rounded_add_unit_le hx
  have hunit := unit_pos x
  constructor
  · intro hle
    by_contra hge
    -- the next multiple of the unit is read back as it is
    have hstep : rounded (rounded x + unit x) = rounded x + unit x := by
      refine rounded_eq_of_dvd ?_
      have hsize := mpiSize_mono (x := x) (y := rounded x + unit x) (Nat.le_of_lt (lt_rounded_add_unit x))
      by_cases heq : mpiSize (rounded x + unit x) = mpiSize x
      · have hsame := unit_congr heq
        rw [hsame]
        exact Nat.dvd_add (unit_dvd_rounded x) (Nat.dvd_refl _)
      · have hlow := two_pow_mpiSize_le (x := rounded x + unit x) (by omega)
        have hpow : 2 ^ (8 * mpiSize x - 1) ≤ 2 ^ (8 * (mpiSize (rounded x + unit x) - 1) - 1) :=
          Nat.pow_le_pow_right (by omega) (by omega)
        have hvalue : rounded x + unit x = 2 ^ (8 * (mpiSize (rounded x + unit x) - 1) - 1) := by omega
        have hdvd := unit_dvd (x := rounded x + unit x) (by omega) (Nat.le_refl _)
        rwa [← hvalue] at hdvd
    have hmono := rounded_mono (Nat.not_lt.mp hge)
    omega
  · intro hlt
    by_cases hle : y ≤ x
    · exact rounded_mono hle
    · have hsize : mpiSize y = mpiSize x := by
        refine le_antisymm ?_ (mpiSize_mono (by omega))
        by_contra hgt
        have hlow := two_pow_mpiSize_le (x := y) (by omega)
        have hpow : 2 ^ (8 * mpiSize x - 1) ≤ 2 ^ (8 * (mpiSize y - 1) - 1) :=
          Nat.pow_le_pow_right (by omega) (by omega)
        omega
      have hsame := unit_congr hsize
      rw [rounded, rounded, hsame]
      refine Nat.mul_le_mul_right _ (Nat.le_of_lt_succ ?_)
      refine (Nat.div_lt_iff_lt_mul hunit).mpr ?_
      rw [Nat.succ_mul]
      exact hlt

/-! ## What is lost -/

/-- **The unit is small:** less than one part in 2^15 is lost. -/
theorem sub_rounded_lt (hx : x ≠ 0) : (x - rounded x) * 2 ^ 15 < x := by
  have hlow := two_pow_mpiSize_le hx
  have hunit := lt_rounded_add_unit x
  have hle := rounded_le x
  by_cases hsize : mpiSize x ≤ 3
  · have hone := unit_eq_one hsize
    omega
  · have hpow : unit x * 2 ^ 15 = 2 ^ (8 * (mpiSize x - 1) - 1) := by
      rw [unit, ← Nat.pow_add]
      congr 1
      omega
    have hlost : x - rounded x < unit x := by omega
    calc (x - rounded x) * 2 ^ 15
        _ < unit x * 2 ^ 15 := Nat.mul_lt_mul_of_pos_right hlost (Nat.two_pow_pos 15)
        _ ≤ x := hpow ▸ hlow

theorem mpiSize_rounded (x : Nat) : mpiSize (rounded x) = mpiSize x := by
  by_cases hx : x = 0
  · rw [hx]
    decide
  refine Nat.le_antisymm (mpiSize_mono (rounded_le x)) ?_
  have hlow := le_rounded (unit_dvd hx (Nat.le_refl _)) (two_pow_mpiSize_le hx)
  have hsize := lt_two_pow_mpiSize (x := rounded x) (Nat.ne_of_gt (rounded_pos hx))
  by_contra hlt
  have hpow : 2 ^ (8 * mpiSize (rounded x) - 1) ≤ 2 ^ (8 * (mpiSize x - 1) - 1) :=
    Nat.pow_le_pow_right (by decide) (by omega)
  omega

theorem leading_rounded (x : Nat) : leading (rounded x) = leading x := by
  rw [leading, leading, mpiSize_rounded]
  split
  next hsize =>
    rw [rounded, unit_eq_one hsize, Nat.div_one, Nat.mul_one]
  next =>
    rw [rounded]
    exact Nat.mul_div_cancel _ (unit_pos x)

/-- **Rounding once is enough.** -/
theorem getCompact_setCompact_getCompact (hsize : mpiSize z.natAbs ≤ 255) :
    getCompact (setCompact (getCompact z)) = getCompact z := by
  obtain ⟨r, hr⟩ : ∃ r : Int, r = setCompact (getCompact z) := ⟨_, rfl⟩
  have hvalue : r = if z < 0 then -(rounded z.natAbs : Int) else rounded z.natAbs :=
    hr.trans (setCompact_getCompact_of_size hsize)
  have hrounded : r.natAbs = rounded z.natAbs := by
    rw [hvalue]
    split <;> omega
  have hsign : r < 0 ↔ z < 0 := by
    by_cases hz : z < 0
    · have hpos := rounded_pos (x := z.natAbs) (by omega)
      rw [if_pos hz] at hvalue
      exact iff_of_true (by omega) hz
    · rw [if_neg hz] at hvalue
      exact iff_of_false (by omega) hz
  have hget := getCompact_eq_add (z := r) (by rwa [hrounded, mpiSize_rounded])
  rw [← hr, hget, getCompact_eq_add hsize, hrounded, mpiSize_rounded, leading_rounded]
  simp only [hsign]

end CBigNum

end Pinkcoin
