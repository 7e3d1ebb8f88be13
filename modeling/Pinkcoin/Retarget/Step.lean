/-
One step of the retargeting: the target before is multiplied with a weight
and divided by a total, and read back from its compact form. The spacing may
be negative, and so may the weight.
-/
import Pinkcoin.Target
import Pinkcoin.Retarget.Compact

namespace Pinkcoin

open CBigNum (rounded rounded_le rounded_pos setCompact_getCompact)

/-- What a step of the retargeting starts from: the limit, the bits of the
block before of the same kind, and the time between that block and its own
predecessor. -/
structure RetargetStep where
  bnTargetLimit : Int
  nBits : Nat
  nTimespan : Int
  nTS : Int
  nActualSpacing : Int
  deriving DecidableEq

namespace RetargetStep

section Definitions

variable (r : RetargetStep)

/-- The target before, -/
def target : Int := CBigNum.setCompact r.nBits

/-- what it is multiplied with, -/
def weight : Int := (r.nTimespan / r.nTS - 1) * r.nTS + r.nActualSpacing + r.nActualSpacing

/-- and what the product is divided by. -/
def total : Int := (r.nTimespan / r.nTS + 1) * r.nTS

/-- The quotient. -/
def quotient : Int := (r.target * r.weight).tdiv r.total

/-- The bits of the next block, -/
def required : Nat := retarget r.bnTargetLimit r.nBits r.nTimespan r.nTS r.nActualSpacing

/-- and its target. -/
def next : Int := CBigNum.setCompact r.required

/-- The easiest target, as it is read back. -/
def easiest : Int := CBigNum.setCompact (CBigNum.getCompact r.bnTargetLimit)

/-- The limits, timespans and spacings a node is built with. -/
structure Usual : Prop where
  limit : 0 < r.bnTargetLimit ∧ r.bnTargetLimit < 2 ^ 256
  nTS : 0 < r.nTS
  nTimespan : 0 < r.nTimespan
  total : r.total = r.nTimespan + r.nTS
  weight : r.weight = r.nTimespan - r.nTS + 2 * r.nActualSpacing

/-- The product of the target and its weight reaches the total, or the target
is the easiest one already. -/
def Counts : Prop := (0 < r.target ∧ r.total ≤ r.target * r.weight) ∨ r.easiest ≤ r.target

instance : Decidable r.Counts := inferInstanceAs (Decidable (_ ∨ _))

end Definitions

variable {r : RetargetStep}

/-! ## The easiest target -/

theorem Usual.easiest_eq (h : r.Usual) : r.easiest = (rounded r.bnTargetLimit.toNat : Int) := by
  obtain ⟨hpos, hlt⟩ := h.limit
  obtain ⟨x, hx⟩ : ∃ x : Nat, r.bnTargetLimit = x := ⟨r.bnTargetLimit.toNat, by omega⟩
  rw [hx] at hlt
  rw [easiest, hx, setCompact_getCompact (by exact_mod_cast hlt), Int.toNat_natCast]

theorem Usual.easiest_pos (h : r.Usual) : 0 < r.easiest := by
  have hpos := h.limit.1
  have hrounded := rounded_pos (show r.bnTargetLimit.toNat ≠ 0 by omega)
  rw [h.easiest_eq]
  omega

theorem Usual.easiest_le (h : r.Usual) : r.easiest ≤ r.bnTargetLimit := by
  have hle := rounded_le r.bnTargetLimit.toNat
  have hpos := h.limit.1
  rw [h.easiest_eq]
  omega

theorem Usual.total_pos (h : r.Usual) : 0 < r.total := by
  have htotal := h.total
  have hnTS := h.nTS
  have hnTimespan := h.nTimespan
  omega

/-! ## The target of the next block -/

/-- The easiest target where the quotient is not positive or too large, -/
theorem next_easiest (hout : r.quotient ≤ 0 ∨ r.bnTargetLimit < r.quotient) : r.next = r.easiest := by
  have hrequired : r.required = CBigNum.getCompact
      (if r.quotient ≤ 0 ∨ r.bnTargetLimit < r.quotient then r.bnTargetLimit else r.quotient) := rfl
  rw [next, hrequired, if_pos hout, easiest]

/-- and else the quotient, rounded. -/
theorem Usual.next_rounded (h : r.Usual) (hin : 0 < r.quotient ∧ r.quotient ≤ r.bnTargetLimit) :
    r.next = (rounded r.quotient.toNat : Int) := by
  have hrequired : r.required = CBigNum.getCompact
      (if r.quotient ≤ 0 ∨ r.bnTargetLimit < r.quotient then r.bnTargetLimit else r.quotient) := rfl
  obtain ⟨x, hx⟩ : ∃ x : Nat, r.quotient = x := ⟨r.quotient.toNat, by omega⟩
  have hlimit := h.limit
  have hlt : (x : Int) < 2 ^ 256 := by omega
  rw [next, hrequired, if_neg (by omega), hx, setCompact_getCompact (by exact_mod_cast hlt), Int.toNat_natCast]

theorem Usual.next_pos (h : r.Usual) : 0 < r.next := by
  by_cases hin : 0 < r.quotient ∧ r.quotient ≤ r.bnTargetLimit
  · have hrounded := rounded_pos (show r.quotient.toNat ≠ 0 by omega)
    rw [h.next_rounded hin]
    exact_mod_cast hrounded
  · rw [next_easiest (by omega)]
    exact h.easiest_pos

/-! ## The quotient -/

/-- The quotient is positive exactly where the product reaches the total. -/
theorem Usual.quotient_pos (h : r.Usual) : 0 < r.quotient ↔ r.total ≤ r.target * r.weight := by
  have htotal := h.total_pos
  by_cases hneg : r.target * r.weight < 0
  · have hquotient : 0 ≤ (-(r.target * r.weight)).tdiv r.total := Int.tdiv_nonneg (by omega) (by omega)
    rw [Int.neg_tdiv] at hquotient
    have hle : r.quotient ≤ 0 := by
      rw [quotient]
      omega
    exact ⟨fun hpos => by omega, fun hle => by omega⟩
  · rw [quotient, Int.tdiv_eq_ediv_of_nonneg (by omega)]
    constructor
    · intro hpos
      simpa using (Int.le_ediv_iff_mul_le htotal).mp hpos
    · intro hreach
      exact (Int.le_ediv_iff_mul_le htotal).mpr (by omega)

theorem Usual.quotient_lt (h : r.Usual) (hreach : r.total ≤ r.target * r.weight) {bound : Int} :
    r.quotient < bound ↔ r.target * r.weight < bound * r.total := by
  have htotal := h.total_pos
  rw [quotient, Int.tdiv_eq_ediv_of_nonneg (by omega)]
  exact Int.ediv_lt_iff_lt_mul htotal

/-- After a fast block the weight is at most the total. -/
theorem Usual.weight_le (h : r.Usual) (hfast : r.nActualSpacing ≤ r.nTS) : r.weight ≤ r.total := by
  have hweight := h.weight
  have htotal := h.total
  omega

theorem Usual.quotient_le (h : r.Usual) (hfast : r.nActualSpacing ≤ r.nTS) (hpos : 0 < r.target)
    (hreach : r.total ≤ r.target * r.weight) : r.quotient ≤ r.target := by
  have htotal := h.total_pos
  have hmul : r.target * r.weight ≤ r.target * r.total :=
    Int.mul_le_mul_of_nonneg_left (h.weight_le hfast) (by omega)
  rw [quotient, Int.tdiv_eq_ediv_of_nonneg (by omega)]
  exact Int.ediv_le_of_le_mul htotal hmul

/-- **A fast block does not ease the target**, exactly where the product
reaches the total or nothing is easier. -/
theorem Usual.le_iff (h : r.Usual) (hfast : r.nActualSpacing ≤ r.nTS) :
    r.next ≤ r.target ↔ r.Counts := by
  have heasy := h.easiest_le
  have hnext := h.next_pos
  constructor
  · intro hle
    have hpos : 0 < r.target := by omega
    by_cases hreach : r.total ≤ r.target * r.weight
    · exact .inl ⟨hpos, hreach⟩
    · have hquotient := mt h.quotient_pos.mp hreach
      rw [next_easiest (by omega)] at hle
      exact .inr hle
  · intro hcounts
    rcases hcounts with ⟨hpos, hreach⟩ | hle
    · have hquotient := h.quotient_le hfast hpos hreach
      by_cases hlimit : r.quotient ≤ r.bnTargetLimit
      · have hrounded := rounded_le r.quotient.toNat
        have hquotientPos := h.quotient_pos.mpr hreach
        rw [h.next_rounded ⟨hquotientPos, hlimit⟩]
        omega
      · rw [next_easiest (by omega)]
        omega
    · by_cases hin : 0 < r.quotient ∧ r.quotient ≤ r.bnTargetLimit
      · have hreach := h.quotient_pos.mp hin.1
        have hquotient := h.quotient_le hfast (by have := h.easiest_pos; omega) hreach
        have hrounded := rounded_le r.quotient.toNat
        rw [h.next_rounded hin]
        omega
      · rw [next_easiest (by omega)]
        exact hle

end RetargetStep

end Pinkcoin
