/-
What the operators of `base_uint` compute: the integer operations modulo
2^256 and 2^160, for every operand and every shift.
-/
import Pinkcoin.BaseUint

namespace Pinkcoin.BaseUint

open Words (ripple orAt)

variable {BITS : Nat}

/-! ## The loops -/

theorem value_lt (a : BaseUint BITS) : a.value < 2 ^ (32 * WIDTH BITS) := by
  have h := Words.value_lt a.pn
  rwa [a.size] at h

theorem eq_of_value {a b : BaseUint BITS} (h : a.value = b.value) : a = b := by
  have hpn : a.pn = b.pn := Words.value_inj (a.size.trans b.size.symm) h
  cases a
  cases b
  cases hpn
  rfl

/-- **An operand may be the object itself:** the loop reads what it was. -/
theorem loop_pn {σ : Type} (step : σ → BitVec 32 → BitVec 32 → BitVec 32 × σ) (s : σ) (a : BaseUint BITS)
    (b : Operand BITS) : (loop step s a b).pn = (ripple step s a.pn (b.of a).pn).1 := by
  cases b with
  | other b => exact congrArg Prod.fst (Words.inPlace_const (a.size.trans b.size.symm))
  | self => exact congrArg Prod.fst Words.inPlace_self

theorem size_of (a : BaseUint BITS) (b : Operand BITS) : a.pn.length = (b.of a).pn.length :=
  a.size.trans (b.of a).size.symm

/-! ## Bitwise operations -/

theorem value_xorAssign (a : BaseUint BITS) (b : Operand BITS) :
    (xorAssign a b).value = a.value ^^^ (b.of a).value := by
  rw [value, xorAssign, loop_pn, Words.ripple_zipWith]
  exact Words.value_zipWith (by decide) (Bool.xor_false false) (fun x y r _ => BitVec.getLsbD_xor)
    (fun m n j => Nat.testBit_xor m n j) (size_of a b)

theorem value_andAssign (a : BaseUint BITS) (b : Operand BITS) :
    (andAssign a b).value = a.value &&& (b.of a).value := by
  rw [value, andAssign, loop_pn, Words.ripple_zipWith]
  exact Words.value_zipWith (by decide) (Bool.and_false false) (fun x y r _ => BitVec.getLsbD_and)
    (fun m n j => Nat.testBit_and m n j) (size_of a b)

theorem value_orAssign (a : BaseUint BITS) (b : Operand BITS) :
    (orAssign a b).value = a.value ||| (b.of a).value := by
  rw [value, orAssign, loop_pn, Words.ripple_zipWith]
  exact Words.value_zipWith (by decide) (Bool.or_false false) (fun x y r _ => BitVec.getLsbD_or)
    (fun m n j => Nat.testBit_or m n j) (size_of a b)

theorem value_compl (a : BaseUint BITS) : (compl a).value + a.value + 1 = 2 ^ (32 * WIDTH BITS) := by
  have h := Words.value_map_not a.pn
  rwa [a.size] at h

/-- The two words of a `uint64_t`. -/
theorem low_add_high (b : BitVec 64) : (low b).toNat + 2 ^ 32 * (high b).toNat = b.toNat := by
  rw [low, high, BitVec.toNat_setWidth, BitVec.toNat_setWidth, BitVec.toNat_ushiftRight, Nat.shiftRight_eq_div_pow]
  omega

theorem pn_assign (hwidth : 2 ≤ WIDTH BITS) (b : BitVec 64) :
    (assign b : BaseUint BITS).pn = low b :: high b :: List.replicate (WIDTH BITS - 2) 0#32 := by
  refine List.take_of_length_le ?_
  rw [List.length_cons, List.length_cons, List.length_replicate]
  omega

theorem value_assign (hwidth : 2 ≤ WIDTH BITS) (b : BitVec 64) : (assign b : BaseUint BITS).value = b.toNat := by
  rw [value, pn_assign hwidth, Words.value_cons, Words.value_cons, Words.value_replicate_zero, ← low_add_high b]
  rfl

/-- With no operand above the two low words, the others stay. -/
theorem onLow_eq (hwidth : 2 ≤ WIDTH BITS) {f : BitVec 32 → BitVec 32 → BitVec 32} (hf : ∀ x, f x 0#32 = x)
    (a : BaseUint BITS) (b : BitVec 64) : onLow f a b = loop (fun s x y => (f x y, s)) () a (.other (assign b)) := by
  have hpn : (onLow f a b).pn = (loop (fun s x y => (f x y, s)) () a (.other (assign b))).pn := by
    rw [loop_pn, Words.ripple_zipWith]
    show (a.pn.modify 0 (f · (low b))).modify 1 (f · (high b)) = List.zipWith f a.pn (assign b : BaseUint BITS).pn
    rw [pn_assign hwidth]
    have hsize := a.size
    match hpn : a.pn with
    | [] =>
      rw [hpn, List.length_nil] at hsize
      omega
    | [x] =>
      rw [hpn, List.length_singleton] at hsize
      omega
    | x :: y :: rest =>
      rw [hpn, List.length_cons, List.length_cons] at hsize
      have hrest : List.zipWith f rest (List.replicate (WIDTH BITS - 2) 0#32) = rest := by
        rw [show WIDTH BITS - 2 = rest.length by omega]
        clear hsize hpn
        induction rest with
        | nil => rfl
        | cons z rest ih => rw [List.length_cons, List.replicate_succ, List.zipWith_cons_cons, hf, ih]
      rw [List.zipWith_cons_cons, List.zipWith_cons_cons, hrest]
      rfl
  exact eq_of_value (congrArg Words.value hpn)

theorem value_xorAssign64 (hwidth : 2 ≤ WIDTH BITS) (a : BaseUint BITS) (b : BitVec 64) :
    (xorAssign64 a b).value = a.value ^^^ b.toNat := by
  have h := value_xorAssign a (.other (assign b))
  rw [Operand.of, value_assign hwidth] at h
  rw [← h, xorAssign64, onLow_eq hwidth (fun x => BitVec.xor_zero), xorAssign]

theorem value_orAssign64 (hwidth : 2 ≤ WIDTH BITS) (a : BaseUint BITS) (b : BitVec 64) :
    (orAssign64 a b).value = a.value ||| b.toNat := by
  have h := value_orAssign a (.other (assign b))
  rw [Operand.of, value_assign hwidth] at h
  rw [← h, orAssign64, onLow_eq hwidth (fun x => BitVec.or_zero), orAssign]

/-! ## Shifts -/

/-- The bits of the words a shift loop ends with. -/
theorem testBit_shiftLoop {turn : List (BitVec 32) → Nat → BitVec 32 → List (BitVec 32)}
    {hlength : ∀ pn i x, (turn pn i x).length = pn.length} {bits : Nat → BitVec 32 → Nat → Nat → Bool}
    (hturn : ∀ pn i x j r, j < pn.length →
      ((turn pn i x).getD j 0#32).getLsbD r = ((pn.getD j 0#32).getLsbD r || bits i x j r))
    (a : BaseUint BITS) {j r : Nat} (hj : j < WIDTH BITS) (hr : r < 32) :
    (shiftLoop turn hlength a).value.testBit (32 * j + r) = true ↔
      ∃ i < WIDTH BITS, bits i (a.pn.getD i 0#32) j r = true := by
  have hzero : ((List.replicate (WIDTH BITS) (0#32)).getD j 0#32).getLsbD r = false := by
    rw [List.getD_replicate _ hj]
    exact BitVec.getLsbD_zero
  rw [value, Words.testBit_value _ _ hr]
  have hlt : j < (List.replicate (WIDTH BITS) 0#32).length := hj.trans_eq List.length_replicate.symm
  have h := Words.getLsbD_orLoop (fun pn i => turn pn i (a.pn.getD i 0#32))
    (fun i j r => bits i (a.pn.getD i 0#32) j r) (fun pn i => hlength pn i _) (fun pn i j r hj => hturn pn i _ j r hj)
    (WIDTH BITS) hlt r
  rw [hzero] at h
  simpa [shiftLoop] using h

theorem testBit_word (a : BaseUint BITS) (i : Nat) {r : Nat} (hr : r < 32) :
    (a.pn.getD i 0#32).getLsbD r = a.value.testBit (32 * i + r) :=
  (Words.testBit_value a.pn i hr).symm

theorem getLsbD_orIf {pn : List (BitVec 32)} {c : Prop} [Decidable c] {i j : Nat} {x : BitVec 32} (hj : j < pn.length)
    (r : Nat) :
    ((if c then orAt pn i x else pn).getD j 0#32).getLsbD r =
      ((pn.getD j 0#32).getLsbD r || decide (c ∧ i = j ∧ x.getLsbD r = true)) := by
  by_cases h : c
  · rw [if_pos h, Words.getLsbD_orAt hj]
    by_cases hi : i = j <;> cases x.getLsbD r <;> simp [h, hi]
  · simp [h]

theorem getLsbD_shlTurn (k shift : Nat) (pn : List (BitVec 32)) (i : Nat) (x : BitVec 32) (j r : Nat)
    (hj : j < pn.length) :
    ((shlTurn (WIDTH BITS) k shift pn i x).getD j 0#32).getLsbD r = ((pn.getD j 0#32).getLsbD r ||
      (decide ((i + k + 1 < WIDTH BITS ∧ shift ≠ 0) ∧ i + k + 1 = j ∧ (x >>> (32 - shift)).getLsbD r = true) ||
        decide (i + k < WIDTH BITS ∧ i + k = j ∧ (x <<< shift).getLsbD r = true))) := by
  unfold shlTurn
  rw [getLsbD_orIf (by split <;> simpa using hj), getLsbD_orIf hj, Bool.or_assoc]

theorem getLsbD_shrTurn (k shift : Nat) (pn : List (BitVec 32)) (i : Nat) (x : BitVec 32) (j r : Nat)
    (hj : j < pn.length) :
    ((shrTurn k shift pn i x).getD j 0#32).getLsbD r = ((pn.getD j 0#32).getLsbD r ||
      (decide ((k + 1 ≤ i ∧ shift ≠ 0) ∧ i - k - 1 = j ∧ (x <<< (32 - shift)).getLsbD r = true) ||
        decide (k ≤ i ∧ i - k = j ∧ (x >>> shift).getLsbD r = true))) := by
  unfold shrTurn
  rw [getLsbD_orIf (by split <;> simpa using hj), getLsbD_orIf hj, Bool.or_assoc]

theorem testBit_of_width (a : BaseUint BITS) {q : Nat} (hq : ¬ q < WIDTH BITS) (r : Nat) :
    a.value.testBit (32 * q + r) = false := by
  refine Nat.testBit_lt_two_pow (a.value_lt.trans_le (Nat.pow_le_pow_right (by decide) ?_))
  have hle : 32 * WIDTH BITS ≤ 32 * q := Nat.mul_le_mul_left 32 (Nat.not_lt.mp hq)
  omega

/-- **`<<=` shifts the number left**, and what leaves the width is lost. -/
theorem value_shlAssign (a : BaseUint BITS) (shift : Nat) :
    (shlAssign a shift).value = (a.value <<< shift) % 2 ^ (32 * WIDTH BITS) := by
  refine Words.eq_of_bits (w := 32) (by decide) fun q r hr => ?_
  by_cases hq : q < WIDTH BITS
  · rw [Nat.testBit_mod_two_pow, Nat.testBit_shiftLeft, Bool.eq_iff_iff, shlAssign,
      testBit_shiftLoop (getLsbD_shlTurn _ _) a hq hr]
    simp only [BitVec.getLsbD_ushiftRight, BitVec.getLsbD_shiftLeft, Bool.or_eq_true, decide_eq_true_eq,
      Bool.and_eq_true, Bool.not_eq_true', decide_eq_false_iff_not, ge_iff_le]
    constructor
    · rintro ⟨i, hi, ⟨⟨_, hs⟩, rfl, hbit⟩ | ⟨_, rfl, ⟨_, hs⟩, hbit⟩⟩
      · have hlt : 32 - shift % 32 + r < 32 := BitVec.lt_of_getLsbD hbit
        rw [testBit_word a i hlt] at hbit
        refine ⟨by omega, by omega, ?_⟩
        rwa [show 32 * (i + shift / 32 + 1) + r - shift = 32 * i + (32 - shift % 32 + r) by omega]
      · rw [testBit_word a i (by omega)] at hbit
        refine ⟨by omega, by omega, ?_⟩
        rwa [show 32 * (i + shift / 32) + r - shift = 32 * i + (r - shift % 32) by omega]
    · rintro ⟨_, hle, hbit⟩
      by_cases hs : r < shift % 32
      · refine ⟨q - shift / 32 - 1, by omega, .inl ⟨⟨by omega, by omega⟩, by omega, ?_⟩⟩
        rw [testBit_word a _ (by omega)]
        rwa [show 32 * (q - shift / 32 - 1) + (32 - shift % 32 + r) = 32 * q + r - shift by omega]
      · refine ⟨q - shift / 32, by omega, .inr ⟨by omega, by omega, ⟨hr, hs⟩, ?_⟩⟩
        rw [testBit_word a _ (by omega)]
        rwa [show 32 * (q - shift / 32) + (r - shift % 32) = 32 * q + r - shift by omega]
  · have hout : ¬ 32 * q + r < 32 * WIDTH BITS := by omega
    rw [testBit_of_width _ hq, Nat.testBit_mod_two_pow, decide_eq_false hout, Bool.false_and]

/-- **`>>=` shifts the number right.** -/
theorem value_shrAssign (a : BaseUint BITS) (shift : Nat) : (shrAssign a shift).value = a.value >>> shift := by
  refine Words.eq_of_bits (w := 32) (by decide) fun q r hr => ?_
  rw [Nat.testBit_shiftRight]
  by_cases hq : q < WIDTH BITS
  · rw [Bool.eq_iff_iff, shrAssign, testBit_shiftLoop (getLsbD_shrTurn _ _) a hq hr]
    simp only [BitVec.getLsbD_ushiftRight, BitVec.getLsbD_shiftLeft, Bool.or_eq_true, decide_eq_true_eq,
      Bool.and_eq_true, Bool.not_eq_true', decide_eq_false_iff_not]
    constructor
    · rintro ⟨i, hi, ⟨⟨hk, hs⟩, rfl, ⟨_, hge⟩, hbit⟩ | ⟨hk, rfl, hbit⟩⟩
      · rw [testBit_word a i (by omega)] at hbit
        rwa [show shift + (32 * (i - shift / 32 - 1) + r) = 32 * i + (r - (32 - shift % 32)) by omega]
      · have hlt : shift % 32 + r < 32 := BitVec.lt_of_getLsbD hbit
        rw [testBit_word a i hlt] at hbit
        rwa [show shift + (32 * (i - shift / 32) + r) = 32 * i + (shift % 32 + r) by omega]
    · intro hbit
      by_cases hs : shift % 32 + r < 32
      · have hsplit : shift + (32 * q + r) = 32 * (q + shift / 32) + (shift % 32 + r) := by omega
        rw [hsplit] at hbit
        have hi : q + shift / 32 < WIDTH BITS := by
          refine Decidable.byContradiction fun hi => ?_
          rw [testBit_of_width a hi] at hbit
          cases hbit
        refine ⟨q + shift / 32, hi, .inr ⟨by omega, by omega, ?_⟩⟩
        rwa [testBit_word a _ hs]
      · have hsplit : shift + (32 * q + r) = 32 * (q + shift / 32 + 1) + (r - (32 - shift % 32)) := by omega
        rw [hsplit] at hbit
        have hi : q + shift / 32 + 1 < WIDTH BITS := by
          refine Decidable.byContradiction fun hi => ?_
          rw [testBit_of_width a hi] at hbit
          cases hbit
        refine ⟨q + shift / 32 + 1, hi, .inl ⟨⟨by omega, by omega⟩, by omega, ⟨hr, by omega⟩, ?_⟩⟩
        rwa [testBit_word a _ (by omega)]
  · rw [testBit_of_width _ hq]
    refine (Nat.testBit_lt_two_pow (a.value_lt.trans_le (Nat.pow_le_pow_right (by decide) ?_))).symm
    omega

/-! ## Arithmetic -/

/-- The carry is one bit, and nothing is lost in 64 of them. -/
theorem addStep_sum (carry : BitVec 64) (x y : BitVec 32) (hcarry : carry.toNat ≤ 1) :
    (addStep carry x y).1.toNat + 2 ^ 32 * (addStep carry x y).2.toNat = carry.toNat + x.toNat + y.toNat := by
  have hx : x.toNat < 2 ^ 32 := x.isLt
  have hy : y.toNat < 2 ^ 32 := y.isLt
  have hmask (n : Nat) : n &&& 4294967295 = n % 2 ^ 32 := Nat.and_two_pow_sub_one_eq_mod n 32
  simp only [addStep, BitVec.toNat_setWidth, BitVec.toNat_and, BitVec.toNat_add, BitVec.toNat_ushiftRight,
    BitVec.toNat_ofNat, Nat.shiftRight_eq_div_pow]
  rw [show 4294967295 % 2 ^ 64 = 4294967295 by decide, hmask]
  omega

theorem addStep_carry (carry : BitVec 64) (x y : BitVec 32) (hcarry : carry.toNat ≤ 1) :
    (addStep carry x y).2.toNat ≤ 1 := by
  have hsum := addStep_sum carry x y hcarry
  have hx : x.toNat < 2 ^ 32 := x.isLt
  have hy : y.toNat < 2 ^ 32 := y.isLt
  omega

theorem value_addAssign (a : BaseUint BITS) (b : Operand BITS) :
    (addAssign a b).value = (a.value + (b.of a).value) % 2 ^ (32 * WIDTH BITS) := by
  have hsum := Words.value_ripple BitVec.toNat (fun carry => carry.toNat ≤ 1) addStep_carry addStep_sum (s := 0#64)
    (by decide) (size_of a b)
  have hlt := value_lt (addAssign a b)
  rw [value, addAssign, loop_pn] at hlt ⊢
  rw [BitVec.toNat_ofNat, Nat.zero_mod, Nat.zero_add, a.size] at hsum
  rw [value, value, ← hsum, Nat.add_mul_mod_self_left]
  exact (Nat.mod_eq_of_lt hlt).symm

theorem value_incWords (pn : List (BitVec 32)) : Words.value (incWords pn) = Words.value pn + 1 ∨
    Words.value (incWords pn) = 0 ∧ Words.value pn + 1 = 2 ^ (32 * pn.length) := by
  induction pn with
  | nil => exact .inr ⟨rfl, rfl⟩
  | cons x pn ih =>
    have hx : x.toNat < 2 ^ 32 := x.isLt
    rw [incWords, List.length_cons, Nat.mul_succ, Nat.pow_add]
    by_cases hzero : x + 1 = 0
    · have hlast : x.toNat = 2 ^ 32 - 1 := by
        have h := congrArg BitVec.toNat hzero
        simp only [BitVec.ofNat_eq_ofNat, BitVec.toNat_add, BitVec.toNat_ofNat] at h
        omega
      rw [if_pos hzero, Words.value_cons, Words.value_cons, hzero, hlast]
      cases ih with
      | inl h =>
        rw [h]
        exact .inl (by simp; omega)
      | inr h =>
        rw [h.1]
        exact .inr ⟨rfl, by omega⟩
    · have hnext : (x + 1).toNat = x.toNat + 1 := by
        have h : (x + 1).toNat ≠ 0 := fun h => hzero (BitVec.eq_of_toNat_eq h)
        simp only [BitVec.ofNat_eq_ofNat, BitVec.toNat_add, BitVec.toNat_ofNat] at h ⊢
        omega
      rw [if_neg hzero, Words.value_cons, Words.value_cons, hnext]
      exact .inl (by omega)

theorem value_decWords (pn : List (BitVec 32)) : Words.value (decWords pn) + 1 = Words.value pn ∨
    Words.value pn = 0 ∧ Words.value (decWords pn) + 1 = 2 ^ (32 * pn.length) := by
  induction pn with
  | nil => exact .inr ⟨rfl, rfl⟩
  | cons x pn ih =>
    have hx : x.toNat < 2 ^ 32 := x.isLt
    have hsub : (x - 1).toNat = (2 ^ 32 - 1 + x.toNat) % 2 ^ 32 := BitVec.toNat_sub ..
    rw [decWords, List.length_cons, Nat.mul_succ, Nat.pow_add]
    by_cases hlast : x - 1 = -1
    · have h : (x - 1).toNat = 2 ^ 32 - 1 := congrArg BitVec.toNat hlast
      have hzero : x.toNat = 0 := by omega
      rw [if_pos hlast, Words.value_cons, Words.value_cons, h, hzero]
      cases ih with
      | inl h =>
        rw [← h]
        exact .inl (by omega)
      | inr h =>
        rw [h.1]
        exact .inr ⟨rfl, by omega⟩
    · have h : (x - 1).toNat ≠ 2 ^ 32 - 1 := fun h => hlast (BitVec.eq_of_toNat_eq h)
      rw [if_neg hlast, Words.value_cons, Words.value_cons]
      exact .inl (by omega)

theorem value_preInc (a : BaseUint BITS) : (preInc a).value = (a.value + 1) % 2 ^ (32 * WIDTH BITS) := by
  have hlt := value_lt (preInc a)
  have h := value_incWords a.pn
  rw [a.size] at h
  cases h with
  | inl h =>
    rw [value, preInc, h] at hlt ⊢
    exact (Nat.mod_eq_of_lt hlt).symm
  | inr h =>
    rw [value, value, h.2, Nat.mod_self]
    exact h.1

theorem value_preDec (a : BaseUint BITS) :
    ((preDec a).value : Int) = ((a.value : Int) - 1) % 2 ^ (32 * WIDTH BITS) := by
  have hlt := value_lt (preDec a)
  have h := value_decWords a.pn
  rw [a.size] at h
  cases h with
  | inl h =>
    rw [value, preDec] at hlt ⊢
    rw [value, ← h, Nat.cast_add, Nat.cast_one, Int.add_sub_cancel, Int.emod_eq_of_lt (Int.natCast_nonneg _)]
    exact_mod_cast hlt
  | inr h =>
    have hz : ((a.value : Int) - 1) = (preDec a).value + 2 ^ (32 * WIDTH BITS) * (-1) := by
      have hlast : (((preDec a).value : Nat) : Int) + 1 = 2 ^ (32 * WIDTH BITS) := by exact_mod_cast h.2
      rw [value, h.1]
      omega
    rw [hz, Int.add_mul_emod_self_left, Int.emod_eq_of_lt (Int.natCast_nonneg _)]
    exact_mod_cast hlt

theorem value_neg (a : BaseUint BITS) : ((neg a).value : Int) = -(a.value : Int) % 2 ^ (32 * WIDTH BITS) := by
  have hcompl := value_compl a
  rw [show (neg a).value = (preInc (compl a)).value from rfl, value_preInc]
  have hz : -(a.value : Int) = ((compl a).value + 1 : Nat) + 2 ^ (32 * WIDTH BITS) * (-1) := by
    have hsum : (((compl a).value : Nat) : Int) + a.value + 1 = 2 ^ (32 * WIDTH BITS) := by exact_mod_cast hcompl
    push_cast
    omega
  rw [hz, Int.add_mul_emod_self_left]
  exact_mod_cast rfl

theorem value_subAssign (a : BaseUint BITS) (b : Operand BITS) :
    ((subAssign a b).value : Int) = ((a.value : Int) - (b.of a).value) % 2 ^ (32 * WIDTH BITS) := by
  rw [subAssign, value_addAssign, Operand.of]
  push_cast
  rw [value_neg, Int.add_emod_emod, Int.sub_eq_add_neg]

/-! ## Comparisons -/

theorem value_reverse_cons (x : BitVec 32) (xs : List (BitVec 32)) :
    Words.value (x :: xs).reverse = Words.value xs.reverse + 2 ^ (32 * xs.length) * x.toNat := by
  rw [List.reverse_cons, Words.value_append, List.length_reverse, Words.value_cons, Words.value_nil, Nat.mul_zero,
    Nat.add_zero]

/-- **The most significant words that differ decide.** -/
theorem compareLoop_iff (atEnd : Bool) {xs ys : List (BitVec 32)} (hlength : xs.length = ys.length) :
    compareLoop less greater atEnd xs ys = true ↔
      Words.value xs.reverse < Words.value ys.reverse ∨ xs = ys ∧ atEnd = true := by
  induction xs generalizing ys with
  | nil =>
    cases ys with
    | nil => simp [compareLoop]
    | cons y ys => cases hlength
  | cons x xs ih =>
    cases ys with
    | nil => cases hlength
    | cons y ys =>
      have hlength' : xs.length = ys.length := Nat.succ.inj hlength
      have hxs := Words.value_lt xs.reverse
      have hys := Words.value_lt ys.reverse
      rw [List.length_reverse] at hxs hys
      rw [← hlength'] at hys
      rw [compareLoop, value_reverse_cons, value_reverse_cons, ← hlength']
      have hcons : x :: xs = y :: ys ↔ x = y ∧ xs = ys := List.cons.injEq .. ▸ Iff.rfl
      by_cases hlt : x < y
      · have hle : 2 ^ (32 * xs.length) * (x.toNat + 1) ≤ 2 ^ (32 * xs.length) * y.toNat := Nat.mul_le_mul_left _ hlt
        rw [less, if_pos (decide_eq_true hlt)]
        rw [Nat.mul_succ] at hle
        exact iff_of_true rfl (.inl (by omega))
      · rw [less, if_neg (by simpa using hlt)]
        by_cases hgt : y < x
        · have hle : 2 ^ (32 * xs.length) * (y.toNat + 1) ≤ 2 ^ (32 * xs.length) * x.toNat := Nat.mul_le_mul_left _ hgt
          rw [greater, if_pos (decide_eq_true hgt)]
          rw [Nat.mul_succ] at hle
          refine iff_of_false Bool.false_ne_true (not_or_intro (by omega) fun h => ?_)
          exact (BitVec.ne_of_lt hgt) (hcons.mp h.1).1.symm
        · have hxy : x = y := BitVec.eq_of_toNat_eq (Nat.le_antisymm (Nat.not_lt.mp hgt) (Nat.not_lt.mp hlt))
          rw [greater, if_neg (by simpa using hgt), ih hlength', hcons, hxy]
          simp

theorem compareLoop_swap (atEnd : Bool) (xs ys : List (BitVec 32)) :
    compareLoop greater less atEnd xs ys = compareLoop less greater atEnd ys xs := by
  induction xs generalizing ys with
  | nil => cases ys <;> rfl
  | cons x xs ih =>
    cases ys with
    | nil => rfl
    | cons y ys => rw [compareLoop, compareLoop, ih, greater, less, less, greater]

theorem pn_reverse_eq {a b : BaseUint BITS} : a.pn.reverse = b.pn.reverse ↔ a.value = b.value :=
  ⟨fun h => congrArg Words.value (List.reverse_inj.mp h), fun h => congrArg (fun a => a.pn.reverse) (eq_of_value h)⟩

theorem compare_iff (atEnd : Bool) (a b : BaseUint BITS) :
    compareLoop less greater atEnd a.pn.reverse b.pn.reverse = true ↔
      a.value < b.value ∨ a.value = b.value ∧ atEnd = true := by
  rw [compareLoop_iff _ (by rw [List.length_reverse, List.length_reverse, a.size, b.size]), pn_reverse_eq,
    List.reverse_reverse, List.reverse_reverse]
  rfl

theorem lt_iff (a b : BaseUint BITS) : lt a b = true ↔ a.value < b.value := by
  rw [lt, compare_iff]
  simp

theorem le_iff (a b : BaseUint BITS) : le a b = true ↔ a.value ≤ b.value := by
  rw [le, compare_iff, Nat.le_iff_lt_or_eq]
  simp

theorem gt_iff (a b : BaseUint BITS) : gt a b = true ↔ b.value < a.value := by
  rw [gt, compareLoop_swap, compare_iff]
  simp

theorem ge_iff (a b : BaseUint BITS) : ge a b = true ↔ b.value ≤ a.value := by
  rw [ge, compareLoop_swap, compare_iff, Nat.le_iff_lt_or_eq]
  simp

theorem eqWords_iff {xs ys : List (BitVec 32)} (hlength : xs.length = ys.length) :
    eqWords xs ys = true ↔ xs = ys := by
  induction xs generalizing ys with
  | nil =>
    cases ys with
    | nil => simp [eqWords]
    | cons y ys => cases hlength
  | cons x xs ih =>
    cases ys with
    | nil => cases hlength
    | cons y ys =>
      rw [eqWords]
      by_cases h : x = y
      · rw [if_neg (not_not_intro h), ih (Nat.succ.inj hlength), h]
        simp
      · simp [h]

theorem eq_iff (a b : BaseUint BITS) : eq a b = true ↔ a.value = b.value := by
  rw [eq, eqWords_iff (a.size.trans b.size.symm)]
  exact ⟨fun h => congrArg Words.value h, fun h => congrArg pn (eq_of_value h)⟩

theorem eq64_iff (hwidth : 2 ≤ WIDTH BITS) (a : BaseUint BITS) (b : BitVec 64) :
    eq64 a b = true ↔ a.value = b.toNat := by
  have hpn : eq64 a b = true ↔ a.pn = (assign b : BaseUint BITS).pn := by
    have hsize := a.size
    rw [pn_assign hwidth, eq64]
    match hpn : a.pn with
    | [] =>
      rw [hpn, List.length_nil] at hsize
      omega
    | [x] =>
      rw [hpn, List.length_singleton] at hsize
      omega
    | x :: y :: rest =>
      rw [hpn, List.length_cons, List.length_cons] at hsize
      have hrest : (rest.all fun x => decide (x = 0)) = true ↔ rest = List.replicate (WIDTH BITS - 2) 0#32 := by
        rw [List.all_eq_true, List.eq_replicate_iff]
        simp only [decide_eq_true_eq]
        exact ⟨fun h => ⟨by omega, h⟩, And.right⟩
      rw [List.cons.injEq, List.cons.injEq, ← hrest]
      by_cases hx : x = low b
      · by_cases hy : y = high b
        · simp [hx, hy]
        · simp [hx, hy]
      · simp [hx]
  rw [hpn, ← value_assign hwidth b]
  exact ⟨fun h => congrArg Words.value h, fun h => congrArg pn (eq_of_value h)⟩

theorem isNot_iff (a : BaseUint BITS) : isNot a = true ↔ a.value = 0 := by
  rw [isNot, List.all_eq_true]
  simp only [decide_eq_true_eq]
  constructor
  · intro h
    rw [value, List.eq_replicate_of_mem h]
    exact Words.value_replicate_zero _
  · intro h
    have hzero : a.pn = List.replicate (WIDTH BITS) 0#32 := by
      refine Words.value_inj (a.size.trans List.length_replicate.symm) ?_
      rw [Words.value_replicate_zero]
      exact h
    intro x hx
    rw [hzero] at hx
    exact List.eq_of_mem_replicate hx

/-! ## Hexadecimal -/

/-- A digit is read as what it was written for. -/
theorem digit_twoDigits (c : UInt8) : ∃ d e, twoDigits c = [e, d] ∧ (digit d ||| digit e <<< 4) = c :=
  ⟨_, _, rfl, forall_char (P := fun c => (digit ((chars "0123456789abcdef").getD (c &&& 15).toNat 0) |||
    digit ((chars "0123456789abcdef").getD (c >>> 4).toNat 0) <<< 4) = c) (by decide +kernel) c⟩

theorem isDigit_twoDigits {c d : UInt8} (hd : d ∈ twoDigits c) : isDigit d = true := by
  have h := forall_char (P := fun c => (twoDigits c).all isDigit = true) (by decide +kernel) c
  exact List.all_eq_true.mp h d hd

/-- No digit is a space or the second character of `0x`. -/
theorem isDigit_plain (c : UInt8) : isDigit c = true → isspace (Char.ofNat c.toNat) = false ∧ tolower c ≠ 120 :=
  forall_char (P := fun c => isDigit c = true → isspace (Char.ofNat c.toNat) = false ∧ tolower c ≠ 120)
    (by decide +kernel) c

theorem fill_twoDigits (bytes : List UInt8) :
    fill bytes.length (bytes.flatMap fun c => (twoDigits c).reverse) = bytes := by
  induction bytes with
  | nil => rfl
  | cons c bytes ih =>
    obtain ⟨d, e, hdigits, hc⟩ := digit_twoDigits c
    rw [List.flatMap_cons, hdigits, List.length_cons]
    show (digit d ||| digit e <<< 4) :: fill bytes.length (bytes.flatMap fun c => (twoDigits c).reverse) = _
    rw [hc, ih]

theorem length_bytes (a : BaseUint BITS) : (bytes a).length = WIDTH BITS * 4 := by
  rw [bytes, List.length_flatMap, ← a.size]
  simp [CScript.length_leBytes]

/-- The words of the bytes of an array are the array. -/
theorem ofBytes_flatMap (pn : List (BitVec 32)) :
    ofBytes pn.length (pn.flatMap fun x => CScript.leBytes 4 x.toNat) = pn := by
  induction pn with
  | nil => rfl
  | cons x pn ih =>
    have hlength : (CScript.leBytes 4 x.toNat).length = 4 := CScript.length_leBytes _ _
    have hx : x.toNat < 256 ^ 4 := x.isLt
    rw [List.flatMap_cons, List.length_cons, ofBytes, List.take_left' hlength, List.drop_left' hlength, ih,
      leNat_leBytes, Nat.mod_eq_of_lt hx, BitVec.ofNat_toNat, BitVec.setWidth_eq]

/-- **A number is read back from its digits.** -/
theorem setHex_getHex (a : BaseUint BITS) : setHex (getHex a) = a := by
  have hdigits : ∀ c ∈ getHex a, isDigit c = true := by
    intro c hc
    obtain ⟨b, _, hb⟩ := List.mem_flatMap.mp hc
    exact isDigit_twoDigits hb
  have hspace : (getHex a).dropWhile (fun c => isspace (Char.ofNat c.toNat)) = getHex a := by
    cases h : getHex a with
    | nil => rfl
    | cons c psz =>
      have hc := hdigits c (h ▸ List.mem_cons_self)
      rw [List.dropWhile_cons, if_neg (by simp [(isDigit_plain c hc).1])]
  have h0x : skip0x (getHex a) = getHex a := by
    match h : getHex a with
    | [] => rfl
    | [c] => rfl
    | c :: d :: psz =>
      have hd := hdigits d (h ▸ List.mem_cons_of_mem _ List.mem_cons_self)
      rw [skip0x, if_neg fun hx => (isDigit_plain d hd).2 hx.2]
  have hall : (getHex a).takeWhile isDigit = getHex a := List.takeWhile_eq_self_iff.mpr hdigits
  have hpn : (setHex (getHex a) : BaseUint BITS).pn = a.pn := by
    show ofBytes (WIDTH BITS) (fill (WIDTH BITS * 4) _) = _
    rw [hspace, h0x, hall, getHex, List.reverse_flatMap, List.reverse_reverse, ← length_bytes a]
    show ofBytes (WIDTH BITS) (fill (bytes a).length ((bytes a).flatMap fun c => (twoDigits c).reverse)) = _
    rw [fill_twoDigits, bytes, ← a.size, ofBytes_flatMap]
  exact eq_of_value (congrArg Words.value hpn)

/-! ## The whole class -/

/-- **The operators compute in the integers modulo the width.** An operand
may be the object itself, and a shift may be of any amount. -/
structure Refines (BITS : Nat) : Prop where
  bound : ∀ a : BaseUint BITS, a.value < 2 ^ BITS
  unique : ∀ a b : BaseUint BITS, a.value = b.value → a = b
  add : ∀ (a : BaseUint BITS) b, ((addAssign a b).value : Int) = ((a.value : Int) + (b.of a).value) % 2 ^ BITS
  sub : ∀ (a : BaseUint BITS) b, ((subAssign a b).value : Int) = ((a.value : Int) - (b.of a).value) % 2 ^ BITS
  neg : ∀ a : BaseUint BITS, ((neg a).value : Int) = -(a.value : Int) % 2 ^ BITS
  preInc : ∀ a : BaseUint BITS, ((preInc a).value : Int) = ((a.value : Int) + 1) % 2 ^ BITS
  preDec : ∀ a : BaseUint BITS, ((preDec a).value : Int) = ((a.value : Int) - 1) % 2 ^ BITS
  postInc : ∀ a : BaseUint BITS, BaseUint.postInc a = (a, BaseUint.preInc a)
  postDec : ∀ a : BaseUint BITS, BaseUint.postDec a = (a, BaseUint.preDec a)
  compl : ∀ a : BaseUint BITS, ((compl a).value : Int) = ~~~(a.value : Int) % 2 ^ BITS
  xor : ∀ (a : BaseUint BITS) b, (xorAssign a b).value = a.value ^^^ (b.of a).value
  and : ∀ (a : BaseUint BITS) b, (andAssign a b).value = a.value &&& (b.of a).value
  or : ∀ (a : BaseUint BITS) b, (orAssign a b).value = a.value ||| (b.of a).value
  shl : ∀ (a : BaseUint BITS) shift, (shlAssign a shift).value = (a.value <<< shift) % 2 ^ BITS
  shr : ∀ (a : BaseUint BITS) shift, (shrAssign a shift).value = a.value >>> shift
  isNot : ∀ a : BaseUint BITS, isNot a = true ↔ a.value = 0
  lt : ∀ a b : BaseUint BITS, lt a b = true ↔ a.value < b.value
  le : ∀ a b : BaseUint BITS, le a b = true ↔ a.value ≤ b.value
  gt : ∀ a b : BaseUint BITS, gt a b = true ↔ a.value > b.value
  ge : ∀ a b : BaseUint BITS, ge a b = true ↔ a.value ≥ b.value
  eq : ∀ a b : BaseUint BITS, eq a b = true ↔ a.value = b.value
  ne : ∀ a b : BaseUint BITS, ne a b = true ↔ a.value ≠ b.value
  assign : ∀ b, (assign b : BaseUint BITS).value = b.toNat
  add64 : ∀ (a : BaseUint BITS) b, ((addAssign64 a b).value : Int) = ((a.value : Int) + b.toNat) % 2 ^ BITS
  sub64 : ∀ (a : BaseUint BITS) b, ((subAssign64 a b).value : Int) = ((a.value : Int) - b.toNat) % 2 ^ BITS
  xor64 : ∀ (a : BaseUint BITS) b, (xorAssign64 a b).value = a.value ^^^ b.toNat
  or64 : ∀ (a : BaseUint BITS) b, (orAssign64 a b).value = a.value ||| b.toNat
  eq64 : ∀ (a : BaseUint BITS) b, eq64 a b = true ↔ a.value = b.toNat
  ne64 : ∀ (a : BaseUint BITS) b, ne64 a b = true ↔ a.value ≠ b.toNat
  hex : ∀ a : BaseUint BITS, setHex (getHex a) = a

theorem refines (hbits : 32 * WIDTH BITS = BITS) (hwidth : 2 ≤ WIDTH BITS) : Refines BITS where
  bound a := by
    have h := value_lt a
    rwa [hbits] at h
  unique a b := eq_of_value
  add a b := by
    rw [value_addAssign, hbits]
    push_cast
    rfl
  sub a b := by rw [value_subAssign, hbits]
  neg a := by rw [value_neg, hbits]
  preInc a := by
    rw [value_preInc, hbits]
    push_cast
    rfl
  preDec a := by rw [value_preDec, hbits]
  postInc a := rfl
  postDec a := rfl
  compl a := by
    have h := value_compl a
    rw [hbits] at h
    have hnot : ~~~(a.value : Int) = (BaseUint.compl a).value + 2 ^ BITS * (-1) := by
      have hsum : (((BaseUint.compl a).value : Nat) : Int) + a.value + 1 = 2 ^ BITS := by exact_mod_cast h
      have hsucc : ~~~(a.value : Int) = -((a.value : Int) + 1) := Int.negSucc_eq a.value
      omega
    rw [hnot, Int.add_mul_emod_self_left, Int.emod_eq_of_lt (Int.natCast_nonneg _)]
    have hlt := value_lt (BaseUint.compl a)
    rw [hbits] at hlt
    exact_mod_cast hlt
  xor := value_xorAssign
  and := value_andAssign
  or := value_orAssign
  shl a shift := by rw [value_shlAssign, hbits]
  shr := value_shrAssign
  isNot := isNot_iff
  lt := lt_iff
  le := le_iff
  gt := gt_iff
  ge := ge_iff
  eq := eq_iff
  ne a b := by
    rw [BaseUint.ne, Ne, ← eq_iff]
    simp
  assign := value_assign hwidth
  add64 a b := by
    rw [addAssign64, value_addAssign, Operand.of, value_assign hwidth, hbits]
    push_cast
    rfl
  sub64 a b := by
    have h := value_subAssign a (.other (BaseUint.assign b))
    rwa [Operand.of, value_assign hwidth, hbits] at h
  xor64 := value_xorAssign64 hwidth
  or64 := value_orAssign64 hwidth
  eq64 := eq64_iff hwidth
  ne64 a b := by
    rw [BaseUint.ne64, Ne, ← eq64_iff hwidth]
    simp
  hex := setHex_getHex

/-- `uint256` and `uint160`. -/
theorem base_uint_refines : Refines 256 ∧ Refines 160 :=
  ⟨refines (by decide) (by decide), refines (by decide) (by decide)⟩

end Pinkcoin.BaseUint
