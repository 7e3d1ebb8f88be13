/-
Base64 and Base32: the texts of bytes and what is read of them, with the
loops of the source as machines over `mode` and `left`.
-/
import Mathlib.Tactic.IntervalCases
import Pinkcoin.Lib.BaseText

namespace Pinkcoin

open BaseText (Base)
open BitGroups (Regroups toBits bitsOf)

/-- The characters of a literal. -/
def chars (s : String) : List UInt8 := s.toList.map fun c => UInt8.ofNat c.toNat

/-! ## Base64 -/

def pbase64 : List UInt8 := chars "ABCDEFGHIJKLMNOPQRSTUVWXYZabcdefghijklmnopqrstuvwxyz0123456789+/"

def decode64_table : List Int :=
  [
    -1, -1, -1, -1, -1, -1, -1, -1, -1, -1, -1, -1, -1, -1, -1, -1, -1, -1, -1, -1,
    -1, -1, -1, -1, -1, -1, -1, -1, -1, -1, -1, -1, -1, -1, -1, -1, -1, -1, -1, -1,
    -1, -1, -1, 62, -1, -1, -1, 63, 52, 53, 54, 55, 56, 57, 58, 59, 60, 61, -1, -1,
    -1, -1, -1, -1, -1,  0,  1,  2,  3,  4,  5,  6,  7,  8,  9, 10, 11, 12, 13, 14,
    15, 16, 17, 18, 19, 20, 21, 22, 23, 24, 25, -1, -1, -1, -1, -1, -1, 26, 27, 28,
    29, 30, 31, 32, 33, 34, 35, 36, 37, 38, 39, 40, 41, 42, 43, 44, 45, 46, 47, 48,
    49, 50, 51, -1, -1, -1, -1, -1, -1, -1, -1, -1, -1, -1, -1, -1, -1, -1, -1, -1,
    -1, -1, -1, -1, -1, -1, -1, -1, -1, -1, -1, -1, -1, -1, -1, -1, -1, -1, -1, -1,
    -1, -1, -1, -1, -1, -1, -1, -1, -1, -1, -1, -1, -1, -1, -1, -1, -1, -1, -1, -1,
    -1, -1, -1, -1, -1, -1, -1, -1, -1, -1, -1, -1, -1, -1, -1, -1, -1, -1, -1, -1,
    -1, -1, -1, -1, -1, -1, -1, -1, -1, -1, -1, -1, -1, -1, -1, -1, -1, -1, -1, -1,
    -1, -1, -1, -1, -1, -1, -1, -1, -1, -1, -1, -1, -1, -1, -1, -1, -1, -1, -1, -1,
    -1, -1, -1, -1, -1, -1, -1, -1, -1, -1, -1, -1, -1, -1, -1, -1]

/-- One pass of the loop of `EncodeBase64`: the places in `pbase64` that are
appended, and `mode` and `left` after it. -/
def encodeBase64Step : Nat × Nat → Nat → List Nat × (Nat × Nat)
  | (0, _), enc => ([enc >>> 2], (1, (enc &&& 3) <<< 4))
  | (1, left), enc => ([left ||| enc >>> 4], (2, (enc &&& 15) <<< 2))
  | (2, left), enc => ([left ||| enc >>> 6, enc &&& 63], (0, left))
  | (mode, left), _ => ([], (mode, left))

/-- One pass of the loop of `DecodeBase64`: the bytes that are pushed, and
`mode` and `left` after it. -/
def decodeBase64Step : Nat × Nat → Nat → List Nat × (Nat × Nat)
  | (0, _), dec => ([], (1, dec))
  | (1, left), dec => ([left <<< 2 ||| dec >>> 4], (2, dec &&& 15))
  | (2, left), dec => ([left <<< 4 ||| dec >>> 2], (3, dec &&& 3))
  | (3, left), dec => ([left <<< 6 ||| dec], (0, left))
  | (mode, left), _ => ([], (mode, left))

/-- `*pfInvalid`, with what is left of the text. -/
def invalidBase64 : Nat × Nat → List UInt8 → Bool
  | (1, _), _ => true
  | (2, left), p =>
    left != 0 || p.getD 0 0 != 61 || p.getD 1 0 != 61 || decode64_table.getD (p.getD 2 0).toNat (-1) != -1
  | (3, left), p => left != 0 || p.getD 0 0 != 61 || decode64_table.getD (p.getD 1 0).toNat (-1) != -1
  | _, _ => false

def base64 : Base where
  bits := 6
  letter := fun i => pbase64.getD i 0
  table := fun c => decode64_table.getD c.toNat (-1)
  padding := 61
  encode := encodeBase64Step
  nPadding := fun mode => if mode = 1 then 2 else 1
  decode := decodeBase64Step
  invalid := invalidBase64

/-- `EncodeBase64`. -/
def encodeBase64 (pch : List UInt8) : List UInt8 := base64.encodeText pch

/-- `DecodeBase64`, with `*pfInvalid`. -/
def decodeBase64 (p : List UInt8) : List UInt8 × Bool := base64.decodeText p

/-! ## Base32 -/

def pbase32 : List UInt8 := chars "abcdefghijklmnopqrstuvwxyz234567"

def decode32_table : List Int :=
  [
    -1, -1, -1, -1, -1, -1, -1, -1, -1, -1, -1, -1, -1, -1, -1, -1, -1, -1, -1, -1,
    -1, -1, -1, -1, -1, -1, -1, -1, -1, -1, -1, -1, -1, -1, -1, -1, -1, -1, -1, -1,
    -1, -1, -1, -1, -1, -1, -1, -1, -1, -1, 26, 27, 28, 29, 30, 31, -1, -1, -1, -1,
    -1, -1, -1, -1, -1,  0,  1,  2,  3,  4,  5,  6,  7,  8,  9, 10, 11, 12, 13, 14,
    15, 16, 17, 18, 19, 20, 21, 22, 23, 24, 25, -1, -1, -1, -1, -1, -1,  0,  1,  2,
     3,  4,  5,  6,  7,  8,  9, 10, 11, 12, 13, 14, 15, 16, 17, 18, 19, 20, 21, 22,
    23, 24, 25, -1, -1, -1, -1, -1, -1, -1, -1, -1, -1, -1, -1, -1, -1, -1, -1, -1,
    -1, -1, -1, -1, -1, -1, -1, -1, -1, -1, -1, -1, -1, -1, -1, -1, -1, -1, -1, -1,
    -1, -1, -1, -1, -1, -1, -1, -1, -1, -1, -1, -1, -1, -1, -1, -1, -1, -1, -1, -1,
    -1, -1, -1, -1, -1, -1, -1, -1, -1, -1, -1, -1, -1, -1, -1, -1, -1, -1, -1, -1,
    -1, -1, -1, -1, -1, -1, -1, -1, -1, -1, -1, -1, -1, -1, -1, -1, -1, -1, -1, -1,
    -1, -1, -1, -1, -1, -1, -1, -1, -1, -1, -1, -1, -1, -1, -1, -1, -1, -1, -1, -1,
    -1, -1, -1, -1, -1, -1, -1, -1, -1, -1, -1, -1, -1, -1, -1, -1]

/-- One pass of the loop of `EncodeBase32`. -/
def encodeBase32Step : Nat × Nat → Nat → List Nat × (Nat × Nat)
  | (0, _), enc => ([enc >>> 3], (1, (enc &&& 7) <<< 2))
  | (1, left), enc => ([left ||| enc >>> 6, (enc >>> 1) &&& 31], (2, (enc &&& 1) <<< 4))
  | (2, left), enc => ([left ||| enc >>> 4], (3, (enc &&& 15) <<< 1))
  | (3, left), enc => ([left ||| enc >>> 7, (enc >>> 2) &&& 31], (4, (enc &&& 3) <<< 3))
  | (4, left), enc => ([left ||| enc >>> 5, enc &&& 31], (0, left))
  | (mode, left), _ => ([], (mode, left))

/-- One pass of the loop of `DecodeBase32`. -/
def decodeBase32Step : Nat × Nat → Nat → List Nat × (Nat × Nat)
  | (0, _), dec => ([], (1, dec))
  | (1, left), dec => ([left <<< 3 ||| dec >>> 2], (2, dec &&& 3))
  | (2, left), dec => ([], (3, left <<< 5 ||| dec))
  | (3, left), dec => ([left <<< 1 ||| dec >>> 4], (4, dec &&& 15))
  | (4, left), dec => ([left <<< 4 ||| dec >>> 1], (5, dec &&& 1))
  | (5, left), dec => ([], (6, left <<< 5 ||| dec))
  | (6, left), dec => ([left <<< 2 ||| dec >>> 3], (7, dec &&& 7))
  | (7, left), dec => ([left <<< 5 ||| dec], (0, left))
  | (mode, left), _ => ([], (mode, left))

/-- The first `n` characters are padding, and no letter follows them. -/
def paddedBase32 (n : Nat) (p : List UInt8) : Bool :=
  (List.range n).all (fun i => p.getD i 0 == 61) && decode32_table.getD (p.getD n 0).toNat (-1) == -1

/-- `*pfInvalid`, with what is left of the text. -/
def invalidBase32 : Nat × Nat → List UInt8 → Bool
  | (1, _), _ => true
  | (3, _), _ => true
  | (6, _), _ => true
  | (2, left), p => left != 0 || !paddedBase32 6 p
  | (4, left), p => left != 0 || !paddedBase32 4 p
  | (5, left), p => left != 0 || !paddedBase32 3 p
  | (7, left), p => left != 0 || !paddedBase32 1 p
  | _, _ => false

def base32 : Base where
  bits := 5
  letter := fun i => pbase32.getD i 0
  table := fun c => decode32_table.getD c.toNat (-1)
  padding := 61
  encode := encodeBase32Step
  nPadding := fun mode => [0, 6, 4, 3, 1].getD mode 0
  decode := decodeBase32Step
  invalid := invalidBase32

/-- `EncodeBase32`. -/
def encodeBase32 (pch : List UInt8) : List UInt8 := base32.encodeText pch

/-- `DecodeBase32`, with `*pfInvalid`. -/
def decodeBase32 (p : List UInt8) : List UInt8 × Bool := base32.decodeText p

/-! ## What the loops have in hand -/

/-- The writer has `counts[mode]` bits in hand, at the top of `left`. -/
def Carries (bits : Nat) (counts : List Nat) (s : Nat × Nat) (held : List Bool) : Prop :=
  ∃ n x, counts[s.1]? = some n ∧ x < 2 ^ n ∧ held = toBits n x ∧ (s.1 ≠ 0 → s.2 = x <<< (bits - n))

/-- The reader has `counts[mode]` bits in hand, in `left`. -/
def Holds (counts : List Nat) (s : Nat × Nat) (held : List Bool) : Prop :=
  ∃ n, counts[s.1]? = some n ∧ held = toBits n s.2 ∧ (s.1 ≠ 0 → s.2 < 2 ^ n)

theorem shiftRight_lt {x n m : Nat} (h : x < 2 ^ (n + m)) : x >>> m < 2 ^ n := by
  rw [Nat.shiftRight_eq_div_pow, Nat.div_lt_iff_lt_mul (Nat.two_pow_pos m), ← Nat.pow_add]
  exact h

theorem shiftLeft_or_lt {x y n m : Nat} (hx : x < 2 ^ n) (hy : y < 2 ^ m) : x <<< m ||| y < 2 ^ (n + m) := by
  refine Nat.or_lt_two_pow ?_ (hy.trans_le (Nat.pow_le_pow_right (by decide) (Nat.le_add_left m n)))
  rw [Nat.shiftLeft_eq, Nat.pow_add]
  exact Nat.mul_lt_mul_of_pos_right hx (Nat.two_pow_pos m)

theorem testBit_high {x n : Nat} (h : x < 2 ^ n) : ∀ i, n ≤ i → x.testBit i = false := fun i hi =>
  Nat.testBit_lt_two_pow (h.trans_le (Nat.pow_le_pow_right (by decide) hi))

theorem encodeBase64_regroups : Regroups 8 6 encodeBase64Step (Carries 6 [0, 2, 4]) := by
  constructor
  intro ⟨mode, left⟩ held enc ⟨n, x, hn, hx, hheld, hleft⟩ henc
  subst hheld
  have hhigh := testBit_high henc
  match mode, hn, hleft with
  | 0, hn, _ =>
    obtain rfl := Option.some.inj hn
    refine ⟨?_, _, ⟨2, enc &&& 3, rfl, Nat.and_lt_two_pow _ (by decide), rfl, fun _ => rfl⟩, ?_⟩
    · simpa [encodeBase64Step] using shiftRight_lt (n := 6) henc
    · simp +decide [encodeBase64Step, toBits]
  | 1, hn, hleft =>
    obtain rfl := Option.some.inj hn
    obtain rfl := hleft Nat.one_ne_zero
    refine ⟨?_, _, ⟨4, enc &&& 15, rfl, Nat.and_lt_two_pow _ (by decide), rfl, fun _ => rfl⟩, ?_⟩
    · simpa [encodeBase64Step] using shiftLeft_or_lt (n := 2) hx (shiftRight_lt (n := 4) henc)
    · simp +decide [encodeBase64Step, toBits, hhigh]
  | 2, hn, hleft =>
    obtain rfl := Option.some.inj hn
    obtain rfl := hleft (Nat.succ_ne_zero 1)
    refine ⟨?_, _, ⟨0, 0, rfl, by decide, rfl, fun h => absurd rfl h⟩, ?_⟩
    · simpa [encodeBase64Step] using
        ⟨shiftLeft_or_lt (n := 4) hx (shiftRight_lt (n := 2) henc), Nat.and_lt_two_pow (n := 6) enc (by decide : 63 < 2 ^ 6)⟩
    · simp +decide [encodeBase64Step, toBits, hhigh]
  | m + 3, hn, _ => simp at hn

theorem decodeBase64_regroups : Regroups 6 8 decodeBase64Step (Holds [0, 6, 4, 2]) := by
  constructor
  intro ⟨mode, left⟩ held dec ⟨n, hn, hheld, hleft⟩ hdec
  subst hheld
  have hhigh := testBit_high hdec
  match mode, hn, hleft with
  | 0, hn, _ =>
    obtain rfl := Option.some.inj hn
    exact ⟨nofun, _, ⟨6, rfl, rfl, fun _ => hdec⟩, by simp [decodeBase64Step, toBits]⟩
  | 1, hn, hleft =>
    obtain rfl := Option.some.inj hn
    refine ⟨?_, _, ⟨4, rfl, rfl, fun _ => Nat.and_lt_two_pow _ (by decide)⟩, ?_⟩
    · simpa [decodeBase64Step] using shiftLeft_or_lt (n := 6) (hleft Nat.one_ne_zero) (shiftRight_lt (n := 2) hdec)
    · simp +decide [decodeBase64Step, toBits, hhigh]
  | 2, hn, hleft =>
    obtain rfl := Option.some.inj hn
    refine ⟨?_, _, ⟨2, rfl, rfl, fun _ => Nat.and_lt_two_pow _ (by decide)⟩, ?_⟩
    · simpa [decodeBase64Step] using shiftLeft_or_lt (n := 4) (hleft (Nat.succ_ne_zero 1)) (shiftRight_lt (n := 4) hdec)
    · simp +decide [decodeBase64Step, toBits, hhigh]
  | 3, hn, hleft =>
    obtain rfl := Option.some.inj hn
    refine ⟨?_, _, ⟨0, rfl, rfl, fun h => absurd rfl h⟩, ?_⟩
    · simpa [decodeBase64Step] using shiftLeft_or_lt (n := 2) (hleft (Nat.succ_ne_zero 2)) hdec
    · simp +decide [decodeBase64Step, toBits, hhigh]
  | m + 4, hn, _ => simp at hn

theorem encodeBase32_regroups : Regroups 8 5 encodeBase32Step (Carries 5 [0, 3, 1, 4, 2]) := by
  constructor
  intro ⟨mode, left⟩ held enc ⟨n, x, hn, hx, hheld, hleft⟩ henc
  subst hheld
  have hhigh := testBit_high henc
  have hlow : ∀ y, y &&& 31 < 2 ^ 5 := fun y => Nat.and_lt_two_pow y (by decide)
  match mode, hn, hleft with
  | 0, hn, _ =>
    obtain rfl := Option.some.inj hn
    refine ⟨?_, _, ⟨3, enc &&& 7, rfl, Nat.and_lt_two_pow _ (by decide), rfl, fun _ => rfl⟩, ?_⟩
    · simpa [encodeBase32Step] using shiftRight_lt (n := 5) henc
    · simp +decide [encodeBase32Step, toBits]
  | 1, hn, hleft =>
    obtain rfl := Option.some.inj hn
    obtain rfl := hleft Nat.one_ne_zero
    refine ⟨?_, _, ⟨1, enc &&& 1, rfl, Nat.and_lt_two_pow _ (by decide), rfl, fun _ => rfl⟩, ?_⟩
    · simpa [encodeBase32Step] using ⟨shiftLeft_or_lt (n := 3) hx (shiftRight_lt (n := 2) henc), hlow (enc >>> 1)⟩
    · simp +decide [encodeBase32Step, toBits, hhigh]
  | 2, hn, hleft =>
    obtain rfl := Option.some.inj hn
    obtain rfl := hleft (Nat.succ_ne_zero 1)
    refine ⟨?_, _, ⟨4, enc &&& 15, rfl, Nat.and_lt_two_pow _ (by decide), rfl, fun _ => rfl⟩, ?_⟩
    · simpa [encodeBase32Step] using shiftLeft_or_lt (n := 1) hx (shiftRight_lt (n := 4) henc)
    · simp +decide [encodeBase32Step, toBits, hhigh]
  | 3, hn, hleft =>
    obtain rfl := Option.some.inj hn
    obtain rfl := hleft (Nat.succ_ne_zero 2)
    refine ⟨?_, _, ⟨2, enc &&& 3, rfl, Nat.and_lt_two_pow _ (by decide), rfl, fun _ => rfl⟩, ?_⟩
    · simpa [encodeBase32Step] using ⟨shiftLeft_or_lt (n := 4) hx (shiftRight_lt (n := 1) henc), hlow (enc >>> 2)⟩
    · simp +decide [encodeBase32Step, toBits, hhigh]
  | 4, hn, hleft =>
    obtain rfl := Option.some.inj hn
    obtain rfl := hleft (Nat.succ_ne_zero 3)
    refine ⟨?_, _, ⟨0, 0, rfl, by decide, rfl, fun h => absurd rfl h⟩, ?_⟩
    · simpa [encodeBase32Step] using ⟨shiftLeft_or_lt (n := 2) hx (shiftRight_lt (n := 3) henc), hlow enc⟩
    · simp +decide [encodeBase32Step, toBits, hhigh]
  | m + 5, hn, _ => simp at hn

theorem decodeBase32_regroups : Regroups 5 8 decodeBase32Step (Holds [0, 5, 2, 7, 4, 1, 6, 3]) := by
  constructor
  rintro ⟨mode, left⟩ held dec ⟨n, hn, hheld, hleft⟩ hdec
  subst hheld
  have hhigh := testBit_high hdec
  obtain hlt | ⟨m, rfl⟩ := (Nat.lt_or_ge mode 8).imp_right Nat.exists_eq_add_of_le'
  · interval_cases mode
    · obtain rfl := Option.some.inj hn
      exact ⟨List.forall_mem_nil _, _, ⟨5, rfl, rfl, fun _ => hdec⟩, by simp [decodeBase32Step, toBits]⟩
    · obtain rfl := Option.some.inj hn
      refine ⟨?_, _, ⟨2, rfl, rfl, fun _ => Nat.and_lt_two_pow _ (by decide)⟩, ?_⟩
      · simpa [decodeBase32Step] using shiftLeft_or_lt (n := 5) (hleft Nat.one_ne_zero) (shiftRight_lt (n := 3) hdec)
      · simp +decide [decodeBase32Step, toBits, hhigh]
    · obtain rfl := Option.some.inj hn
      refine ⟨List.forall_mem_nil _, _, ⟨7, rfl, rfl, fun _ => shiftLeft_or_lt (n := 2) (hleft (Nat.succ_ne_zero 1)) hdec⟩, ?_⟩
      simp +decide [decodeBase32Step, toBits, hhigh]
    · obtain rfl := Option.some.inj hn
      refine ⟨?_, _, ⟨4, rfl, rfl, fun _ => Nat.and_lt_two_pow _ (by decide)⟩, ?_⟩
      · simpa [decodeBase32Step] using shiftLeft_or_lt (n := 7) (hleft (Nat.succ_ne_zero 2)) (shiftRight_lt (n := 1) hdec)
      · simp +decide [decodeBase32Step, toBits, hhigh]
    · obtain rfl := Option.some.inj hn
      refine ⟨?_, _, ⟨1, rfl, rfl, fun _ => Nat.and_lt_two_pow _ (by decide)⟩, ?_⟩
      · simpa [decodeBase32Step] using shiftLeft_or_lt (n := 4) (hleft (Nat.succ_ne_zero 3)) (shiftRight_lt (n := 4) hdec)
      · simp +decide [decodeBase32Step, toBits, hhigh]
    · obtain rfl := Option.some.inj hn
      refine ⟨List.forall_mem_nil _, _, ⟨6, rfl, rfl, fun _ => shiftLeft_or_lt (n := 1) (hleft (Nat.succ_ne_zero 4)) hdec⟩, ?_⟩
      simp +decide [decodeBase32Step, toBits, hhigh]
    · obtain rfl := Option.some.inj hn
      refine ⟨?_, _, ⟨3, rfl, rfl, fun _ => Nat.and_lt_two_pow _ (by decide)⟩, ?_⟩
      · simpa [decodeBase32Step] using shiftLeft_or_lt (n := 6) (hleft (Nat.succ_ne_zero 5)) (shiftRight_lt (n := 2) hdec)
      · simp +decide [decodeBase32Step, toBits, hhigh]
    · obtain rfl := Option.some.inj hn
      refine ⟨?_, _, ⟨0, rfl, rfl, fun h => absurd rfl h⟩, ?_⟩
      · simpa [decodeBase32Step] using shiftLeft_or_lt (n := 3) (hleft (Nat.succ_ne_zero 6)) hdec
      · simp +decide [decodeBase32Step, toBits, hhigh]
  · simp at hn

/-! ## Both are bases -/

/-- The padding for the bits that are not used. -/
def padsBase64 : Nat → Option Nat
  | 0 => some 0
  | 4 => some 2
  | 2 => some 1
  | _ => none

/-- The padding for the bits that are not used. -/
def padsBase32 : Nat → Option Nat
  | 0 => some 0
  | 2 => some 6
  | 4 => some 4
  | 1 => some 3
  | 3 => some 1
  | _ => none

/-- `tolower`, of the letters. -/
def tolower (c : UInt8) : UInt8 := if 65 ≤ c ∧ c ≤ 90 then c + 32 else c

/-- A fact about every character. -/
theorem forall_char {P : UInt8 → Prop} (h : ∀ n < 256, P (UInt8.ofNat n)) (c : UInt8) : P c := by
  have := h c.toNat c.toNat_lt
  rwa [UInt8.ofNat_toNat] at this

theorem invalidBase64_iff {s : Nat × Nat} {b : List Bool} {p : List UInt8} (h : Holds [0, 6, 4, 2] s b) (hp : base64.Ends p) :
    invalidBase64 s p = false ↔ ∃ n, padsBase64 b.length = some n ∧ b = List.replicate b.length false ∧
      ∃ t, base64.Ends t ∧ p = List.replicate n base64.padding ++ t := by
  obtain ⟨mode, left⟩ := s
  obtain ⟨n, hn, hheld, hleft⟩ := h
  subst hheld
  have hchecked : ∀ {n m}, padsBase64 n = some m → left < 2 ^ n → _ := fun hpads hlt =>
    @Base.checked_iff base64 (by decide) (by decide) padsBase64 _ _ _ hpads hlt p
  match mode, hn, hleft with
  | 0, hn, _ =>
    obtain rfl := Option.some.inj hn
    exact iff_of_true rfl ⟨0, rfl, rfl, p, hp, rfl⟩
  | 1, hn, _ =>
    obtain rfl := Option.some.inj hn
    simp [invalidBase64, padsBase64]
  | 2, hn, hleft =>
    obtain rfl := Option.some.inj hn
    rw [← hchecked rfl (hleft (Nat.succ_ne_zero 1))]
    simp [invalidBase64, Base.padded, List.range_succ, base64, and_assoc]
  | 3, hn, hleft =>
    obtain rfl := Option.some.inj hn
    rw [← hchecked rfl (hleft (Nat.succ_ne_zero 2))]
    simp [invalidBase64, Base.padded, List.range_succ, base64, and_assoc]
  | m + 4, hn, _ => simp at hn

theorem invalidBase32_iff {s : Nat × Nat} {b : List Bool} {p : List UInt8} (h : Holds [0, 5, 2, 7, 4, 1, 6, 3] s b)
    (hp : base32.Ends p) :
    invalidBase32 s p = false ↔ ∃ n, padsBase32 b.length = some n ∧ b = List.replicate b.length false ∧
      ∃ t, base32.Ends t ∧ p = List.replicate n base32.padding ++ t := by
  obtain ⟨mode, left⟩ := s
  obtain ⟨n, hn, hheld, hleft⟩ := h
  subst hheld
  have hchecked : ∀ {n m}, padsBase32 n = some m → left < 2 ^ n → _ := fun hpads hlt =>
    @Base.checked_iff base32 (by decide) (by decide) padsBase32 _ _ _ hpads hlt p
  match mode, hn, hleft with
  | 0, hn, _ =>
    obtain rfl := Option.some.inj hn
    exact iff_of_true rfl ⟨0, rfl, rfl, p, hp, rfl⟩
  | 1, hn, _ | 3, hn, _ | 6, hn, _ =>
    obtain rfl := Option.some.inj hn
    simp [invalidBase32, padsBase32]
  | 2, hn, hleft =>
    obtain rfl := Option.some.inj hn
    exact hchecked rfl (hleft (Nat.succ_ne_zero 1))
  | 4, hn, hleft =>
    obtain rfl := Option.some.inj hn
    exact hchecked rfl (hleft (Nat.succ_ne_zero 3))
  | 5, hn, hleft =>
    obtain rfl := Option.some.inj hn
    exact hchecked rfl (hleft (Nat.succ_ne_zero 4))
  | 7, hn, hleft =>
    obtain rfl := Option.some.inj hn
    exact hchecked rfl (hleft (Nat.succ_ne_zero 6))
  | m + 8, hn, _ => simp at hn

/-- What the writer has in hand, filled up to a digit. -/
theorem carried_of_carries {B : Base} {pads : Nat → Option Nat} {counts : List Nat} (hcounts : ∀ n ∈ counts, n < B.bits)
    (hzero : counts[0]? = some 0)
    (hpads : ∀ mode < counts.length, mode ≠ 0 → pads (B.bits - counts.getD mode 0) = some (B.nPadding mode))
    {mode left : Nat} {b : List Bool} (h : Carries B.bits counts (mode, left) b) :
    mode = 0 ∧ b = [] ∨ mode ≠ 0 ∧ left < 2 ^ B.bits ∧ ∃ u, b.length + u = B.bits ∧
      toBits B.bits left = b ++ List.replicate u false ∧ pads u = some (B.nPadding mode) := by
  obtain ⟨n, x, hn, hx, rfl, hleft⟩ := h
  have hn : counts[mode]? = some n := hn
  by_cases hmode : mode = 0
  · rw [hmode, hzero] at hn
    obtain rfl := Option.some.inj hn
    exact .inl ⟨hmode, rfl⟩
  · have hlt := hcounts n (List.mem_of_getElem? hn)
    have hpad := hpads mode (List.getElem?_eq_some_iff.mp hn).1 hmode
    rw [List.getD_eq_getElem?_getD, hn, Option.getD_some] at hpad
    obtain ⟨u, hu⟩ : ∃ u, B.bits = n + u := ⟨B.bits - n, by omega⟩
    have hunused : B.bits - n = u := by omega
    obtain rfl := (hleft hmode).symm
    rw [hunused] at hpad
    refine .inr ⟨hmode, ?_, u, by rw [BitGroups.length_toBits, hu], ?_, hpad⟩
    · rw [hunused, hu, Nat.shiftLeft_eq, Nat.pow_add]
      exact Nat.mul_lt_mul_of_pos_right hx (Nat.two_pow_pos u)
    · rw [hunused, hu, BitGroups.toBits_add, Nat.shiftLeft_shiftRight]
      exact congrArg _ ((BitGroups.toBits_eq_zeros_iff u _).mpr (by simp [Nat.shiftLeft_eq]))

theorem length_lt_of_holds {counts : List Nat} (hcounts : ∀ n ∈ counts, n < 8) {s : Nat × Nat} {b : List Bool}
    (h : Holds counts s b) : b.length < 8 := by
  obtain ⟨n, hn, rfl, -⟩ := h
  simpa using hcounts n (List.mem_of_getElem? hn)

theorem lawful_base64 : base64.Lawful id padsBase64 (Carries 6 [0, 2, 4]) (Holds [0, 6, 4, 2]) where
  bits_le := by decide
  table_letter := by decide +kernel
  letter_table := forall_char (by decide +kernel)
  table_padding := by decide
  fold_padding := rfl
  pads_zero := rfl
  pads_lt := by
    intro u n h
    unfold padsBase64 at h
    split at h
    · exact Nat.succ_pos 5
    · decide
    · decide
    · cases h
  carried_start := ⟨0, 0, rfl, by decide, rfl, fun h => absurd rfl h⟩
  held_start := ⟨0, rfl, rfl, fun h => absurd rfl h⟩
  encodes := encodeBase64_regroups
  decodes := decodeBase64_regroups
  carried := @carried_of_carries base64 padsBase64 [0, 2, 4] (by decide) rfl (by decide)
  held_lt := length_lt_of_holds (by decide)
  invalid := invalidBase64_iff

theorem lawful_base32 :
    base32.Lawful tolower padsBase32 (Carries 5 [0, 3, 1, 4, 2]) (Holds [0, 5, 2, 7, 4, 1, 6, 3]) where
  bits_le := by decide
  table_letter := by decide +kernel
  letter_table := forall_char (by decide +kernel)
  table_padding := by decide
  fold_padding := rfl
  pads_zero := rfl
  pads_lt := by
    intro u n h
    unfold padsBase32 at h
    split at h
    · exact Nat.succ_pos 4
    · decide
    · decide
    · decide
    · decide
    · cases h
  carried_start := ⟨0, 0, rfl, by decide, rfl, fun h => absurd rfl h⟩
  held_start := ⟨0, rfl, rfl, fun h => absurd rfl h⟩
  encodes := encodeBase32_regroups
  decodes := decodeBase32_regroups
  carried := @carried_of_carries base32 padsBase32 [0, 3, 1, 4, 2] (by decide) rfl (by decide)
  held_lt := length_lt_of_holds (by decide)
  invalid := invalidBase32_iff

/-! ## Round trips -/

theorem decodeBase64_encodeBase64 (vch : List UInt8) : decodeBase64 (encodeBase64 vch) = (vch, false) :=
  Base.decodeText_encodeText lawful_base64 vch

theorem decodeBase32_encodeBase32 (vch : List UInt8) : decodeBase32 (encodeBase32 vch) = (vch, false) :=
  Base.decodeText_encodeText lawful_base32 vch

theorem tolower_encodeBase32 (vch : List UInt8) : (encodeBase32 vch).map tolower = encodeBase32 vch := by
  obtain ⟨ds, n, hspells, htext⟩ := Base.encodeText_spells lawful_base32 vch
  have hletter : ∀ d < 2 ^ 5, tolower (base32.letter d) = base32.letter d := by decide +kernel
  rw [encodeBase32, htext, List.map_append, List.map_replicate, List.map_map]
  exact congrArg (· ++ _) (List.map_congr_left fun d hd => hletter d (hspells.bound d hd))

/-- What is read is written again, if it is not reported as invalid. -/
def Rewritten64 (s : List UInt8) : Prop := (decodeBase64 s).2 = false → encodeBase64 (decodeBase64 s).1 = s

/-- The same up to the case of letters. -/
def Rewritten32 (s : List UInt8) : Prop :=
  (decodeBase32 s).2 = false → (encodeBase32 (decodeBase32 s).1).map tolower = s.map tolower

/-- **What is written is read back, and the texts that are accepted but not
written again** are those where something stands behind a whole text, starting
with a character that is no letter. -/
theorem baseTexts_iff (vch s : List UInt8) :
    decodeBase64 (encodeBase64 vch) = (vch, false) ∧ decodeBase32 (encodeBase32 vch) = (vch, false) ∧
      (Rewritten64 s ↔ ¬ base64.Continued padsBase64 s) ∧ (Rewritten32 s ↔ ¬ base32.Continued padsBase32 s) := by
  refine ⟨decodeBase64_encodeBase64 vch, decodeBase32_encodeBase32 vch, ?_, ?_⟩
  · have h := Base.encodeText_decodeText_iff lawful_base64 s
    rwa [List.map_id] at h
  · rw [Rewritten32, tolower_encodeBase32]
    exact Base.encodeText_decodeText_iff lawful_base32 s

/-- Three bytes and something that is no text are accepted. -/
theorem not_rewritten_continued :
    ¬ ((∀ vch, decodeBase64 (encodeBase64 vch) = (vch, false)) ∧ (∀ vch, decodeBase32 (encodeBase32 vch) = (vch, false)) ∧
      (∀ s, Rewritten64 s) ∧ ∀ s, Rewritten32 s) := by
  intro ⟨_, _, h, _⟩
  exact absurd (h (chars "YWJj!") (by decide +kernel)) (by decide +kernel)

end Pinkcoin
