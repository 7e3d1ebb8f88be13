/-
Amounts as text: coins, a point, and the part of a coin. `FormatMoney` prints
eight digits after the point and trims zeros down to two of them; `ParseMoney`
takes any number up to eight. A text is its bytes; `ParseMoney` sees it up to
the first NUL. The reader computes in 64 bits, so each result passes `int64`.
-/
import Mathlib.Data.List.TakeWhile
import Mathlib.Tactic.FieldSimp
import Pinkcoin.Lib.Decimal
import Pinkcoin.Lib.StateError
import Pinkcoin.Types

namespace Pinkcoin

open Decimal StateError

/-! ## Printing -/

/-- `%08d` of a number that is not negative. -/
def print08 (n : Nat) : List UInt8 := List.replicate (8 - (print n).length) 48 ++ print n

/-- How many zeros go, from index `i` down. -/
def countTrim (str : List UInt8) : Nat → Nat
  | 0 => 0
  | i + 1 => if str[i + 1]? = some 48 ∧ (str[i + 1 - 2]?).any isDigit then countTrim str i + 1 else 0

/-- `FormatMoney`. -/
def formatMoney (n : Int) (fPlus : Bool) : List UInt8 :=
  let nAbs := n.natAbs
  let quotient := nAbs / COIN.natAbs
  let remainder := nAbs % COIN.natAbs
  let str := print quotient ++ 46 :: print08 remainder
  let str := str.take (str.length - countTrim str (str.length - 1))
  if n < 0 then 45 :: str else if fPlus ∧ 0 < n then 43 :: str else str

/-! ## Reading -/

inductive MoneyError
  /-- The function returns false. -/
  | rejected
  | overflow
  deriving DecidableEq

/-- A result in 64 bits. -/
def int64 (n : Int) : Except MoneyError Int := if -2 ^ 63 ≤ n ∧ n < 2 ^ 63 then pure n else throw .overflow

/-- The digits after the point, while there is a multiplier for them. -/
def readUnits : List UInt8 → Int → Int → Except MoneyError (Int × List UInt8)
  | [], _, nUnits => pure (nUnits, [])
  | c :: p, nMult, nUnits =>
    if isDigit c ∧ 0 < nMult then do
      let units ← int64 (nMult * ((c.toNat - 48 : Nat) : Int))
      let nUnits ← int64 (nUnits + units)
      readUnits p (nMult / 10) nUnits
    else pure (nUnits, c :: p)

/-- The first loop: the digits of the whole coins, then a point or a blank. -/
def readWhole : List UInt8 → List UInt8 → Except MoneyError (List UInt8 × Int × List UInt8)
  | [], strWhole => pure (strWhole, 0, [])
  | c :: p, strWhole =>
    if c = 46 then do
      let (nUnits, p) ← readUnits p (CENT * 10) 0
      pure (strWhole, nUnits, p)
    else if isBlank c then pure (strWhole, 0, c :: p)
    else if !isDigit c then throw .rejected
    else readWhole p (strWhole ++ [c])

/-- `ParseMoney`. -/
def parseMoney (str : List UInt8) : Except MoneyError Int := do
  let pszIn := str.takeWhile (· ≠ 0)
  let (strWhole, nUnits, p) ← readWhole (pszIn.dropWhile isBlank) []
  rejectIf (¬ p.all isBlank) MoneyError.rejected
  rejectIf (10 < strWhole.length) MoneyError.rejected
  rejectIf (nUnits < 0 ∨ COIN < nUnits) MoneyError.rejected
  let nWhole := (strtoll strWhole).1
  let coins ← int64 (nWhole * COIN)
  int64 (coins + nUnits)

/-! ## Eight digits -/

theorem print08_isDigit (n : Nat) : ∀ c ∈ print08 n, isDigit c = true := by
  intro c hc
  rcases List.mem_append.mp hc with hc | hc
  · rw [List.eq_of_mem_replicate hc]
    rfl
  · exact print_isDigit n c hc

theorem value_print08 (n : Nat) : value (print08 n) = n := by
  rw [print08, value_append, value_zeros, Nat.zero_mul, Nat.zero_add, value_print]

theorem length_print08 {n : Nat} (h : n < 10 ^ 8) : (print08 n).length = 8 := by
  have hle : (print n).length ≤ 8 := length_digits_le (by decide) h
  rw [print08, List.length_append, List.length_replicate]
  omega

/-! ## What is trimmed -/

section Trim

variable {w f : List UInt8}

theorem getElem?_after (w f : List UInt8) (j : Nat) : (w ++ 46 :: f)[w.length + 1 + j]? = f[j]? := by
  rw [List.getElem?_append_right (by omega)]
  have hat : w.length + 1 + j - w.length = j + 1 := by omega
  rw [hat, List.getElem?_cons_succ]

/-- What is cut off are zeros, and two digits stay. -/
theorem countTrim_spec (hdigits : ∀ c ∈ f, isDigit c = true) {k : Nat} (hk : k + 2 ≤ f.length) :
    countTrim (w ++ 46 :: f) (w.length + 2 + k) ≤ k ∧
      f.take (k + 2) = f.take (k + 2 - countTrim (w ++ 46 :: f) (w.length + 2 + k)) ++
        List.replicate (countTrim (w ++ 46 :: f) (w.length + 2 + k)) 48 := by
  induction k with
  | zero =>
    -- two places before the second digit is the point
    have hpoint : (w ++ 46 :: f)[w.length + 1 + 1 - 2]? = some 46 := by
      have hat : w.length + 1 + 1 - 2 = w.length := by omega
      rw [hat, List.getElem?_append_right (Nat.le_refl _), Nat.sub_self]
      rfl
    have hzero : countTrim (w ++ 46 :: f) (w.length + 1 + 1) = 0 := by
      rw [countTrim, if_neg]
      rintro ⟨-, hdigit⟩
      rw [hpoint] at hdigit
      exact absurd hdigit (by decide)
    rw [Nat.add_zero, hzero]
    exact ⟨Nat.le_refl 0, by simp⟩
  | succ k ih =>
    obtain ⟨hle, htake⟩ := ih (by omega)
    have hat : w.length + 2 + (k + 1) = w.length + 2 + k + 1 := rfl
    have hthis : (w ++ 46 :: f)[w.length + 2 + k + 1]? = f[k + 2]? := by
      rw [← getElem?_after w f (k + 2)]
      congr 1
      omega
    have hbefore : (w ++ 46 :: f)[w.length + 2 + k + 1 - 2]? = f[k]? := by
      rw [← getElem?_after w f k]
      congr 1
      omega
    obtain ⟨c, hc⟩ : ∃ c, f[k + 2]? = some c := ⟨_, List.getElem?_eq_getElem (by omega)⟩
    obtain ⟨d, hd⟩ : ∃ d, f[k]? = some d := ⟨_, List.getElem?_eq_getElem (by omega)⟩
    have hdigit : (f[k]?).any isDigit = true := by
      rw [hd]
      exact hdigits d (List.mem_of_getElem? hd)
    rw [hat, countTrim, hthis, hbefore]
    by_cases hzero : c = 48
    · subst hzero
      rw [if_pos ⟨hc, hdigit⟩]
      refine ⟨by omega, ?_⟩
      have hsub : k + 1 + 2 - (countTrim (w ++ 46 :: f) (w.length + 2 + k) + 1) =
          k + 2 - countTrim (w ++ 46 :: f) (w.length + 2 + k) := by omega
      have hnext : f.take (k + 1 + 2) = f.take (k + 2) ++ [48] := by
        rw [show k + 1 + 2 = k + 2 + 1 by omega, List.take_add_one, hc]
        rfl
      rw [hsub, hnext, htake, List.append_assoc, ← List.replicate_succ']
    · rw [if_neg fun h => hzero (Option.some.inj (hc.symm.trans h.1))]
      exact ⟨Nat.zero_le _, by simp⟩

/-- The text without its sign: whole coins, the point, and from two to eight
digits. -/
structure Printed (n : Nat) (body whole fraction : List UInt8) : Prop where
  shape : body = whole ++ 46 :: fraction
  whole_eq : whole = print (n / COIN.natAbs)
  fraction_digits : ∀ c ∈ fraction, isDigit c = true
  atLeast : 2 ≤ fraction.length
  atMost : fraction.length ≤ 8
  fraction_value : value fraction * 10 ^ (8 - fraction.length) = n % COIN.natAbs

end Trim

/-- The text without the sign. -/
def bodyOf (n : Nat) : List UInt8 :=
  let str := print (n / COIN.natAbs) ++ 46 :: print08 (n % COIN.natAbs)
  str.take (str.length - countTrim str (str.length - 1))

/-- The sign in front. -/
def signOf (n : Int) (fPlus : Bool) : List UInt8 := if n < 0 then [45] else if fPlus ∧ 0 < n then [43] else []

theorem formatMoney_eq (n : Int) (fPlus : Bool) : formatMoney n fPlus = signOf n fPlus ++ bodyOf n.natAbs := by
  change (if n < 0 then 45 :: bodyOf n.natAbs else if fPlus ∧ 0 < n then 43 :: bodyOf n.natAbs else bodyOf n.natAbs) = _
  rw [signOf]
  split
  · rfl
  · split <;> rfl

theorem bodyOf_printed (n : Nat) : ∃ whole fraction, Printed n (bodyOf n) whole fraction := by
  have hlength : (print08 (n % COIN.natAbs)).length = 8 := length_print08 (Nat.mod_lt _ (by decide))
  have hdigits := print08_isDigit (n % COIN.natAbs)
  have hvalue := value_print08 (n % COIN.natAbs)
  rw [bodyOf]
  generalize print08 (n % COIN.natAbs) = f at *
  generalize hw : print (n / COIN.natAbs) = w
  have hlen : (w ++ 46 :: f).length = w.length + 9 := by
    rw [List.length_append, List.length_cons, hlength]
  have hlast : w.length + 9 - 1 = w.length + 2 + 6 := by omega
  obtain ⟨hle, htake⟩ := countTrim_spec (w := w) hdigits (k := 6) (by omega)
  simp only [hlen, hlast]
  generalize countTrim (w ++ 46 :: f) (w.length + 2 + 6) = t at *
  have hall : f.take (6 + 2) = f := List.take_of_length_le (by omega)
  rw [hall] at htake
  refine ⟨w, f.take (8 - t), ?_, hw.symm, fun c hc => hdigits c (List.mem_of_mem_take hc), ?_, ?_, ?_⟩
  · have hsplit : w.length + 9 - t = w.length + (8 - t + 1) := by omega
    rw [hsplit, List.take_length_add_append, List.take_succ_cons]
  · rw [List.length_take]
    omega
  · rw [List.length_take]
    omega
  · have hrest : 8 - (f.take (8 - t)).length = t := by
      rw [List.length_take]
      omega
    rw [hrest, ← hvalue]
    conv_rhs => rw [htake, value_append, List.length_replicate, value_zeros, Nat.add_zero]

theorem Printed.whole_digits {n : Nat} {body whole fraction : List UInt8} (h : Printed n body whole fraction) :
    ∀ c ∈ whole, isDigit c = true := by
  rw [h.whole_eq]
  exact print_isDigit _

/-- The number can be told from its text. -/
theorem Printed.eq {n n' : Nat} {body whole fraction whole' fraction' : List UInt8} (h : Printed n body whole fraction)
    (h' : Printed n' body whole' fraction') : n = n' := by
  have hpoint : isDigit 46 = false := rfl
  have hsplit : ∀ {w f : List UInt8}, (∀ c ∈ w, isDigit c = true) →
      (w ++ 46 :: f).takeWhile isDigit = w ∧ (w ++ 46 :: f).dropWhile isDigit = 46 :: f := fun {w f} hw => by
    rw [List.takeWhile_append_of_pos hw, List.dropWhile_append_of_pos hw]
    simp [hpoint]
  have hbody := h.shape.symm.trans h'.shape
  have hwhole : whole = whole' := by rw [← (hsplit h.whole_digits).1, hbody, (hsplit h'.whole_digits).1]
  have hfraction : (46 :: fraction : List UInt8) = 46 :: fraction' := by
    rw [← (hsplit h.whole_digits).2, hbody, (hsplit h'.whole_digits).2]
  obtain rfl := (List.cons.inj hfraction).2
  have hquotient : n / COIN.natAbs = n' / COIN.natAbs := by
    rw [← value_print (n / COIN.natAbs), ← h.whole_eq, hwhole, h'.whole_eq, value_print]
  have hremainder : n % COIN.natAbs = n' % COIN.natAbs := by rw [← h.fraction_value, h'.fraction_value]
  rw [← Nat.div_add_mod n COIN.natAbs, hquotient, hremainder, Nat.div_add_mod]

/-- A text without a sign starts with a digit. -/
theorem Printed.head {n : Nat} {body whole fraction : List UInt8} (h : Printed n body whole fraction) :
    ∃ c rest, body = c :: rest ∧ isDigit c = true := by
  obtain ⟨c, rest, hwhole⟩ := List.exists_cons_of_ne_nil (h.whole_eq ▸ print_ne_nil _)
  refine ⟨c, rest ++ 46 :: fraction, ?_, h.whole_digits c (by simp [hwhole])⟩
  rw [h.shape, hwhole, List.cons_append]

/-- **Different amounts have different texts.** -/
theorem formatMoney_inj {a b : Int} {fPlus : Bool} (h : formatMoney a fPlus = formatMoney b fPlus) : a = b := by
  have hsplit : ∀ n : Int, (formatMoney n fPlus).takeWhile (!isDigit ·) = signOf n fPlus ∧
      (formatMoney n fPlus).dropWhile (!isDigit ·) = bodyOf n.natAbs := fun n => by
    obtain ⟨w, f, hn⟩ := bodyOf_printed n.natAbs
    obtain ⟨c, rest, hbody, hc⟩ := hn.head
    have hsign : ∀ d ∈ signOf n fPlus, (!isDigit d) = true := by
      intro d hd
      rw [signOf] at hd
      split at hd
      · rw [List.mem_singleton.mp hd]
        rfl
      · split at hd
        · rw [List.mem_singleton.mp hd]
          rfl
        · cases hd
    rw [formatMoney_eq, hbody, List.takeWhile_append_of_pos hsign, List.dropWhile_append_of_pos hsign]
    simp [hc]
  have hsign : signOf a fPlus = signOf b fPlus := by rw [← (hsplit a).1, h, (hsplit b).1]
  have hbody : bodyOf a.natAbs = bodyOf b.natAbs := by rw [← (hsplit a).2, h, (hsplit b).2]
  obtain ⟨w, f, ha⟩ := bodyOf_printed a.natAbs
  obtain ⟨w', f', hb⟩ := bodyOf_printed b.natAbs
  rw [← hbody] at hb
  have habs := ha.eq hb
  have hneg : ∀ n : Int, n < 0 ↔ signOf n fPlus = [45] := fun n => by
    rw [signOf]
    split
    next hn => exact iff_of_true hn rfl
    next hn =>
      refine iff_of_false hn ?_
      split <;> decide
  have hsame : a < 0 ↔ b < 0 := (hneg a).trans (hsign ▸ (hneg b).symm)
  omega

/-! ## What is read -/

/-- **The texts of amounts**: white space, up to ten digits, perhaps a point
with up to eight digits, white space. -/
structure AmountText (text whole fraction : List UInt8) : Prop where
  shape : ∃ before point after : List UInt8, text = before ++ (whole ++ (point ++ after)) ∧
    (∀ c ∈ before, isBlank c = true) ∧ (∀ c ∈ after, isBlank c = true) ∧
    (point = [] ∧ fraction = [] ∨ point = 46 :: fraction)
  whole_digits : ∀ c ∈ whole, isDigit c = true
  fraction_digits : ∀ c ∈ fraction, isDigit c = true
  whole_length : whole.length ≤ 10
  fraction_length : fraction.length ≤ 8

/-- What an amount's text stands for. -/
def amountOf (whole fraction : List UInt8) : Int :=
  value whole * COIN + ((value fraction * 10 ^ (8 - fraction.length) : Nat) : Int)

theorem int64_eq {n : Int} (hlow : -2 ^ 63 ≤ n) (hhigh : n < 2 ^ 63) : int64 n = .ok n := by
  rw [int64, if_pos ⟨hlow, hhigh⟩]
  rfl

/-- The fraction with `e` digits to go: those there are, and what follows
them. -/
theorem readUnits_eq {s : List UInt8} {e u : Nat} (hu : u + 10 ^ e ≤ 10 ^ 8) :
    readUnits s ((10 ^ e / 10 : Nat) : Int) (u : Int) =
      .ok (((u + value ((s.takeWhile isDigit).take e) * 10 ^ (e - ((s.takeWhile isDigit).take e).length) : Nat) : Int),
        s.drop ((s.takeWhile isDigit).take e).length) := by
  induction s generalizing e u with
  | nil =>
    rw [readUnits]
    simp [value, pure, Except.pure]
  | cons c s ih =>
    rw [readUnits]
    cases e with
    | zero =>
      rw [if_neg (by simp)]
      simp [value, pure, Except.pure]
    | succ e =>
      have hmult : 10 ^ (e + 1) / 10 = 10 ^ e := by
        rw [Nat.pow_succ]
        exact Nat.mul_div_cancel _ (by decide)
      have hpos : 0 < 10 ^ e := Nat.pow_pos (by decide)
      rw [hmult]
      by_cases hc : isDigit c = true
      · have hdigit := digit_le hc
        have hadd : 10 ^ e * (c.toNat - 48) ≤ 10 ^ e * 9 := Nat.mul_le_mul_left _ hdigit
        have hroom : u + 10 ^ e * (c.toNat - 48) + 10 ^ e ≤ 10 ^ 8 := by
          rw [Nat.pow_succ] at hu
          omega
        have hless : (10 : Nat) ^ 8 = 100000000 := by decide
        have hunits : int64 (((10 ^ e : Nat) : Int) * ((c.toNat - 48 : Nat) : Int)) =
            .ok ((10 ^ e * (c.toNat - 48) : Nat) : Int) := by
          rw [← Int.natCast_mul]
          exact int64_eq (by omega) (by omega)
        have hsum : int64 ((u : Int) + ((10 ^ e * (c.toNat - 48) : Nat) : Int)) =
            .ok ((u + 10 ^ e * (c.toNat - 48) : Nat) : Int) := by
          rw [← Int.natCast_add]
          exact int64_eq (by omega) (by omega)
        rw [if_pos ⟨hc, by omega⟩]
        refine except_bind_ok.mpr ⟨_, hunits, except_bind_ok.mpr ⟨_, hsum, ?_⟩⟩
        have hdiv : ((10 ^ e : Nat) : Int) / 10 = ((10 ^ e / 10 : Nat) : Int) := rfl
        rw [hdiv, ih hroom, List.takeWhile_cons_of_pos hc, List.take_succ_cons, List.length_cons, value_cons]
        generalize hds : (s.takeWhile isDigit).take e = ds
        have hle : ds.length ≤ e := by
          rw [← hds, List.length_take]
          exact Nat.min_le_left _ _
        have hexp : e + 1 - (ds.length + 1) = e - ds.length := by omega
        have hpow : 10 ^ e = 10 ^ ds.length * 10 ^ (e - ds.length) := by
          rw [← Nat.pow_add, Nat.add_sub_cancel' hle]
        have hvalue : u + 10 ^ e * (c.toNat - 48) + value ds * 10 ^ (e - ds.length) =
            u + ((c.toNat - 48) * 10 ^ ds.length + value ds) * 10 ^ (e - ds.length) := by
          rw [hpow]
          ring
        rw [hexp, hvalue, List.drop_succ_cons]
      · rw [if_neg fun h => hc h.1, List.takeWhile_cons_of_neg hc]
        simp [value, pure, Except.pure]

/-- All digits, up to eight, and what follows them. -/
theorem readUnits_all (q : List UInt8) : ∃ fraction p, q = fraction ++ p ∧ (∀ c ∈ fraction, isDigit c = true) ∧
    fraction.length ≤ 8 ∧ readUnits q (CENT * 10) 0 = .ok (((value fraction * 10 ^ (8 - fraction.length) : Nat) : Int), p) := by
  have hread := readUnits_eq (s := q) (e := 8) (u := 0) (by decide)
  have hpre : (q.takeWhile isDigit).take 8 <+: q := (List.take_prefix _ _).trans (List.takeWhile_prefix _)
  refine ⟨(q.takeWhile isDigit).take 8, _, (List.prefix_iff_eq_append.mp hpre).symm, fun c hc => ?_, ?_, ?_⟩
  · exact List.mem_takeWhile_imp (List.mem_of_mem_take hc)
  · rw [List.length_take]
    exact Nat.min_le_left _ _
  · rw [Nat.zero_add] at hread
    exact hread

theorem readUnits_of_blank {fraction after : List UInt8} (hdigits : ∀ c ∈ fraction, isDigit c = true)
    (hlength : fraction.length ≤ 8) (hafter : ∀ c ∈ after, isBlank c = true) :
    readUnits (fraction ++ after) (CENT * 10) 0 = .ok (((value fraction * 10 ^ (8 - fraction.length) : Nat) : Int), after) := by
  have hread := readUnits_eq (s := fraction ++ after) (e := 8) (u := 0) (by decide)
  have hstop : after.takeWhile isDigit = [] := by
    cases after with
    | nil => rfl
    | cons c after =>
      have hblank := hafter c List.mem_cons_self
      refine List.takeWhile_cons_of_neg fun hdigit => ?_
      rw [not_blank_of_isDigit hdigit] at hblank
      exact nomatch hblank
  have htake : ((fraction ++ after).takeWhile isDigit).take 8 = fraction := by
    rw [List.takeWhile_append_of_pos hdigits, hstop, List.append_nil, List.take_of_length_le hlength]
  rw [htake, List.drop_left, Nat.zero_add] at hread
  exact hread

theorem readWhole_digits {ds : List UInt8} (h : ∀ c ∈ ds, isDigit c = true) (rest w : List UInt8) :
    readWhole (ds ++ rest) w = readWhole rest (w ++ ds) := by
  induction ds generalizing w with
  | nil => rw [List.nil_append, List.append_nil]
  | cons c ds ih =>
    have hc := h c List.mem_cons_self
    have hpoint : c ≠ 46 := by
      rintro rfl
      exact absurd hc (by decide)
    rw [List.cons_append, readWhole, if_neg hpoint, not_blank_of_isDigit hc, if_neg Bool.false_ne_true, hc,
      if_neg (by decide), ih fun d hd => h d (List.mem_cons_of_mem _ hd), List.append_assoc, List.singleton_append]

/-- What the first loop leaves: the digits so far, and what follows them. -/
theorem readWhole_cases (s w : List UInt8) : ∃ ds rest, s = ds ++ rest ∧ (∀ c ∈ ds, isDigit c = true) ∧
    (readWhole s w = .ok (w ++ ds, 0, rest) ∨
      (∃ q nUnits p, rest = 46 :: q ∧ readUnits q (CENT * 10) 0 = .ok (nUnits, p) ∧ readWhole s w = .ok (w ++ ds, nUnits, p)) ∨
      readWhole s w = .error .rejected) := by
  induction s generalizing w with
  | nil => exact ⟨[], [], rfl, nofun, .inl (by simp [readWhole, pure, Except.pure])⟩
  | cons c s ih =>
    rw [readWhole]
    by_cases hpoint : c = 46
    · subst hpoint
      obtain ⟨fraction, p, -, -, -, hunits⟩ := readUnits_all s
      refine ⟨[], 46 :: s, rfl, nofun, .inr (.inl ⟨s, _, p, rfl, hunits, ?_⟩)⟩
      rw [if_pos rfl, List.append_nil]
      exact except_bind_ok.mpr ⟨_, hunits, rfl⟩
    · rw [if_neg hpoint]
      by_cases hblank : isBlank c = true
      · refine ⟨[], c :: s, rfl, nofun, .inl ?_⟩
        rw [if_pos hblank, List.append_nil]
        rfl
      · rw [if_neg hblank]
        by_cases hdigit : isDigit c = true
        · rw [hdigit, if_neg (by decide)]
          obtain ⟨ds, rest, rfl, hds, hread⟩ := ih (w ++ [c])
          rw [List.append_assoc, List.singleton_append] at hread
          refine ⟨c :: ds, rest, rfl, fun d hd => ?_, hread⟩
          rcases List.mem_cons.mp hd with rfl | hd
          · exact hdigit
          · exact hds d hd
        · refine ⟨[], c :: s, rfl, nofun, .inr (.inr ?_)⟩
          rw [if_pos (by simpa using hdigit)]
          rfl

/-- The end of `ParseMoney` on digits of the right number: 64 bits are enough. -/
theorem parseEnd_eq {whole fraction : List UInt8} (hwhole : ∀ c ∈ whole, isDigit c = true)
    (hfraction : ∀ c ∈ fraction, isDigit c = true) (hlength : whole.length ≤ 10) (hlength' : fraction.length ≤ 8) :
    ¬ (((value fraction * 10 ^ (8 - fraction.length) : Nat) : Int) < 0 ∨
        COIN < ((value fraction * 10 ^ (8 - fraction.length) : Nat) : Int)) ∧
      int64 ((strtoll whole).1 * COIN) = .ok (value whole * COIN) ∧
      int64 (value whole * COIN + ((value fraction * 10 ^ (8 - fraction.length) : Nat) : Int)) = .ok (amountOf whole fraction) := by
  have hlt : value whole < 10 ^ 10 := Nat.lt_of_lt_of_le (value_lt hwhole) (Nat.pow_le_pow_right (by decide) hlength)
  have hunits : value fraction * 10 ^ (8 - fraction.length) < 10 ^ 8 := by
    calc value fraction * 10 ^ (8 - fraction.length)
        < 10 ^ fraction.length * 10 ^ (8 - fraction.length) :=
          Nat.mul_lt_mul_of_pos_right (value_lt hfraction) (Nat.pow_pos (by decide))
      _ = 10 ^ 8 := by rw [← Nat.pow_add, Nat.add_sub_cancel' hlength']
  have hten : (10 : Nat) ^ 10 = 10000000000 := by decide
  have height : (10 : Nat) ^ 8 = 100000000 := by decide
  rw [strtoll_digits hwhole (by omega)]
  simp only [COIN, amountOf]
  refine ⟨by omega, int64_eq (by omega) (by omega), int64_eq (by omega) (by omega)⟩

/-- **The texts of amounts are read**, each as what it stands for. -/
theorem parseMoney_of_text {str whole fraction : List UInt8} (h : AmountText (str.takeWhile (· ≠ 0)) whole fraction) :
    parseMoney str = .ok (amountOf whole fraction) := by
  obtain ⟨before, point, after, htext, hbefore, hafter, hpoint⟩ := h.shape
  obtain ⟨hrange, hcoins, hsum⟩ := parseEnd_eq h.whole_digits h.fraction_digits h.whole_length h.fraction_length
  -- without a digit or a point all of it is skipped as white space
  have hread : ∃ p, readWhole ((str.takeWhile (· ≠ 0)).dropWhile isBlank) [] =
      .ok (whole, ((value fraction * 10 ^ (8 - fraction.length) : Nat) : Int), p) ∧ ∀ c ∈ p, isBlank c = true := by
    rw [htext, List.dropWhile_append_of_pos hbefore]
    have hrest : ∃ p, readWhole (point ++ after) ([] ++ whole) =
        .ok (whole, ((value fraction * 10 ^ (8 - fraction.length) : Nat) : Int), p) ∧ ∀ c ∈ p, isBlank c = true := by
      rcases hpoint with ⟨rfl, rfl⟩ | rfl
      · refine ⟨after, ?_, hafter⟩
        rw [List.nil_append, List.nil_append]
        cases after with
        | nil => rfl
        | cons c after =>
          have hblank := hafter c List.mem_cons_self
          have hne : c ≠ 46 := by
            rintro rfl
            exact absurd hblank (by decide)
          rw [readWhole, if_neg hne, if_pos hblank]
          rfl
      · refine ⟨after, ?_, hafter⟩
        rw [List.nil_append, List.cons_append, readWhole, if_pos rfl]
        exact except_bind_ok.mpr ⟨_, readUnits_of_blank h.fraction_digits h.fraction_length hafter, rfl⟩
    cases whole with
    | cons c whole =>
      have hc := h.whole_digits c List.mem_cons_self
      rw [List.cons_append, List.dropWhile_cons_of_neg (by simp [not_blank_of_isDigit hc]), ← List.cons_append,
        readWhole_digits h.whole_digits]
      exact hrest
    | nil =>
      rw [List.nil_append]
      rcases hpoint with ⟨rfl, rfl⟩ | rfl
      · rw [List.nil_append, List.dropWhile_eq_nil_iff.mpr hafter]
        exact ⟨[], rfl, nofun⟩
      · rw [List.cons_append, List.dropWhile_cons_of_neg (by decide)]
        exact hrest
  obtain ⟨p, hread, hp⟩ := hread
  have hall : ¬ ¬ (p.all isBlank = true) := not_not_intro (List.all_eq_true.mpr hp)
  refine except_bind_ok.mpr ⟨_, hread, ?_⟩
  refine except_bind_ok.mpr ⟨(), except_rejectIf_ok.mpr hall, ?_⟩
  refine except_bind_ok.mpr ⟨(), except_rejectIf_ok.mpr (Nat.not_lt.mpr h.whole_length), ?_⟩
  refine except_bind_ok.mpr ⟨(), except_rejectIf_ok.mpr hrange, ?_⟩
  exact except_bind_ok.mpr ⟨_, hcoins, hsum⟩

/-- Every text is that of an amount, or is rejected. -/
theorem parseMoney_cases (str : List UInt8) :
    (∃ whole fraction, AmountText (str.takeWhile (· ≠ 0)) whole fraction) ∨ parseMoney str = .error .rejected := by
  have hsplit := List.takeWhile_append_dropWhile (p := isBlank) (l := str.takeWhile (· ≠ 0))
  have hbefore : ∀ c ∈ (str.takeWhile (· ≠ 0)).takeWhile isBlank, isBlank c = true := fun c hc => List.mem_takeWhile_imp hc
  obtain ⟨ds, rest, hrest, hds, hread⟩ := readWhole_cases ((str.takeWhile (· ≠ 0)).dropWhile isBlank) []
  rw [hrest] at hsplit
  have hrejected : ∀ {nUnits : Int} {p : List UInt8}, ¬ ((∀ c ∈ p, isBlank c = true) ∧ ds.length ≤ 10) →
      (do
        rejectIf (¬ p.all isBlank) MoneyError.rejected
        rejectIf (10 < ds.length) MoneyError.rejected
        rejectIf (nUnits < 0 ∨ COIN < nUnits) MoneyError.rejected
        let nWhole := (strtoll ds).1
        let coins ← int64 (nWhole * COIN)
        int64 (coins + nUnits)) = .error .rejected := fun {nUnits p} hnot => by
    by_cases hall : p.all isBlank = true
    · refine except_bind_error.mpr (.inr ⟨(), except_rejectIf_ok.mpr (not_not_intro hall), ?_⟩)
      refine except_bind_error.mpr (.inl (except_rejectIf_error.mpr ⟨?_, rfl⟩))
      exact Nat.not_le.mp fun hle => hnot ⟨List.all_eq_true.mp hall, hle⟩
    · exact except_bind_error.mpr (.inl (except_rejectIf_error.mpr ⟨hall, rfl⟩))
  rcases hread with hread | ⟨q, nUnits, p, rfl, hunits, hread⟩ | hread
  · by_cases hok : (∀ c ∈ rest, isBlank c = true) ∧ ds.length ≤ 10
    · refine .inl ⟨ds, [], ⟨_, [], rest, hsplit.symm, hbefore, hok.1, .inl ⟨rfl, rfl⟩⟩, hds, nofun, hok.2, by decide⟩
    · exact .inr (except_bind_error.mpr (.inr ⟨_, hread, hrejected hok⟩))
  · by_cases hok : (∀ c ∈ p, isBlank c = true) ∧ ds.length ≤ 10
    · obtain ⟨fraction, p', rfl, hfraction, hlength, hunits'⟩ := readUnits_all q
      obtain ⟨rfl, rfl⟩ := Prod.mk.inj (Except.ok.inj (hunits.symm.trans hunits'))
      exact .inl ⟨ds, fraction, ⟨_, 46 :: fraction, p, hsplit.symm, hbefore, hok.1, .inr rfl⟩, hds, hfraction, hok.2, hlength⟩
    · exact .inr (except_bind_error.mpr (.inr ⟨_, hread, hrejected hok⟩))
  · exact .inr (except_bind_error.mpr (.inl hread))

/-! ## Round trip -/

theorem not_nul_of_isDigit {c : UInt8} (h : isDigit c = true) : c ≠ 0 := by
  rintro rfl
  exact absurd h (by decide)

/-- The text of an amount that has up to ten digits of whole coins. -/
theorem Printed.text {n : Nat} {body whole fraction : List UInt8} (h : Printed n body whole fraction)
    (hn : n ≤ 999999999999999999) : AmountText (body.takeWhile (· ≠ 0)) whole fraction ∧ amountOf whole fraction = n := by
  have hall : body.takeWhile (· ≠ 0) = body := by
    refine List.takeWhile_eq_self_iff.mpr fun c hc => ?_
    rw [h.shape] at hc
    rcases List.mem_append.mp hc with hc | hc
    · exact decide_eq_true (not_nul_of_isDigit (h.whole_digits c hc))
    · rcases List.mem_cons.mp hc with rfl | hc
      · rfl
      · exact decide_eq_true (not_nul_of_isDigit (h.fraction_digits c hc))
  have hcoin : COIN.natAbs = 100000000 := rfl
  have hlength : whole.length ≤ 10 := by
    rw [h.whole_eq]
    refine length_digits_le (by decide) ?_
    rw [hcoin]
    have hten : (10 : Nat) ^ 10 = 10000000000 := by decide
    omega
  refine ⟨⟨⟨[], 46 :: fraction, [], ?_, nofun, nofun, .inr rfl⟩, h.whole_digits, h.fraction_digits, hlength, h.atMost⟩, ?_⟩
  · rw [hall, h.shape, List.append_nil, List.nil_append]
  · rw [amountOf, h.fraction_value, h.whole_eq, value_print, hcoin, COIN]
    omega

theorem parseMoney_formatMoney {n : Int} (hn : 0 ≤ n) (hle : n ≤ 9999999999 * COIN + 99999999) :
    parseMoney (formatMoney n false) = .ok n := by
  obtain ⟨whole, fraction, hprinted⟩ := bodyOf_printed n.natAbs
  have hsign : signOf n false = [] := by
    rw [signOf, if_neg (Int.not_lt.mpr hn), if_neg (fun h => Bool.false_ne_true h.1)]
  simp only [COIN] at hle
  obtain ⟨htext, hamount⟩ := hprinted.text (by omega)
  rw [formatMoney_eq, hsign, List.nil_append, parseMoney_of_text htext, hamount]
  exact congrArg Except.ok (by omega)

/-- The amount is the exact value in coins, times `COIN`. -/
theorem amountOf_exact (whole : List UInt8) {fraction : List UInt8} (h : fraction.length ≤ 8) :
    ((amountOf whole fraction : Int) : ℚ) = ((value whole : ℚ) + (value fraction : ℚ) / 10 ^ fraction.length) * (COIN : ℚ) := by
  have hcoin : (COIN : ℚ) = 10 ^ fraction.length * 10 ^ (8 - fraction.length) := by
    rw [← pow_add, Nat.add_sub_cancel' h, COIN]
    norm_num
  have hpos : (10 : ℚ) ^ fraction.length ≠ 0 := pow_ne_zero _ (by norm_num)
  rw [amountOf]
  push_cast
  rw [add_mul, hcoin]
  field_simp

example : formatMoney 1234567890000 true = [43, 49, 50, 51, 52, 53, 46, 54, 55, 56, 57] := by decide +kernel

end Pinkcoin
