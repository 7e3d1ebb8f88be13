/-
Amounts in the wallet's window: `BitcoinUnits::format` prints an amount in the
unit chosen, `BitcoinUnits::parse` reads what was typed. The reader puts the
two halves around the point together and hands them to Qt's conversion, which
takes white space around the number and a sign in front of it.
-/
import Pinkcoin.Lib.Decimal
import Pinkcoin.Types

namespace Pinkcoin

open Decimal

/-! ## Texts of the window -/

/-- A text as its code units. -/
abbrev QString := List UInt16

namespace QString

def number (n : Int) : QString := (printInt n).map UInt8.toUInt16

def rightJustified (s : QString) (width : Nat) (fill : UInt16) : QString :=
  List.replicate (width - s.length) fill ++ s

def leftJustified (s : QString) (width : Nat) (fill : UInt16) : QString :=
  s ++ List.replicate (width - s.length) fill

def chop (s : QString) (n : Nat) : QString := s.take (s.length - n)

end QString

namespace BitcoinUnits

/-! ## The units -/

def BTC : Int := 0
def mBTC : Int := 1
def uBTC : Int := 2

def valid (unit : Int) : Bool := unit == BTC || unit == mBTC || unit == uBTC

def factor (unit : Int) : Int :=
  if unit = BTC then 100000000 else if unit = mBTC then 100000 else if unit = uBTC then 100 else 100000000

def decimals (unit : Int) : Nat :=
  if unit = BTC then 8 else if unit = mBTC then 5 else if unit = uBTC then 2 else 0

/-! ## Printing and reading -/

/-- How many characters go, from the one before index `i` down. Below the
first one only the precision is asked. -/
def countTrim (remainder_str : QString) (maxPrecision : Int) : Nat → Nat
  | 0 => (-maxPrecision).toNat
  | i + 1 =>
    if 2 ≤ i ∧ remainder_str[i]? = some 48 ∨ maxPrecision ≤ i then countTrim remainder_str maxPrecision i + 1 else 0

/-- `BitcoinUnits::format`. -/
def format (unit n : Int) (fPlus : Bool) (maxPrecision : Int) : QString :=
  if !valid unit then []
  else
    let coin := factor unit
    let num_decimals := decimals unit
    let n_abs := if 0 < n then n else -n
    let quotient := n_abs / coin
    let remainder := n_abs % coin
    let quotient_str := QString.number quotient
    let remainder_str := QString.rightJustified (QString.number remainder) num_decimals 48
    let remainder_str := QString.chop remainder_str (countTrim remainder_str maxPrecision remainder_str.length)
    let quotient_str :=
      if n < 0 then 45 :: quotient_str else if fPlus ∧ 0 < n then 43 :: quotient_str else quotient_str
    quotient_str ++ [46] ++ remainder_str

/-- `BitcoinUnits::parse`: what it returns, and what it writes to `val_out`.
Qt's conversion, which writes 0 when it fails, is a parameter. -/
def parse (toLongLong : QString → Option Int) (unit : Int) (text : QString) : Bool × Option Int :=
  if !valid unit || text.isEmpty then (false, none)
  else
    let num_decimals := decimals unit
    let parts := text.splitOn 46
    if 2 < parts.length then (false, none)
    else
      let whole := parts.headD []
      let decimals := parts.getD 1 []
      if num_decimals < decimals.length then (false, none)
      else
        let str := whole ++ QString.leftJustified decimals num_decimals 48
        if 18 < str.length then (false, none) else ((toLongLong str).isSome, some ((toLongLong str).getD 0))

/-! ## Qt's conversion -/

def isFigure (c : UInt16) : Bool := 48 ≤ c && c ≤ 57

/-- The value of some figures. -/
def figures (ds : QString) : Nat := value (ds.map UInt16.toUInt8)

/-- **A number as Qt reads it:** white space, a sign, figures, white space. -/
structure Numeral (isSpace : UInt16 → Bool) (str before sign ds after : QString) : Prop where
  shape : str = before ++ (sign ++ (ds ++ after))
  before_space : ∀ c ∈ before, isSpace c = true
  sign_one : sign = [] ∨ sign = [43] ∨ sign = [45]
  figures_ne : ds ≠ []
  figures_all : ∀ c ∈ ds, isFigure c = true
  after_space : ∀ c ∈ after, isSpace c = true

/-- The number behind a sign and figures. -/
def signed (sign ds : QString) : Int := if sign = [45] then -(figures ds : Int) else figures ds

/-- **What is relied on of `QString::toLongLong`:** it takes the numbers above
that 64 bits hold, and nothing else. Figures, signs and points are not white
space. -/
structure Conversion where
  isSpace : UInt16 → Bool
  toLongLong : QString → Option Int
  space_plain : ∀ c, isSpace c = true → isFigure c = false ∧ c ≠ 43 ∧ c ≠ 45 ∧ c ≠ 46
  reads : ∀ str n, toLongLong str = some n ↔
    -2 ^ 63 ≤ n ∧ n < 2 ^ 63 ∧
      ∃ before sign ds after, Numeral isSpace str before sign ds after ∧ n = signed sign ds

/-! ## Figures -/

theorem isDigit_of_isFigure {c : UInt16} (h : isFigure c = true) : isDigit c.toUInt8 = true := by
  simp only [isFigure, Bool.and_eq_true, decide_eq_true_eq, UInt16.le_iff_toNat_le] at h
  simp only [isDigit, Bool.and_eq_true, decide_eq_true_eq, UInt8.le_iff_toNat_le, UInt16.toNat_toUInt8]
  have h48 : (48 : UInt16).toNat = 48 := rfl
  have h57 : (57 : UInt16).toNat = 57 := rfl
  have h48' : (48 : UInt8).toNat = 48 := rfl
  have h57' : (57 : UInt8).toNat = 57 := rfl
  omega

theorem isFigure_of_isDigit {c : UInt8} (h : isDigit c = true) : isFigure c.toUInt16 = true := by
  simp only [isDigit, Bool.and_eq_true, decide_eq_true_eq, UInt8.le_iff_toNat_le] at h
  simp only [isFigure, Bool.and_eq_true, decide_eq_true_eq, UInt16.le_iff_toNat_le, UInt8.toNat_toUInt16]
  exact h

theorem figures_append (a b : QString) : figures (a ++ b) = figures a * 10 ^ b.length + figures b := by
  simp [figures, value_append]

theorem figures_zeros (k : Nat) : figures (List.replicate k 48) = 0 := by
  rw [figures, List.map_replicate]
  exact value_zeros k

theorem figures_lt {ds : QString} (h : ∀ c ∈ ds, isFigure c = true) : figures ds < 10 ^ ds.length := by
  have hlt : value (ds.map UInt16.toUInt8) < 10 ^ (ds.map UInt16.toUInt8).length := by
    refine value_lt fun c hc => ?_
    obtain ⟨d, hd, rfl⟩ := List.mem_map.mp hc
    exact isDigit_of_isFigure (h d hd)
  rwa [List.length_map] at hlt

theorem number_eq {n : Int} (h : 0 ≤ n) : QString.number n = (print n.natAbs).map UInt8.toUInt16 := by
  rw [QString.number, printInt, if_neg (by omega)]

theorem number_isFigure {n : Int} (h : 0 ≤ n) : ∀ c ∈ QString.number n, isFigure c = true := by
  intro c hc
  rw [number_eq h] at hc
  obtain ⟨d, hd, rfl⟩ := List.mem_map.mp hc
  exact isFigure_of_isDigit (print_isDigit _ d hd)

theorem figures_number {n : Int} (h : 0 ≤ n) : figures (QString.number n) = n.natAbs := by
  have hback : UInt16.toUInt8 ∘ UInt8.toUInt16 = id := by
    funext c
    simp
  rw [figures, number_eq h, List.map_map, hback, List.map_id, value_print]

theorem number_ne_nil {n : Int} (h : 0 ≤ n) : QString.number n ≠ [] := by
  rw [number_eq h]
  simp [print_ne_nil]

theorem length_number_le {n : Int} {k : Nat} (hk : 0 < k) (h : 0 ≤ n) (hlt : n < 10 ^ k) :
    (QString.number n).length ≤ k := by
  rw [number_eq h, List.length_map]
  refine length_digits_le hk ?_
  have habs : ((n.natAbs : Nat) : Int) < ((10 ^ k : Nat) : Int) := by
    rw [Int.natAbs_of_nonneg h]
    simpa using hlt
  omega

/-! ## Numbers as Qt reads them -/

/-- The parts of a number can be told from its text. -/
theorem Numeral.parts {isSpace : UInt16 → Bool} {str before sign ds after : QString}
    (hplain : ∀ c, isSpace c = true → isFigure c = false ∧ c ≠ 43 ∧ c ≠ 45 ∧ c ≠ 46)
    (h : Numeral isSpace str before sign ds after) :
    str.takeWhile isSpace = before ∧ str.dropWhile isSpace = sign ++ (ds ++ after) ∧
      (ds ++ after).takeWhile isFigure = ds := by
  obtain ⟨d, rest, rfl⟩ := List.exists_cons_of_ne_nil h.figures_ne
  have hd : isFigure d = true := h.figures_all d List.mem_cons_self
  have hfirst : ∃ c more, sign ++ (d :: rest ++ after) = c :: more ∧ isSpace c = false := by
    rcases h.sign_one with rfl | rfl | rfl
    · refine ⟨d, rest ++ after, rfl, ?_⟩
      by_contra hspace
      have hnot := (hplain d (by simpa using hspace)).1
      simp [hd] at hnot
    · refine ⟨43, d :: rest ++ after, rfl, ?_⟩
      by_contra hspace
      exact (hplain 43 (by simpa using hspace)).2.1 rfl
    · refine ⟨45, d :: rest ++ after, rfl, ?_⟩
      by_contra hspace
      exact (hplain 45 (by simpa using hspace)).2.2.1 rfl
  obtain ⟨c, more, hc, hspace⟩ := hfirst
  refine ⟨?_, ?_, ?_⟩
  · rw [h.shape, hc, List.takeWhile_append_of_pos h.before_space, List.takeWhile_cons_of_neg (by simp [hspace])]
    simp
  · rw [h.shape, hc, List.dropWhile_append_of_pos h.before_space, List.dropWhile_cons_of_neg (by simp [hspace])]
  · rw [List.takeWhile_append_of_pos h.figures_all]
    have hnone : after.takeWhile isFigure = [] := by
      cases after with
      | nil => rfl
      | cons a after =>
        have hnot := (hplain a (h.after_space a List.mem_cons_self)).1
        rw [List.takeWhile_cons_of_neg (by simp [hnot])]
    rw [hnone, List.append_nil]

/-- What starts with figures has its sign in one place only. -/
theorem sign_unique {sign sign' ds ds' : QString} (h : sign = [] ∨ sign = [43] ∨ sign = [45])
    (h' : sign' = [] ∨ sign' = [43] ∨ sign' = [45]) (hds : ∀ c ∈ ds.head?, isFigure c = true)
    (hds' : ∀ c ∈ ds'.head?, isFigure c = true) (heq : sign ++ ds = sign' ++ ds') : sign = sign' ∧ ds = ds' := by
  have hno : ∀ {s t more : QString}, s = [43] ∨ s = [45] → (∀ c ∈ t.head?, isFigure c = true) → s ++ more ≠ t := by
    intro s t more hs ht heq
    subst heq
    rcases hs with rfl | rfl
    · exact absurd (ht 43 rfl) (by decide)
    · exact absurd (ht 45 rfl) (by decide)
  rcases h with rfl | h
  · rcases h' with rfl | h'
    · exact ⟨rfl, heq⟩
    · exact absurd heq.symm (hno h' hds)
  · rcases h' with rfl | h'
    · exact absurd heq (hno h hds')
    · rcases h with rfl | rfl <;> rcases h' with rfl | rfl <;> simp_all

theorem Numeral.unique (C : Conversion) {str before sign ds after before' sign' ds' after' : QString}
    (h : Numeral C.isSpace str before sign ds after) (h' : Numeral C.isSpace str before' sign' ds' after') :
    before = before' ∧ sign = sign' ∧ ds = ds' ∧ after = after' := by
  obtain ⟨hbefore, hrest, hds⟩ := h.parts C.space_plain
  obtain ⟨hbefore', hrest', hds'⟩ := h'.parts C.space_plain
  have hhead : ∀ {ds after : QString}, ds ≠ [] → (∀ c ∈ ds, isFigure c = true) →
      ∀ c ∈ (ds ++ after).head?, isFigure c = true := by
    intro ds after hne hall c hc
    obtain ⟨d, rest, rfl⟩ := List.exists_cons_of_ne_nil hne
    obtain rfl : d = c := by simpa using hc
    exact hall d List.mem_cons_self
  obtain ⟨hsign, hmore⟩ := sign_unique h.sign_one h'.sign_one (hhead h.figures_ne h.figures_all)
    (hhead h'.figures_ne h'.figures_all) (hrest.symm.trans hrest')
  have hsame : ds = ds' := by rw [← hds, hmore, hds']
  subst hsame
  exact ⟨hbefore.symm.trans hbefore', hsign, rfl, List.append_cancel_left hmore⟩

/-- Eighteen characters fit into 64 bits. -/
theorem Numeral.reads (C : Conversion) {str before sign ds after : QString}
    (h : Numeral C.isSpace str before sign ds after) (hlen : str.length ≤ 18) :
    C.toLongLong str = some (signed sign ds) := by
  have hle : ds.length ≤ 18 := by
    rw [h.shape] at hlen
    simp only [List.length_append] at hlen
    omega
  have hlt : figures ds < 10 ^ 18 := (figures_lt h.figures_all).trans_le (Nat.pow_le_pow_right (by decide) hle)
  refine (C.reads str _).mpr ⟨?_, ?_, before, sign, ds, after, h, rfl⟩
  · rw [signed]
    split <;> omega
  · rw [signed]
    split <;> omega

/-! ## What the reader accepts -/

/-- The text as the reader sees it: what stands before the point, what stands
after it. -/
structure Halves (text whole fraction : QString) : Prop where
  nonempty : text ≠ []
  shape : text = whole ∧ fraction = [] ∨ text = whole ++ 46 :: fraction

/-- The two halves as they are handed over. -/
def glued (unit : Int) (whole fraction : QString) : QString :=
  whole ++ QString.leftJustified fraction (decimals unit) 48

theorem length_glued {unit : Int} {whole fraction : QString} (h : fraction.length ≤ decimals unit) :
    (glued unit whole fraction).length = whole.length + decimals unit := by
  simp only [glued, QString.leftJustified, List.length_append, List.length_replicate]
  omega

/-- No number has a point in it. -/
theorem Numeral.no_point (C : Conversion) {str before sign ds after : QString}
    (h : Numeral C.isSpace str before sign ds after) : (46 : UInt16) ∉ str := by
  rw [h.shape]
  simp only [List.mem_append, not_or]
  refine ⟨fun hb => (C.space_plain _ (h.before_space _ hb)).2.2.2 rfl, ?_, fun hd => ?_, fun ha =>
    (C.space_plain _ (h.after_space _ ha)).2.2.2 rfl⟩
  · rcases h.sign_one with rfl | rfl | rfl <;> decide
  · exact absurd (h.figures_all _ hd) (by decide)

/-- The reader, once the text is in halves. -/
theorem parse_halves (toLongLong : QString → Option Int) {unit : Int} (hunit : valid unit = true)
    {text whole fraction : QString} (h : Halves text whole fraction) (hwhole : (46 : UInt16) ∉ whole)
    (hfraction : (46 : UInt16) ∉ fraction) :
    parse toLongLong unit text =
      if decimals unit < fraction.length then (false, none)
      else if 18 < (glued unit whole fraction).length then (false, none)
      else ((toLongLong (glued unit whole fraction)).isSome,
        some ((toLongLong (glued unit whole fraction)).getD 0)) := by
  have hempty : text.isEmpty = false := by simpa using h.nonempty
  rcases h.shape with ⟨rfl, rfl⟩ | rfl
  · have hparts : text.splitOn 46 = [text] := List.splitOn_eq_singleton hwhole
    simp [parse, hunit, hempty, hparts, glued]
  · have hparts : (whole ++ 46 :: fraction).splitOn 46 = [whole, fraction] := by
      rw [List.splitOn_append_cons_self_of_not_mem hwhole, List.splitOn_eq_singleton hfraction]
    simp [parse, hunit, hparts, glued]

/-- A text that is read is in halves. -/
theorem halves_of_parse {toLongLong : QString → Option Int} {unit : Int} {text : QString} {v : Option Int}
    (h : parse toLongLong unit text = (true, v)) :
    ∃ whole fraction, Halves text whole fraction ∧ (46 : UInt16) ∉ whole ∧ (46 : UInt16) ∉ fraction := by
  unfold parse at h
  split at h
  · cases h
  next hnot =>
    have hne : text ≠ [] := by
      rintro rfl
      simp at hnot
    by_cases hpoint : (46 : UInt16) ∈ text
    · obtain ⟨whole, fraction, rfl, hwhole⟩ := List.eq_append_cons_of_mem hpoint
      refine ⟨whole, fraction, ⟨hne, .inr rfl⟩, hwhole, fun hmore => ?_⟩
      -- a second point makes three parts
      obtain ⟨second, rest, rfl, hsecond⟩ := List.eq_append_cons_of_mem hmore
      have hparts : (whole ++ 46 :: (second ++ 46 :: rest)).splitOn 46 = whole :: second :: rest.splitOn 46 := by
        rw [List.splitOn_append_cons_self_of_not_mem hwhole, List.splitOn_append_cons_self_of_not_mem hsecond]
      have hrest : 0 < (rest.splitOn 46).length := List.length_pos_iff.mpr (List.splitOn_ne_nil 46 rest)
      simp only [hparts, List.length_cons] at h
      rw [if_pos (by omega)] at h
      cases h
    · exact ⟨text, [], ⟨hne, .inl ⟨rfl, rfl⟩⟩, hpoint, by simp⟩

/-- **The texts that are read.** -/
theorem parse_iff (C : Conversion) {unit : Int} (hunit : valid unit = true) (text : QString) (n : Int) :
    parse C.toLongLong unit text = (true, some n) ↔
      ∃ whole fraction before sign ds after, Halves text whole fraction ∧ fraction.length ≤ decimals unit ∧
        whole.length + decimals unit ≤ 18 ∧
        Numeral C.isSpace (glued unit whole fraction) before sign ds after ∧ n = signed sign ds := by
  constructor
  · intro h
    obtain ⟨whole, fraction, hhalves, hwhole, hfraction⟩ := halves_of_parse h
    rw [parse_halves _ hunit hhalves hwhole hfraction] at h
    split at h
    · cases h
    next hlen =>
      split at h
      · cases h
      next hshort =>
        rw [length_glued (by omega)] at hshort
        cases hread : C.toLongLong (glued unit whole fraction) with
        | none => simp [hread] at h
        | some m =>
          obtain rfl : m = n := by simpa [hread] using h
          obtain ⟨-, -, before, sign, ds, after, hnumeral, hm⟩ := (C.reads _ _).mp hread
          exact ⟨whole, fraction, before, sign, ds, after, hhalves, by omega, by omega, hnumeral, hm⟩
  · rintro ⟨whole, fraction, before, sign, ds, after, hhalves, hlen, hshort, hnumeral, rfl⟩
    have hpoint := hnumeral.no_point C
    have hlength : (glued unit whole fraction).length = whole.length + decimals unit := length_glued hlen
    have hread := hnumeral.reads C (by omega)
    have hwhole : (46 : UInt16) ∉ whole := fun hmem => hpoint (List.mem_append_left _ hmem)
    have hfraction : (46 : UInt16) ∉ fraction := fun hmem =>
      hpoint (List.mem_append_right _ (List.mem_append_left _ hmem))
    rw [parse_halves _ hunit hhalves hwhole hfraction, if_neg (by omega), if_neg (by omega), hread]
    rfl

/-! ## What is printed -/

theorem valid_cases {unit : Int} (h : valid unit = true) : unit = BTC ∨ unit = mBTC ∨ unit = uBTC := by
  simpa [valid, or_assoc] using h

theorem factor_eq {unit : Int} (h : valid unit = true) : factor unit = 10 ^ decimals unit := by
  rcases valid_cases h with rfl | rfl | rfl <;> rfl

theorem decimals_range {unit : Int} (h : valid unit = true) : 0 < decimals unit ∧ decimals unit ≤ 8 := by
  rcases valid_cases h with rfl | rfl | rfl <;> decide

/-- What is cut off are zeros. -/
theorem countTrim_spec {f : QString} (hlen : f.length ≤ 8) {k : Nat} (hk : k ≤ f.length) :
    countTrim f 8 k ≤ k ∧ f.take k = f.take (k - countTrim f 8 k) ++ List.replicate (countTrim f 8 k) 48 := by
  induction k with
  | zero => simp [countTrim]
  | succ k ih =>
    obtain ⟨hle, htake⟩ := ih (by omega)
    rw [countTrim]
    split
    next htrim =>
      have hzero : f[k]? = some 48 := by
        rcases htrim with h | h
        · exact h.2
        · omega
      have hsub : k + 1 - (countTrim f 8 k + 1) = k - countTrim f 8 k := by omega
      refine ⟨by omega, ?_⟩
      rw [hsub, List.take_add_one, hzero, htake, List.replicate_succ', List.append_assoc]
      rfl
    next => simp

/-- **The text of an amount**: the sign, the whole units, the point, and the
rest of the unit with only zeros left out. -/
structure Formatted (unit n : Int) (sign whole fraction : QString) : Prop where
  text_eq : format unit n false 8 = sign ++ whole ++ 46 :: fraction
  sign_eq : sign = if n < 0 then [45] else []
  whole_ne : whole ≠ []
  whole_figures : ∀ c ∈ whole, isFigure c = true
  fraction_length : fraction.length ≤ decimals unit
  padded_figures : ∀ c ∈ QString.leftJustified fraction (decimals unit) 48, isFigure c = true
  figures_eq : figures (whole ++ QString.leftJustified fraction (decimals unit) 48) = n.natAbs
  whole_length : n.natAbs ≤ MAX_MONEY.natAbs → whole.length + decimals unit ≤ 17

theorem format_spec {unit : Int} (h : valid unit = true) (n : Int) :
    ∃ sign whole fraction, Formatted unit n sign whole fraction := by
  obtain ⟨hpos, hle⟩ := decimals_range h
  have hfactor := factor_eq h
  have habs : (if 0 < n then n else -n) = (n.natAbs : Int) := by
    split <;> omega
  have hcoin : (0 : Int) < 10 ^ decimals unit := Int.pow_pos (by decide)
  generalize hq : (n.natAbs : Int) / 10 ^ decimals unit = q
  generalize hr : (n.natAbs : Int) % 10 ^ decimals unit = r
  have hq0 : 0 ≤ q := hq ▸ Int.ediv_nonneg (by omega) hcoin.le
  have hr0 : 0 ≤ r := hr ▸ Int.emod_nonneg _ hcoin.ne'
  have hrlt : r < 10 ^ decimals unit := hr ▸ Int.emod_lt_of_pos _ hcoin
  -- the rest of the unit, filled up with zeros in front
  generalize hf : QString.rightJustified (QString.number r) (decimals unit) 48 = f
  have hflen : f.length = decimals unit := by
    have hshort := length_number_le hpos hr0 hrlt
    rw [← hf, QString.rightJustified, List.length_append, List.length_replicate]
    omega
  have hffig : ∀ c ∈ f, isFigure c = true := by
    rw [← hf]
    intro c hc
    rcases List.mem_append.mp hc with hc | hc
    · rw [List.eq_of_mem_replicate hc]
      rfl
    · exact number_isFigure hr0 c hc
  have hfval : figures f = r.natAbs := by
    rw [← hf, QString.rightJustified, figures_append, figures_zeros, Nat.zero_mul, Nat.zero_add, figures_number hr0]
  obtain ⟨htrim, htake⟩ := countTrim_spec (f := f) (by omega) (Nat.le_refl f.length)
  rw [List.take_length] at htake
  generalize ht : countTrim f 8 f.length = t at htrim htake
  have hpad : QString.leftJustified (f.take (f.length - t)) (decimals unit) 48 = f := by
    have hgap : decimals unit - (f.take (f.length - t)).length = t := by
      rw [List.length_take]
      omega
    rw [QString.leftJustified, hgap, ← htake]
  refine ⟨if n < 0 then [45] else [], QString.number q, f.take (f.length - t), ?_, rfl, number_ne_nil hq0,
    number_isFigure hq0, ?_, by rwa [hpad], ?_, fun hmoney => ?_⟩
  · have hplus : ¬ (false = true ∧ 0 < n) := by simp
    rw [format, if_neg (by simp [h])]
    simp only [habs, hfactor, hq, hr, hf, ht, if_neg hplus, QString.chop]
    by_cases hneg : n < 0
    · simp [hneg]
    · simp [hneg]
  · rw [List.length_take]
    omega
  · rw [hpad, figures_append, figures_number hq0, hfval, hflen]
    have hdiv := Int.mul_ediv_add_emod (n.natAbs : Int) (10 ^ decimals unit)
    rw [hq, hr] at hdiv
    have hcast : ((q.natAbs * 10 ^ decimals unit + r.natAbs : Nat) : Int) = n.natAbs := by
      rw [Int.natCast_add, Int.natCast_mul, Int.natCast_pow, Int.natAbs_of_nonneg hq0, Int.natAbs_of_nonneg hr0,
        ← hdiv, mul_comm]
      rfl
    exact Int.natCast_inj.mp hcast
  · have hqlt : q < 10 ^ (17 - decimals unit) := by
      rw [← hq]
      refine Int.ediv_lt_of_lt_mul hcoin ?_
      rw [← pow_add, Nat.sub_add_cancel (by omega)]
      have hmax : MAX_MONEY.natAbs = 50000000000000000 := by decide
      omega
    have hqlen := length_number_le (by omega) hq0 hqlt
    omega

/-- **Every amount comes back**, in every unit. -/
theorem parse_format (C : Conversion) {unit n : Int} (h : valid unit = true) (hn : n.natAbs ≤ MAX_MONEY.natAbs) :
    parse C.toLongLong unit (format unit n false 8) = (true, some n) := by
  obtain ⟨sign, whole, fraction, hf⟩ := format_spec h n
  have hsign : sign = [] ∨ sign = [43] ∨ sign = [45] := by
    rw [hf.sign_eq]
    split <;> simp
  have hlen := hf.whole_length hn
  have hshort : sign.length ≤ 1 := by
    rcases hsign with rfl | rfl | rfl <;> decide
  refine (parse_iff C h _ n).mpr ⟨sign ++ whole, fraction, [], sign,
    whole ++ QString.leftJustified fraction (decimals unit) 48, [], ⟨?_, .inr hf.text_eq⟩, hf.fraction_length, ?_,
    ⟨by simp [glued], by simp, hsign, by simp [hf.whole_ne], ?_, by simp⟩, ?_⟩
  · rw [hf.text_eq]
    simp
  · rw [List.length_append]
    omega
  · intro c hc
    rcases List.mem_append.mp hc with hc | hc
    · exact hf.whole_figures c hc
    · exact hf.padded_figures c hc
  · rw [signed, hf.figures_eq, hf.sign_eq]
    by_cases hneg : n < 0
    · rw [if_pos hneg, if_pos rfl]
      omega
    · rw [if_neg hneg, if_neg (by simp)]
      omega

/-! ## What is read amiss -/

/-- **An amount in a text**: perhaps a sign, figures, and perhaps a point with
no more figures than the unit has decimals. -/
structure Written (unit : Int) (text sign whole fraction : QString) : Prop where
  shape : text = sign ++ whole ∧ fraction = [] ∨ text = sign ++ whole ++ 46 :: fraction
  sign_one : sign = [] ∨ sign = [43] ∨ sign = [45]
  whole_ne : whole ≠ []
  whole_figures : ∀ c ∈ whole, isFigure c = true
  fraction_figures : ∀ c ∈ fraction, isFigure c = true
  fraction_length : fraction.length ≤ decimals unit

/-- If the text is taken, it is that of an amount, and the number is the
decimal times the unit's factor. -/
def Exact (C : Conversion) (unit : Int) (text : QString) : Prop :=
  ∀ v, parse C.toLongLong unit text = (true, v) → ∃ n sign whole fraction, v = some n ∧
    Written unit text sign whole fraction ∧
    n * 10 ^ fraction.length = signed sign (whole ++ fraction) * factor unit

/-- **The texts taken for a number they do not show.** Once the point is taken
out and zeros are added they are a number Qt reads, but with white space in
it, or with no figure before the point (where there may be a sign after it). -/
def Misread (C : Conversion) (unit : Int) (text : QString) : Prop :=
  ∃ whole fraction before sign ds after, Halves text whole fraction ∧ fraction.length ≤ decimals unit ∧
    whole.length + decimals unit ≤ 18 ∧ Numeral C.isSpace (glued unit whole fraction) before sign ds after ∧
    (before ≠ [] ∨ after ≠ [] ∨ whole.length ≤ sign.length)

theorem parse_some {toLongLong : QString → Option Int} {unit : Int} {text : QString} {v : Option Int}
    (hunit : valid unit = true) (h : parse toLongLong unit text = (true, v)) : ∃ n, v = some n := by
  obtain ⟨whole, fraction, hhalves, hwhole, hfraction⟩ := halves_of_parse h
  rw [parse_halves _ hunit hhalves hwhole hfraction] at h
  split at h
  · cases h
  · split at h
    · cases h
    · exact ⟨_, (Prod.mk.inj h).2.symm⟩

theorem Halves.unique {text whole fraction whole' fraction' : QString} (h : Halves text whole fraction)
    (h' : Halves text whole' fraction') (hwhole : (46 : UInt16) ∉ whole) (hfraction : (46 : UInt16) ∉ fraction)
    (hwhole' : (46 : UInt16) ∉ whole') (hfraction' : (46 : UInt16) ∉ fraction') :
    whole = whole' ∧ fraction = fraction' := by
  rcases h.shape with ⟨rfl, rfl⟩ | rfl
  · rcases h'.shape with ⟨rfl, rfl⟩ | rfl
    · exact ⟨rfl, rfl⟩
    · simp at hwhole
  · rcases h'.shape with ⟨rfl, rfl⟩ | heq
    · simp at hwhole'
    · have hsplit := congrArg (List.splitOn 46) heq
      rw [List.splitOn_append_cons_self_of_not_mem hwhole, List.splitOn_append_cons_self_of_not_mem hwhole',
        List.splitOn_eq_singleton hfraction, List.splitOn_eq_singleton hfraction'] at hsplit
      simpa using hsplit

/-- The text of an amount, as it is handed over. -/
theorem Written.numeral (C : Conversion) {unit : Int} {text sign whole fraction : QString}
    (h : Written unit text sign whole fraction) :
    Numeral C.isSpace (glued unit (sign ++ whole) fraction) [] sign
      (whole ++ QString.leftJustified fraction (decimals unit) 48) [] := by
  refine ⟨by simp [glued], by simp, h.sign_one, by simp [h.whole_ne], fun c hc => ?_, by simp⟩
  rcases List.mem_append.mp hc with hc | hc
  · exact h.whole_figures c hc
  · rcases List.mem_append.mp hc with hc | hc
    · exact h.fraction_figures c hc
    · rw [List.eq_of_mem_replicate hc]
      rfl

/-- A number with a figure before the point and no white space is an amount. -/
theorem written_of_numeral {C : Conversion} {unit : Int} {text whole fraction sign ds : QString}
    (hunit : valid unit = true) (hhalves : Halves text whole fraction) (hlen : fraction.length ≤ decimals unit)
    (h : Numeral C.isSpace (glued unit whole fraction) [] sign ds []) (hfirst : sign.length < whole.length) :
    ∃ w, Written unit text sign w fraction ∧
      signed sign ds * 10 ^ fraction.length = signed sign (w ++ fraction) * factor unit := by
  have hshape : whole ++ QString.leftJustified fraction (decimals unit) 48 = sign ++ ds := by
    have heq := h.shape
    rwa [List.append_nil, List.nil_append] at heq
  obtain ⟨w, rfl, rfl⟩ : ∃ w, whole = sign ++ w ∧ ds = w ++ QString.leftJustified fraction (decimals unit) 48 := by
    rcases List.append_eq_append_iff.mp hshape with ⟨a, ha, -⟩ | ⟨w, hw, hds⟩
    · rw [ha, List.length_append] at hfirst
      omega
    · exact ⟨w, hw, hds⟩
  have hfigures := h.figures_all
  refine ⟨w, ⟨?_, h.sign_one, ?_, fun c hc => hfigures c (List.mem_append_left _ hc),
    fun c hc => hfigures c (List.mem_append_right _ (List.mem_append_left _ hc)), hlen⟩, ?_⟩
  · simpa using hhalves.shape
  · rintro rfl
    simp at hfirst
  · -- the zeros added make up for the decimals left out
    have hvalue : figures (w ++ QString.leftJustified fraction (decimals unit) 48) =
        figures (w ++ fraction) * 10 ^ (decimals unit - fraction.length) := by
      rw [QString.leftJustified, ← List.append_assoc, figures_append, figures_zeros, List.length_replicate,
        Nat.add_zero]
    have hpow : (10 : Int) ^ (decimals unit - fraction.length) * 10 ^ fraction.length = factor unit := by
      rw [← pow_add, Nat.sub_add_cancel hlen, factor_eq hunit]
    have hmul : (figures (w ++ QString.leftJustified fraction (decimals unit) 48) : Int) * 10 ^ fraction.length =
        figures (w ++ fraction) * factor unit := by
      rw [hvalue, Int.natCast_mul, Int.natCast_pow, mul_assoc]
      exact congrArg _ hpow
    rw [signed, signed]
    split
    · rw [Int.neg_mul, hmul, Int.neg_mul]
    · exact hmul

/-- **Which texts are read right:** all but those with white space in the
number, and those with no figure before the point. -/
theorem exact_iff (C : Conversion) {unit : Int} (hunit : valid unit = true) (text : QString) :
    Exact C unit text ↔ ¬ Misread C unit text := by
  constructor
  · rintro hexact ⟨whole, fraction, before, sign, ds, after, hhalves, hlen, hshort, hnumeral, hbad⟩
    have hparse := (parse_iff C hunit text (signed sign ds)).mpr
      ⟨whole, fraction, before, sign, ds, after, hhalves, hlen, hshort, hnumeral, rfl⟩
    obtain ⟨n, sign', whole', fraction', -, hwritten, -⟩ := hexact _ hparse
    have hnumeral' := hwritten.numeral C
    have hpoint := hnumeral.no_point C
    have hpoint' := hnumeral'.no_point C
    obtain ⟨rfl, rfl⟩ := hhalves.unique ⟨hhalves.nonempty, hwritten.shape⟩
      (fun hmem => hpoint (List.mem_append_left _ hmem))
      (fun hmem => hpoint (List.mem_append_right _ (List.mem_append_left _ hmem)))
      (fun hmem => hpoint' (List.mem_append_left _ hmem))
      (fun hmem => hpoint' (List.mem_append_right _ (List.mem_append_left _ hmem)))
    obtain ⟨rfl, rfl, -, rfl⟩ := hnumeral.unique C hnumeral'
    have hfirst : 0 < whole'.length := List.length_pos_iff.mpr hwritten.whole_ne
    rcases hbad with hbefore | hafter | hlong
    · exact hbefore rfl
    · exact hafter rfl
    · rw [List.length_append] at hlong
      omega
  · intro hgood v hparse
    obtain ⟨n, rfl⟩ := parse_some hunit hparse
    obtain ⟨whole, fraction, before, sign, ds, after, hhalves, hlen, hshort, hnumeral, rfl⟩ :=
      (parse_iff C hunit text n).mp hparse
    have hclean : ¬ (before ≠ [] ∨ after ≠ [] ∨ whole.length ≤ sign.length) := fun hbad =>
      hgood ⟨whole, fraction, before, sign, ds, after, hhalves, hlen, hshort, hnumeral, hbad⟩
    simp only [not_or, not_not, not_le] at hclean
    obtain ⟨rfl, rfl, hfirst⟩ := hclean
    obtain ⟨w, hwritten, heq⟩ := written_of_numeral hunit hhalves hlen hnumeral hfirst
    exact ⟨_, sign, w, fraction, rfl, hwritten, heq⟩

/-- **Amounts in the window:** what is printed is read back, and what is read
is the amount shown, except for the texts above. -/
theorem parse_exact_iff (C : Conversion) {unit : Int} (hunit : valid unit = true) :
    (∀ n, -MAX_MONEY ≤ n ∧ n ≤ MAX_MONEY → parse C.toLongLong unit (format unit n false 8) = (true, some n)) ∧
      ∀ text, Exact C unit text ↔ ¬ Misread C unit text :=
  ⟨fun _ hn => parse_format C hunit (by omega), exact_iff C hunit⟩

/-! ## A conversion -/

namespace Sample

/-- White space among the first 256 characters. -/
def isSpace (c : UInt16) : Bool := c == 32 || (9 ≤ c && c ≤ 13) || c == 133 || c == 160

def splitSign : QString → QString × QString
  | 43 :: s => ([43], s)
  | 45 :: s => ([45], s)
  | s => ([], s)

def toLongLong (str : QString) : Option Int :=
  let more := splitSign (str.dropWhile isSpace)
  let ds := more.2.takeWhile isFigure
  let n := signed more.1 ds
  if ds ≠ [] ∧ (more.2.dropWhile isFigure).all isSpace ∧ -2 ^ 63 ≤ n ∧ n < 2 ^ 63 then some n else none

theorem space_plain (c : UInt16) (h : isSpace c = true) : isFigure c = false ∧ c ≠ 43 ∧ c ≠ 45 ∧ c ≠ 46 := by
  have hle : c.toNat ≤ 32 ∨ c.toNat = 133 ∨ c.toNat = 160 := by
    simp only [isSpace, Bool.or_eq_true, Bool.and_eq_true, beq_iff_eq, decide_eq_true_eq, UInt16.le_iff_toNat_le]
      at h
    have h13 : (13 : UInt16).toNat = 13 := rfl
    rcases h with ((rfl | h) | rfl) | rfl
    · decide
    · omega
    · decide
    · decide
  have hne : ∀ d : UInt16, d.toNat ≠ c.toNat → c ≠ d := fun d hd heq => hd (by rw [heq])
  refine ⟨?_, hne 43 ?_, hne 45 ?_, hne 46 ?_⟩
  · simp only [isFigure, Bool.and_eq_false_iff, decide_eq_false_iff_not, UInt16.le_iff_toNat_le]
    have h48 : (48 : UInt16).toNat = 48 := rfl
    have h57 : (57 : UInt16).toNat = 57 := rfl
    omega
  · have h43 : (43 : UInt16).toNat = 43 := rfl
    omega
  · have h45 : (45 : UInt16).toNat = 45 := rfl
    omega
  · have h46 : (46 : UInt16).toNat = 46 := rfl
    omega

theorem splitSign_spec (s : QString) : s = (splitSign s).1 ++ (splitSign s).2 ∧
    ((splitSign s).1 = [] ∨ (splitSign s).1 = [43] ∨ (splitSign s).1 = [45]) := by
  unfold splitSign
  split <;> simp

theorem splitSign_eq {sign more : QString} (h : sign = [] ∨ sign = [43] ∨ sign = [45])
    (hmore : ∀ c ∈ more.head?, isFigure c = true) : splitSign (sign ++ more) = (sign, more) := by
  rcases h with rfl | rfl | rfl
  · unfold splitSign
    split
    next heq =>
      rw [List.nil_append] at heq
      exact absurd (hmore 43 (by simp [heq])) (by decide)
    next heq =>
      rw [List.nil_append] at heq
      exact absurd (hmore 45 (by simp [heq])) (by decide)
    next => rfl
  · rfl
  · rfl

theorem toLongLong_spec {str : QString} {n : Int} (h : toLongLong str = some n) : -2 ^ 63 ≤ n ∧ n < 2 ^ 63 ∧
    ∃ before sign ds after, Numeral isSpace str before sign ds after ∧ n = signed sign ds := by
  simp only [toLongLong] at h
  split at h
  next hgood =>
    obtain ⟨hne, hafter, hlow, hhigh⟩ := hgood
    obtain rfl := Option.some.inj h
    refine ⟨hlow, hhigh, str.takeWhile isSpace, _, _, (splitSign (str.dropWhile isSpace)).2.dropWhile isFigure,
      ⟨?_, ?_, (splitSign_spec _).2, hne, ?_, ?_⟩, rfl⟩
    · rw [List.takeWhile_append_dropWhile, ← (splitSign_spec _).1, List.takeWhile_append_dropWhile]
    · exact fun c hc => (List.mem_takeWhile_imp hc)
    · exact fun c hc => (List.mem_takeWhile_imp hc)
    · exact fun c hc => List.all_eq_true.mp hafter c hc
  next => cases h

/-- A conversion as it is relied on. -/
def qt : Conversion where
  isSpace := isSpace
  toLongLong := toLongLong
  space_plain := space_plain
  reads str n := by
    refine ⟨toLongLong_spec, ?_⟩
    rintro ⟨hlow, hhigh, before, sign, ds, after, h, rfl⟩
    obtain ⟨-, hdrop, htake⟩ := h.parts space_plain
    obtain ⟨d, rest, hds⟩ := List.exists_cons_of_ne_nil h.figures_ne
    have hhead : ∀ c ∈ (ds ++ after).head?, isFigure c = true := by
      intro c hc
      obtain rfl : d = c := by simpa [hds] using hc
      exact h.figures_all d (by simp [hds])
    have hafter : (ds ++ after).dropWhile isFigure = after := by
      have hsplit := List.takeWhile_append_dropWhile (p := isFigure) (l := ds ++ after)
      rw [htake] at hsplit
      exact List.append_cancel_left hsplit
    have hspace : after.all isSpace = true := List.all_eq_true.mpr h.after_space
    simp only [toLongLong, hdrop, splitSign_eq h.sign_one hhead, htake, hafter]
    exact if_pos ⟨h.figures_ne, hspace, hlow, hhigh⟩

/-- The amount 1.234567, with two blanks behind it. -/
def blanks : QString := [49, 46, 50, 51, 52, 53, 54, 55, 32, 32]

theorem parse_blanks : parse qt.toLongLong BTC blanks = (true, some 1234567) := by
  decide +kernel

end Sample

/-- With an amount the theorem applies to. -/
theorem parse_exact_iff_sample : parse Sample.qt.toLongLong BTC (format BTC (-150000000) false 8) =
    (true, some (-150000000)) ∧ (Exact Sample.qt BTC Sample.blanks ↔ ¬ Misread Sample.qt BTC Sample.blanks) :=
  ⟨(parse_exact_iff Sample.qt (by decide)).1 (-150000000) (by decide),
    (parse_exact_iff Sample.qt (by decide)).2 Sample.blanks⟩

/-- The blanks make it a hundredth: 0.01234567. -/
theorem not_exact : ¬ ∀ (C : Conversion) (unit : Int), valid unit = true → ∀ text, Exact C unit text := by
  intro h
  obtain ⟨n, sign, whole, fraction, -, hwritten, -⟩ :=
    h Sample.qt BTC (by decide) Sample.blanks (some 1234567) Sample.parse_blanks
  have hmem : ∀ c ∈ Sample.blanks, isFigure c = true ∨ c = 43 ∨ c = 45 ∨ c = 46 := by
    intro c hc
    have hall : c ∈ sign ∨ c ∈ whole ∨ c = 46 ∨ c ∈ fraction := by
      rcases hwritten.shape with ⟨heq, -⟩ | heq
      · rw [heq] at hc
        rcases List.mem_append.mp hc with hc | hc
        · exact .inl hc
        · exact .inr (.inl hc)
      · rw [heq] at hc
        simpa [or_assoc] using hc
    rcases hall with hc | hc | rfl | hc
    · rcases hwritten.sign_one with rfl | rfl | rfl
      · cases hc
      · exact .inr (.inl (List.mem_singleton.mp hc))
      · exact .inr (.inr (.inl (List.mem_singleton.mp hc)))
    · exact .inl (hwritten.whole_figures c hc)
    · exact .inr (.inr (.inr rfl))
    · exact .inl (hwritten.fraction_figures c hc)
  exact absurd (hmem 32 (by decide)) (by decide)

end BitcoinUnits

end Pinkcoin
