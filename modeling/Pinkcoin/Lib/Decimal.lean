/-
Numbers as decimal text: how they are printed, and the reader of the C
library, which skips blanks, takes a sign and digits, and stops at the first
other character.
-/
import Mathlib.Data.List.TakeWhile
import Mathlib.Data.Nat.Log
import Mathlib.Tactic.Ring

namespace Decimal

/-! ## Printing -/

def isDigit (c : UInt8) : Bool := 48 ≤ c && c ≤ 57

/-- White space, in the C locale. -/
def isBlank (c : UInt8) : Bool := c == 32 || (9 ≤ c && c ≤ 13)

/-- The last `fuel` digits, without zeros in front. -/
def digits : Nat → Nat → List UInt8
  | 0, _ => []
  | fuel + 1, n => (if n < 10 then [] else digits fuel (n / 10)) ++ [UInt8.ofNat (48 + n % 10)]

/-- `%u`. -/
def print (n : Nat) : List UInt8 := digits (n.log2 + 1) n

/-- `%d`. -/
def printInt (i : Int) : List UInt8 := if i < 0 then 45 :: print i.natAbs else print i.natAbs

/-- The value of some digits. -/
def value (ds : List UInt8) : Nat := ds.foldl (fun n c => 10 * n + (c.toNat - 48)) 0

theorem foldl_value (n : Nat) (ds : List UInt8) :
    ds.foldl (fun n c => 10 * n + (c.toNat - 48)) n = n * 10 ^ ds.length + value ds := by
  induction ds generalizing n with
  | nil => simp [value]
  | cons c ds ih =>
    rw [value, List.foldl_cons, List.foldl_cons, ih, ih, List.length_cons, Nat.pow_succ]
    ring

theorem value_append (a b : List UInt8) : value (a ++ b) = value a * 10 ^ b.length + value b := by
  rw [value, List.foldl_append, foldl_value]
  rfl

theorem value_cons (c : UInt8) (ds : List UInt8) : value (c :: ds) = (c.toNat - 48) * 10 ^ ds.length + value ds := by
  have happend := value_append [c] ds
  simpa [value] using happend

theorem digit_le {c : UInt8} (h : isDigit c = true) : c.toNat - 48 ≤ 9 := by
  simp [isDigit, UInt8.le_iff_toNat_le] at h
  omega

theorem value_lt {ds : List UInt8} (h : ∀ c ∈ ds, isDigit c = true) : value ds < 10 ^ ds.length := by
  induction ds with
  | nil => simp [value]
  | cons c ds ih =>
    have hrest := ih fun d hd => h d (List.mem_cons_of_mem _ hd)
    have hc := digit_le (h c List.mem_cons_self)
    have hmul : (c.toNat - 48) * 10 ^ ds.length ≤ 9 * 10 ^ ds.length := Nat.mul_le_mul_right _ hc
    rw [value_cons, List.length_cons, Nat.pow_succ]
    omega

theorem value_zeros (k : Nat) : value (List.replicate k 48) = 0 := by
  induction k with
  | zero => rfl
  | succ k ih =>
    rw [List.replicate_succ, value_cons, ih]
    simp

theorem value_digits {fuel n : Nat} (h : n < 10 ^ fuel) : value (digits fuel n) = n := by
  induction fuel generalizing n with
  | zero =>
    rw [Nat.pow_zero] at h
    simp [digits, value]
    omega
  | succ fuel ih =>
    by_cases hlt : n < 10
    · simp [digits, value, hlt]
      omega
    · have hn : n / 10 < 10 ^ fuel := by
        rw [Nat.pow_succ] at h
        omega
      have hrest : (digits fuel (n / 10)).foldl (fun n c => 10 * n + (c.toNat - 48)) 0 = n / 10 := ih hn
      simp [digits, value, hlt, hrest]
      omega

theorem value_print (n : Nat) : value (print n) = n := by
  refine value_digits ?_
  calc n < 2 ^ (n.log2 + 1) := Nat.lt_log2_self
    _ ≤ 10 ^ (n.log2 + 1) := Nat.pow_le_pow_left (by decide) _

theorem digits_isDigit {fuel n : Nat} : ∀ c ∈ digits fuel n, isDigit c = true := by
  induction fuel generalizing n with
  | zero => exact nofun
  | succ fuel ih =>
    intro c hc
    rcases List.mem_append.mp hc with hc | hc
    · split at hc
      · cases hc
      · exact ih c hc
    · rw [List.mem_singleton.mp hc]
      simp [isDigit, UInt8.le_iff_toNat_le]
      omega

theorem print_isDigit (n : Nat) : ∀ c ∈ print n, isDigit c = true := digits_isDigit

theorem print_ne_nil (n : Nat) : print n ≠ [] := by
  simp [print, digits]

/-- A number has no more digits than a power of ten above it. -/
theorem length_digits_le {fuel n k : Nat} (hk : 0 < k) (h : n < 10 ^ k) : (digits fuel n).length ≤ k := by
  induction fuel generalizing n k with
  | zero => exact Nat.zero_le k
  | succ fuel ih =>
    rw [digits, List.length_append, List.length_singleton]
    split
    next => exact hk
    next hge =>
      obtain ⟨j, rfl⟩ := Nat.exists_eq_add_one_of_ne_zero (Nat.pos_iff_ne_zero.mp hk)
      rw [Nat.pow_succ] at h
      have hj : 0 < j := by
        rcases Nat.eq_zero_or_pos j with rfl | hj
        · omega
        · exact hj
      have hrest : (digits fuel (n / 10)).length ≤ j := ih hj (by omega)
      omega

/-! ## Reading -/

/-- The sign in front of a number. -/
def sign : List UInt8 → Bool × List UInt8
  | 45 :: s => (true, s)
  | 43 :: s => (false, s)
  | s => (false, s)

/-- `strtoll` with the base 10: the number, kept in the range of its type, and
where the reader stops. Without a digit it does not move. -/
def strtoll (s : List UInt8) : Int × List UInt8 :=
  let (negative, t) := sign (s.dropWhile isBlank)
  let ds := t.takeWhile isDigit
  if ds = [] then (0, s)
  else
    let n : Int := if negative then -(value ds : Int) else value ds
    (max (-2 ^ 63) (min (2 ^ 63 - 1) n), t.dropWhile isDigit)

theorem not_blank_of_isDigit {c : UInt8} (h : isDigit c = true) : isBlank c = false := by
  simp only [isDigit, Bool.and_eq_true, decide_eq_true_eq, UInt8.le_iff_toNat_le] at h
  have h48 : (48 : UInt8).toNat = 48 := rfl
  simp only [isBlank, Bool.or_eq_false_iff, beq_eq_false_iff_ne, Bool.and_eq_false_iff, decide_eq_false_iff_not,
    UInt8.le_iff_toNat_le]
  have h13 : (13 : UInt8).toNat = 13 := rfl
  refine ⟨fun h32 => ?_, .inr (by omega)⟩
  rw [h32] at h
  exact absurd h.1 (by decide)

theorem sign_of_isDigit {c : UInt8} {s : List UInt8} (h : isDigit c = true) : sign (c :: s) = (false, c :: s) := by
  unfold sign
  split
  next heq =>
    obtain ⟨rfl, rfl⟩ := List.cons.inj heq
    exact absurd h (by decide)
  next heq =>
    obtain ⟨rfl, rfl⟩ := List.cons.inj heq
    exact absurd h (by decide)
  next => rfl

/-- What is printed is read, up to what follows it. -/
theorem takeWhile_print (n : Nat) {more : List UInt8} (hmore : ∀ c ∈ more.head?, isDigit c = false) :
    (print n ++ more).takeWhile isDigit = print n ∧ (print n ++ more).dropWhile isDigit = more := by
  have hstop : more.takeWhile isDigit = [] ∧ more.dropWhile isDigit = more := by
    cases more with
    | nil => exact ⟨rfl, rfl⟩
    | cons c more => simp [hmore c rfl]
  rw [List.takeWhile_append_of_pos (print_isDigit n), List.dropWhile_append_of_pos (print_isDigit n), hstop.1, hstop.2]
  exact ⟨List.append_nil _, rfl⟩

theorem strtoll_print {n : Nat} (hn : n < 2 ^ 63) {more : List UInt8} (hmore : ∀ c ∈ more.head?, isDigit c = false) :
    strtoll (print n ++ more) = ((n : Int), more) := by
  obtain ⟨htake, hdrop⟩ := takeWhile_print n hmore
  obtain ⟨c, rest, hprint⟩ := List.exists_cons_of_ne_nil (print_ne_nil n)
  have hc : isDigit c = true := print_isDigit n c (by simp [hprint])
  have hstart : sign ((print n ++ more).dropWhile isBlank) = (false, print n ++ more) := by
    rw [hprint, List.cons_append, List.dropWhile_cons_of_neg (by simp [not_blank_of_isDigit hc]), sign_of_isDigit hc]
  simp only [strtoll, hstart, htake, hdrop, if_neg (print_ne_nil n), value_print]
  refine Prod.ext ?_ rfl
  show max (-2 ^ 63) (min (2 ^ 63 - 1) (n : Int)) = n
  omega

theorem strtoll_printInt {i : Int} (hlow : -2 ^ 63 ≤ i) (hhigh : i < 2 ^ 63) {more : List UInt8}
    (hmore : ∀ c ∈ more.head?, isDigit c = false) : strtoll (printInt i ++ more) = (i, more) := by
  unfold printInt
  split
  next hneg =>
    obtain ⟨htake, hdrop⟩ := takeWhile_print i.natAbs hmore
    have hstart : sign ((45 :: print i.natAbs ++ more).dropWhile isBlank) = (true, print i.natAbs ++ more) := rfl
    simp only [strtoll, hstart, htake, hdrop, if_neg (print_ne_nil _), value_print]
    refine Prod.ext ?_ rfl
    show max (-2 ^ 63) (min (2 ^ 63 - 1) (-(i.natAbs : Int))) = i
    omega
  next hpos =>
    rw [strtoll_print (n := i.natAbs) (by omega) hmore]
    have hi : (i.natAbs : Int) = i := by omega
    exact Prod.ext hi rfl

/-- Digits alone, of a number that fits. -/
theorem strtoll_digits {ds : List UInt8} (h : ∀ c ∈ ds, isDigit c = true) (hlt : value ds < 2 ^ 63) :
    (strtoll ds).1 = value ds := by
  cases ds with
  | nil => rfl
  | cons c ds =>
    have hc := h c List.mem_cons_self
    have hstart : sign ((c :: ds).dropWhile isBlank) = (false, c :: ds) := by
      rw [List.dropWhile_cons_of_neg (by simp [not_blank_of_isDigit hc]), sign_of_isDigit hc]
    have htake : (c :: ds).takeWhile isDigit = c :: ds := List.takeWhile_eq_self_iff.mpr h
    simp only [strtoll, hstart, htake]
    change max (-2 ^ 63) (min (2 ^ 63 - 1) (value (c :: ds) : Int)) = value (c :: ds)
    omega

end Decimal
