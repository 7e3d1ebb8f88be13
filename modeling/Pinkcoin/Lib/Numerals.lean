/-
Digits with the most significant one in front. How many zeros they start with
and the number they stand for say which digits they are, in every base; so the
digits of one base can be written in another one and back.
-/
import Mathlib.Data.List.TakeWhile
import Mathlib.Data.Nat.Digits.Lemmas

namespace Numerals

variable {b c : Nat}

/-- Some zeros, and the digits of a number. -/
def numeral (b z n : Nat) : List Nat := List.replicate z 0 ++ (Nat.digits b n).reverse

/-- The number of zeros in front. -/
def zeros (ds : List Nat) : Nat := (ds.takeWhile (· = 0)).length

/-- The number some digits stand for. -/
def value (b : Nat) (ds : List Nat) : Nat := Nat.ofDigits b ds.reverse

/-- The digits to another base, with as many zeros in front. -/
def convert (b c : Nat) (ds : List Nat) : List Nat := numeral c (zeros ds) (value b ds)

theorem numeral_lt (hb : 1 < b) {z n d : Nat} (h : d ∈ numeral b z n) : d < b := by
  rcases List.mem_append.mp h with h | h
  · rw [List.eq_of_mem_replicate h]
    omega
  · exact Nat.digits_lt_base hb (List.mem_reverse.mp h)

theorem value_numeral (b z n : Nat) : value b (numeral b z n) = n := by
  simp [value, numeral, Nat.ofDigits_append, Nat.ofDigits_digits]

theorem zeros_replicate_append (z : Nat) {ds : List Nat} (h : ∀ d ∈ ds.head?, d ≠ 0) : zeros (List.replicate z 0 ++ ds) = z := by
  have hstop : ds.takeWhile (· = 0) = [] := by
    cases ds with
    | nil => rfl
    | cons d ds => simp [h d rfl]
  rw [zeros, List.takeWhile_append_of_pos (by simp), hstop, List.append_nil, List.length_replicate]

theorem zeros_numeral (b z n : Nat) : zeros (numeral b z n) = z := by
  refine zeros_replicate_append z fun d hd => ?_
  rw [List.head?_reverse] at hd
  have hn : n ≠ 0 := by
    rintro rfl
    simp at hd
  have hlast := List.getLast?_eq_some_getLast (Nat.digits_ne_nil_iff_ne_zero.mpr hn : Nat.digits b n ≠ [])
  rw [hlast] at hd
  obtain rfl := Option.some.inj hd
  exact Nat.getLast_digit_ne_zero b hn

/-- Digits are the zeros in front of them and the digits of their number. -/
theorem numeral_eq (hb : 1 < b) {ds : List Nat} (h : ∀ d ∈ ds, d < b) : numeral b (zeros ds) (value b ds) = ds := by
  have hsplit : ds = List.replicate (zeros ds) 0 ++ ds.dropWhile (· = 0) := by
    have hzeros : ds.takeWhile (· = 0) = List.replicate (zeros ds) 0 :=
      List.eq_replicate_iff.mpr ⟨rfl, fun d hd => by simpa using List.mem_takeWhile_imp hd⟩
    rw [← hzeros]
    exact List.takeWhile_append_dropWhile.symm
  have hvalue : value b ds = Nat.ofDigits b (ds.dropWhile (· = 0)).reverse := by
    conv => lhs; rw [hsplit]
    simp [value, Nat.ofDigits_append]
  have hdigits : Nat.digits b (value b ds) = (ds.dropWhile (· = 0)).reverse := by
    rw [hvalue]
    refine Nat.digits_ofDigits b hb _ (fun d hd => h d ((List.dropWhile_sublist _).subset (List.mem_reverse.mp hd))) fun hne => ?_
    rw [List.getLast_reverse]
    have hhead := List.head_dropWhile_not (fun d => decide (d = 0)) (by simpa using hne)
    simpa using hhead
  rw [numeral, hdigits, List.reverse_reverse]
  exact hsplit.symm

/-- **Digits are found again** in the other base. -/
theorem convert_convert (hb : 1 < b) {ds : List Nat} (h : ∀ d ∈ ds, d < b) : convert c b (convert b c ds) = ds := by
  rw [convert, convert, zeros_numeral, value_numeral, numeral_eq hb h]

theorem convert_lt (hc : 1 < c) {ds : List Nat} {d : Nat} (h : d ∈ convert b c ds) : d < c := numeral_lt hc h

/-- The number, one digit after the other. -/
theorem foldl_eq (b : Nat) (ds : List Nat) (n : Nat) :
    ds.foldl (fun n d => n * b + d) n = n * b ^ ds.length + value b ds := by
  induction ds generalizing n with
  | nil => simp [value]
  | cons d ds ih =>
    rw [List.foldl_cons, ih, List.length_cons]
    simp [value, Nat.ofDigits_append, Nat.pow_succ]
    ring

theorem value_lt (hb : 1 < b) {ds : List Nat} (h : ∀ d ∈ ds, d < b) : value b ds < b ^ ds.length := by
  have := @Nat.ofDigits_lt_base_pow_length b ds.reverse hb fun d hd => h d (List.mem_reverse.mp hd)
  rwa [List.length_reverse] at this

end Numerals
