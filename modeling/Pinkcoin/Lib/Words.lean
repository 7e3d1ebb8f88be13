/-
Numbers as lists of words, the least significant one first: the value of a
list, its bits, and the loops over two lists that carry something from one
word to the next.
-/
import Mathlib.Data.Nat.Bitwise
import Mathlib.Tactic.Ring

namespace Words

variable {w : Nat} {σ : Type} {xs ys zs : List (BitVec w)} {x y : BitVec w}

/-! ## Values -/

/-- The number that some words are. -/
def value : List (BitVec w) → Nat
  | [] => 0
  | x :: xs => x.toNat + 2 ^ w * value xs

@[simp] theorem value_nil : value ([] : List (BitVec w)) = 0 := rfl

@[simp] theorem value_cons (x : BitVec w) (xs : List (BitVec w)) : value (x :: xs) = x.toNat + 2 ^ w * value xs := rfl

theorem value_lt (xs : List (BitVec w)) : value xs < 2 ^ (w * xs.length) := by
  induction xs with
  | nil => simp
  | cons x xs ih =>
    have hx : x.toNat < 2 ^ w := x.isLt
    have hle : 2 ^ w * (value xs + 1) ≤ 2 ^ w * 2 ^ (w * xs.length) := Nat.mul_le_mul_left _ ih
    rw [value_cons, List.length_cons, Nat.mul_succ, Nat.add_comm (w * xs.length), Nat.pow_add]
    rw [Nat.mul_succ] at hle
    omega

theorem value_append (xs ys : List (BitVec w)) : value (xs ++ ys) = value xs + 2 ^ (w * xs.length) * value ys := by
  induction xs with
  | nil => simp
  | cons x xs ih =>
    rw [List.cons_append, value_cons, value_cons, ih, List.length_cons, Nat.mul_succ, Nat.pow_add]
    ring

theorem value_replicate_zero (n : Nat) : value (List.replicate n (0#w)) = 0 := by
  induction n with
  | zero => rfl
  | succ n ih => simp [List.replicate_succ, ih]

/-- The first word is the rest by the size of a word, and the others are the
quotient. -/
theorem value_cons_mod (x : BitVec w) (xs : List (BitVec w)) : value (x :: xs) % 2 ^ w = x.toNat := by
  rw [value_cons, Nat.add_mul_mod_self_left, Nat.mod_eq_of_lt x.isLt]

theorem value_cons_div (x : BitVec w) (xs : List (BitVec w)) : value (x :: xs) / 2 ^ w = value xs := by
  rw [value_cons, Nat.add_mul_div_left _ _ (Nat.two_pow_pos w), Nat.div_eq_of_lt x.isLt, Nat.zero_add]

/-- **Words are known by their number and their value.** -/
theorem value_inj (hlength : xs.length = ys.length) (h : value xs = value ys) : xs = ys := by
  induction xs generalizing ys with
  | nil =>
    cases ys with
    | nil => rfl
    | cons y ys => cases hlength
  | cons x xs ih =>
    cases ys with
    | nil => cases hlength
    | cons y ys =>
      have hmod := congrArg (· % 2 ^ w) h
      have hdiv := congrArg (· / 2 ^ w) h
      simp only [value_cons_mod] at hmod
      simp only [value_cons_div] at hdiv
      rw [BitVec.eq_of_toNat_eq hmod, ih (Nat.succ.inj hlength) hdiv]

/-! ## Bits -/

/-- **A bit is one of a word.** -/
theorem testBit_value (xs : List (BitVec w)) (q : Nat) {r : Nat} (hr : r < w) :
    (value xs).testBit (w * q + r) = (xs.getD q 0#w).getLsbD r := by
  induction xs generalizing q with
  | nil => simp
  | cons x xs ih =>
    rw [value_cons, Nat.add_comm, Nat.testBit_two_pow_mul_add _ x.isLt]
    cases q with
    | zero =>
      rw [Nat.mul_zero, Nat.zero_add, if_pos hr]
      rfl
    | succ q =>
      have hge : ¬ w * (q + 1) + r < w := by
        rw [Nat.mul_succ]
        omega
      have hsub : w * (q + 1) + r - w = w * q + r := by
        rw [Nat.mul_succ]
        omega
      rw [if_neg hge, hsub, ih, List.getD_cons_succ]

/-- Two numbers of so many words are equal if their words have the same bits. -/
theorem eq_of_bits (hw : 0 < w) {m n : Nat}
    (h : ∀ q r, r < w → m.testBit (w * q + r) = n.testBit (w * q + r)) : m = n := by
  refine Nat.eq_of_testBit_eq fun j => ?_
  have hsplit := h (j / w) (j % w) (Nat.mod_lt j hw)
  rwa [Nat.div_add_mod] at hsplit

/-- An operation on the words one by one is the operation on the number, if it
is one on the bits. -/
theorem value_zipWith (hw : 0 < w) {f : BitVec w → BitVec w → BitVec w} {g : Nat → Nat → Nat}
    {b : Bool → Bool → Bool} (hb : b false false = false)
    (hf : ∀ x y r, r < w → (f x y).getLsbD r = b (x.getLsbD r) (y.getLsbD r))
    (hg : ∀ m n j, (g m n).testBit j = b (m.testBit j) (n.testBit j)) (hlength : xs.length = ys.length) :
    value (List.zipWith f xs ys) = g (value xs) (value ys) := by
  refine eq_of_bits hw fun q r hr => ?_
  rw [hg, testBit_value _ _ hr, testBit_value _ _ hr, testBit_value _ _ hr]
  by_cases hq : q < xs.length
  · have hq' : q < ys.length := hlength ▸ hq
    rw [List.getD_eq_getElem _ _ hq, List.getD_eq_getElem _ _ hq',
      List.getD_eq_getElem _ _ (by rw [List.length_zipWith]; omega), List.getElem_zipWith, hf _ _ _ hr]
  · have hq' : ¬ q < ys.length := hlength ▸ hq
    rw [List.getD_eq_default _ _ (Nat.not_lt.mp hq), List.getD_eq_default _ _ (Nat.not_lt.mp hq'),
      List.getD_eq_default _ _ (by rw [List.length_zipWith]; omega), BitVec.getLsbD_zero, hb]

/-- All bits turned over. -/
theorem value_map_not (xs : List (BitVec w)) : value (xs.map (~~~ ·)) + value xs + 1 = 2 ^ (w * xs.length) := by
  induction xs with
  | nil => simp
  | cons x xs ih =>
    have hx : (~~~x).toNat + x.toNat + 1 = 2 ^ w := by
      have hlt : x.toNat < 2 ^ w := x.isLt
      rw [BitVec.toNat_not]
      omega
    rw [List.map_cons, value_cons, value_cons, List.length_cons, Nat.mul_succ, Nat.pow_add, ← ih]
    calc (~~~x).toNat + 2 ^ w * value (xs.map (~~~ ·)) + (x.toNat + 2 ^ w * value xs) + 1
      _ = ((~~~x).toNat + x.toNat + 1) + 2 ^ w * (value (xs.map (~~~ ·)) + value xs) := by ring
      _ = 2 ^ w + 2 ^ w * (value (xs.map (~~~ ·)) + value xs) := by rw [hx]
      _ = (value (xs.map (~~~ ·)) + value xs + 1) * 2 ^ w := by ring

/-! ## Loops over two lists -/

/-- A loop from the least significant word on. -/
def ripple (step : σ → BitVec w → BitVec w → BitVec w × σ) : σ → List (BitVec w) → List (BitVec w) → List (BitVec w) × σ
  | s, x :: xs, y :: ys =>
    let r := step s x y
    let rest := ripple step r.2 xs ys
    (r.1 :: rest.1, rest.2)
  | s, _, _ => ([], s)

variable {step : σ → BitVec w → BitVec w → BitVec w × σ} {s : σ}

/-- **What is carried makes up the sum:** if each step adds its two words and
what came in, the loop adds the two numbers. -/
theorem value_ripple (weight : σ → Nat) (Ok : σ → Prop)
    (hok : ∀ s x y, Ok s → Ok (step s x y).2)
    (hsum : ∀ s x y, Ok s → (step s x y).1.toNat + 2 ^ w * weight (step s x y).2 = weight s + x.toNat + y.toNat)
    (hs : Ok s) (hlength : xs.length = ys.length) :
    value (ripple step s xs ys).1 + 2 ^ (w * xs.length) * weight (ripple step s xs ys).2 =
      weight s + value xs + value ys := by
  induction xs generalizing ys s with
  | nil =>
    cases ys with
    | nil => simp [ripple]
    | cons y ys => cases hlength
  | cons x xs ih =>
    cases ys with
    | nil => cases hlength
    | cons y ys =>
      have hrest := ih (hok s x y hs) (Nat.succ.inj hlength)
      have hstep := hsum s x y hs
      rw [ripple]
      simp only [value_cons, List.length_cons]
      rw [Nat.mul_succ, Nat.pow_add]
      calc _ = (step s x y).1.toNat + 2 ^ w * (value (ripple step (step s x y).2 xs ys).1 +
            2 ^ (w * xs.length) * weight (ripple step (step s x y).2 xs ys).2) := by ring
        _ = ((step s x y).1.toNat + 2 ^ w * weight (step s x y).2) + 2 ^ w * (value xs + value ys) := by
          rw [hrest]
          ring
        _ = weight s + (x.toNat + 2 ^ w * value xs) + (y.toNat + 2 ^ w * value ys) := by
          rw [hstep]
          ring

/-- A loop that carries nothing. -/
theorem ripple_zipWith (f : BitVec w → BitVec w → BitVec w) (s : σ) (xs ys : List (BitVec w)) :
    (ripple (fun s x y => (f x y, s)) s xs ys).1 = List.zipWith f xs ys := by
  induction xs generalizing ys with
  | nil => cases ys <;> rfl
  | cons x xs ih =>
    cases ys with
    | nil => rfl
    | cons y ys => exact congrArg (f x y :: ·) (ih ys)

/-! ## Loops in place -/

/-- The loop on an array, whose operand is read off the array as it is then. -/
def inPlace (step : σ → BitVec w → BitVec w → BitVec w × σ) (operand : List (BitVec w) → List (BitVec w))
    (xs : List (BitVec w)) (s : σ) : List (BitVec w) × σ :=
  (List.range xs.length).foldl (fun t i =>
    let r := step t.2 (t.1.getD i 0#w) ((operand t.1).getD i 0#w)
    (t.1.set i r.1, r.2)) (xs, s)

theorem length_inPlace (operand : List (BitVec w) → List (BitVec w)) (xs : List (BitVec w)) (s : σ) :
    (inPlace step operand xs s).1.length = xs.length := by
  have hloop : ∀ (l : List Nat) (t : List (BitVec w) × σ), (l.foldl (fun t i =>
      let r := step t.2 (t.1.getD i 0#w) ((operand t.1).getD i 0#w)
      (t.1.set i r.1, r.2)) t).1.length = t.1.length := by
    intro l
    induction l with
    | nil => intro t; rfl
    | cons i l ih =>
      intro t
      rw [List.foldl_cons, ih, List.length_set]
  exact hloop _ (xs, s)

/-- **In place as well as not**, if the operand has in each place what it had
at the start, when the places before have been written. -/
theorem inPlace_eq {operand : List (BitVec w) → List (BitVec w)} (hlength : xs.length = ys.length)
    (hread : ∀ front, front.length < xs.length →
      (operand (front ++ xs.drop front.length)).getD front.length 0#w = ys.getD front.length 0#w) :
    inPlace step operand xs s = ripple step s xs ys := by
  have hloop : ∀ (todo : List (BitVec w)) (front : List (BitVec w)) (t : σ), front.length + todo.length = xs.length →
      todo = xs.drop front.length →
      (List.range' front.length todo.length).foldl (fun t i =>
        let r := step t.2 (t.1.getD i 0#w) ((operand t.1).getD i 0#w)
        (t.1.set i r.1, r.2)) (front ++ todo, t) =
      (front ++ (ripple step t todo (ys.drop front.length)).1, (ripple step t todo (ys.drop front.length)).2) := by
    intro todo
    induction todo with
    | nil =>
      intro front t _ _
      simp [ripple]
    | cons x todo ih =>
      intro front t hsum htodo
      rw [List.length_cons] at hsum
      have hlt : front.length < ys.length := by omega
      have hx : (front ++ x :: todo).getD front.length 0#w = x := by simp [List.getD_eq_getElem?_getD]
      have hy : (operand (front ++ x :: todo)).getD front.length 0#w = ys[front.length] := by
        rw [htodo, hread front (by omega), List.getD_eq_getElem _ _ hlt]
      have hset : ∀ z, (front ++ x :: todo).set front.length z = (front ++ [z]) ++ todo := by
        intro z
        simp
      have hrest : todo = xs.drop (front.length + 1) := by
        rw [← List.tail_drop, ← htodo]
        rfl
      rw [List.length_cons, List.range'_succ, List.foldl_cons, List.drop_eq_getElem_cons hlt]
      simp only [hx, hy, hset]
      have hnext := ih (front ++ [(step t x ys[front.length]).1]) (step t x ys[front.length]).2
        (by rw [List.length_append, List.length_singleton]; omega)
        (by rw [List.length_append, List.length_singleton]; exact hrest)
      rw [List.length_append, List.length_singleton] at hnext
      rw [hnext, ripple]
      simp
  have hall := hloop xs [] s (by simp) (by simp)
  rw [inPlace, List.range_eq_range']
  simpa using hall

/-- An operand of its own. -/
theorem inPlace_const (hlength : xs.length = ys.length) : inPlace step (fun _ => ys) xs s = ripple step s xs ys :=
  inPlace_eq hlength fun _ _ => rfl

/-- The array as its own operand. -/
theorem inPlace_self : inPlace step id xs s = ripple step s xs xs := by
  refine inPlace_eq rfl fun front hlt => ?_
  rw [id, List.getD_append_right _ _ _ _ (Nat.le_refl _), Nat.sub_self, List.getD_eq_getElem?_getD,
    List.getElem?_drop, Nat.add_zero, List.getD_eq_getElem?_getD]

/-! ## Loops that set bits -/

/-- `|=` of one word. -/
def orAt (xs : List (BitVec w)) (j : Nat) (x : BitVec w) : List (BitVec w) := xs.modify j (· ||| x)

@[simp] theorem length_orAt (xs : List (BitVec w)) (j : Nat) (x : BitVec w) : (orAt xs j x).length = xs.length :=
  List.length_modify ..

theorem getLsbD_orAt {i j : Nat} (hj : j < xs.length) (r : Nat) :
    ((orAt xs i x).getD j 0#w).getLsbD r = ((xs.getD j 0#w).getLsbD r || (decide (i = j) && x.getLsbD r)) := by
  rw [orAt, List.getD_eq_getElem _ _ (by rwa [List.length_modify]), List.getElem_modify,
    List.getD_eq_getElem _ _ hj]
  by_cases h : i = j
  · simp [h]
  · simp [h]

theorem length_orLoop {turn : List (BitVec w) → Nat → List (BitVec w)}
    (hlength : ∀ xs i, (turn xs i).length = xs.length) (n : Nat) (xs : List (BitVec w)) :
    ((List.range n).foldl turn xs).length = xs.length := by
  induction n with
  | zero => rfl
  | succ n ih => rw [List.range_succ, List.foldl_append, List.foldl_cons, List.foldl_nil, hlength, ih]

/-- **The loop sets what its turns set.** -/
theorem getLsbD_orLoop (turn : List (BitVec w) → Nat → List (BitVec w)) (bits : Nat → Nat → Nat → Bool)
    (hlength : ∀ xs i, (turn xs i).length = xs.length)
    (hturn : ∀ xs i j r, j < xs.length →
      ((turn xs i).getD j 0#w).getLsbD r = ((xs.getD j 0#w).getLsbD r || bits i j r))
    (n : Nat) {j : Nat} (hj : j < xs.length) (r : Nat) :
    (((List.range n).foldl turn xs).getD j 0#w).getLsbD r = true ↔
      (xs.getD j 0#w).getLsbD r = true ∨ ∃ i < n, bits i j r = true := by
  induction n with
  | zero => simp
  | succ n ih =>
    rw [List.range_succ, List.foldl_append, List.foldl_cons, List.foldl_nil,
      hturn _ _ _ _ (by rwa [length_orLoop hlength]),
      Bool.or_eq_true, ih, Nat.exists_lt_succ_right, or_assoc]

end Words
