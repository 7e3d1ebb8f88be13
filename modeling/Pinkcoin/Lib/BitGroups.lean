/-
Numbers of a fixed width written one behind the other as one string of bits,
the highest bit first, and machines that read numbers of one width and write
numbers of another.
-/
import Mathlib.Data.Nat.Bitwise

namespace BitGroups

variable {σ : Type} {w k : Nat}

/-! ## Strings of bits -/

/-- The low `w` bits of a number, the highest first. -/
def toBits : Nat → Nat → List Bool
  | 0, _ => []
  | w + 1, x => x.testBit w :: toBits w x

@[simp] theorem length_toBits (w x : Nat) : (toBits w x).length = w := by
  induction w with
  | zero => rfl
  | succ w ih => simp [toBits, ih]

theorem toBits_zero (w : Nat) : toBits w 0 = List.replicate w false := by
  induction w with
  | zero => rfl
  | succ w ih => simp [toBits, ih, List.replicate_succ]

/-- The low bits are the last ones. -/
theorem toBits_add (m n x : Nat) : toBits (m + n) x = toBits m (x >>> n) ++ toBits n x := by
  induction m with
  | zero => simp [toBits]
  | succ m ih =>
    rw [Nat.add_right_comm]
    simp [toBits, ih, Nat.add_comm n m]

theorem testBit_of_toBits_eq {x y : Nat} (h : toBits w x = toBits w y) {i : Nat} (hi : i < w) :
    x.testBit i = y.testBit i := by
  induction w with
  | zero => omega
  | succ w ih =>
    obtain ⟨htop, hrest⟩ := List.cons.inj h
    rcases Nat.lt_succ_iff_lt_or_eq.mp hi with hlt | rfl
    · exact ih hrest hlt
    · exact htop

theorem toBits_inj {x y : Nat} (hx : x < 2 ^ w) (hy : y < 2 ^ w) (h : toBits w x = toBits w y) : x = y := by
  refine Nat.eq_of_testBit_eq fun i => ?_
  rcases Nat.lt_or_ge i w with hi | hi
  · exact testBit_of_toBits_eq h hi
  · have hpow : 2 ^ w ≤ 2 ^ i := Nat.pow_le_pow_right (by decide) hi
    rw [Nat.testBit_lt_two_pow (by omega), Nat.testBit_lt_two_pow (by omega)]

theorem toBits_mod (w x : Nat) : toBits w (x % 2 ^ w) = toBits w x := by
  suffices h : ∀ n, n ≤ w → toBits n (x % 2 ^ w) = toBits n x from h w (Nat.le_refl w)
  intro n hn
  induction n with
  | zero => rfl
  | succ n ih =>
    have hlt : n < w := hn
    simp [toBits, ih (by omega), Nat.testBit_mod_two_pow, hlt]

/-- The low bits are all zero. -/
theorem toBits_eq_zeros_iff (w x : Nat) : toBits w x = List.replicate w false ↔ x % 2 ^ w = 0 := by
  have hpos : 0 < 2 ^ w := Nat.two_pow_pos w
  rw [← toBits_mod, ← toBits_zero]
  exact ⟨fun h => toBits_inj (Nat.mod_lt _ hpos) hpos h, fun h => by rw [h]⟩

/-- Numbers of `w` bits, one behind the other. -/
def bitsOf (w : Nat) (xs : List Nat) : List Bool := xs.flatMap (toBits w)

@[simp] theorem bitsOf_nil (w : Nat) : bitsOf w [] = [] := rfl

@[simp] theorem bitsOf_cons (w x : Nat) (xs : List Nat) : bitsOf w (x :: xs) = toBits w x ++ bitsOf w xs := rfl

@[simp] theorem bitsOf_append (w : Nat) (xs ys : List Nat) : bitsOf w (xs ++ ys) = bitsOf w xs ++ bitsOf w ys :=
  List.flatMap_append

@[simp] theorem length_bitsOf (w : Nat) (xs : List Nat) : (bitsOf w xs).length = w * xs.length := by
  induction xs with
  | nil => simp
  | cons x xs ih => simp [ih, Nat.mul_add, Nat.add_comm]

theorem bitsOf_inj {xs ys : List Nat} (hx : ∀ x ∈ xs, x < 2 ^ w) (hy : ∀ y ∈ ys, y < 2 ^ w)
    (hlen : xs.length = ys.length) (h : bitsOf w xs = bitsOf w ys) : xs = ys := by
  induction xs generalizing ys with
  | nil => exact (List.length_eq_zero_iff.mp hlen.symm).symm
  | cons x xs ih =>
    cases ys with
    | nil => cases hlen
    | cons y ys =>
      obtain ⟨hhead, hrest⟩ := List.append_inj h (by simp)
      rw [toBits_inj (hx x List.mem_cons_self) (hy y List.mem_cons_self) hhead,
        ih (fun x h => hx x (List.mem_cons_of_mem _ h)) (fun y h => hy y (List.mem_cons_of_mem _ h)) (Nat.succ.inj hlen) hrest]

/-- Behind the numbers there are fewer bits than a number has: the numbers
can be told from the bits. -/
theorem eq_of_bitsOf_append {xs ys : List Nat} {r t : List Bool} (hx : ∀ x ∈ xs, x < 2 ^ w) (hy : ∀ y ∈ ys, y < 2 ^ w)
    (hr : r.length < w) (ht : t.length < w) (h : bitsOf w xs ++ r = bitsOf w ys ++ t) : xs = ys ∧ r = t := by
  have hbits : w * xs.length + r.length = w * ys.length + t.length := by
    simpa using congrArg List.length h
  have hlen : xs.length = ys.length := by
    rcases Nat.lt_trichotomy xs.length ys.length with hlt | heq | hgt
    · have := Nat.mul_le_mul_left w (Nat.succ_le_of_lt hlt)
      rw [Nat.mul_succ] at this
      omega
    · exact heq
    · have := Nat.mul_le_mul_left w (Nat.succ_le_of_lt hgt)
      rw [Nat.mul_succ] at this
      omega
  obtain ⟨hnumbers, hrest⟩ := List.append_inj h (by simp [hlen])
  exact ⟨bitsOf_inj hx hy hlen hnumbers, hrest⟩

/-! ## Machines -/

/-- What a machine writes while it reads, and the state it ends in. -/
def emit (step : σ → Nat → List Nat × σ) : σ → List Nat → List Nat × σ
  | s, [] => ([], s)
  | s, x :: xs => ((step s x).1 ++ (emit step (step s x).2 xs).1, (emit step (step s x).2 xs).2)

/-- **A machine that regroups bits**: it reads numbers of `w` bits and writes
numbers of `k` bits, and what is not yet written is held in its state. -/
structure Regroups (w k : Nat) (step : σ → Nat → List Nat × σ) (Holds : σ → List Bool → Prop) : Prop where
  one : ∀ {s : σ} {held : List Bool} {x : Nat}, Holds s held → x < 2 ^ w →
    (∀ y ∈ (step s x).1, y < 2 ^ k) ∧
      ∃ held', Holds (step s x).2 held' ∧ bitsOf k (step s x).1 ++ held' = held ++ toBits w x

/-- A whole run writes the bits it has read, but for those it holds. -/
theorem Regroups.run {step : σ → Nat → List Nat × σ} {Holds : σ → List Bool → Prop} (h : Regroups w k step Holds)
    {s : σ} {held : List Bool} {xs : List Nat} (hs : Holds s held) (hxs : ∀ x ∈ xs, x < 2 ^ w) :
    (∀ y ∈ (emit step s xs).1, y < 2 ^ k) ∧
      ∃ held', Holds (emit step s xs).2 held' ∧ bitsOf k (emit step s xs).1 ++ held' = held ++ bitsOf w xs := by
  induction xs generalizing s held with
  | nil => exact ⟨nofun, held, hs, by simp [emit]⟩
  | cons x xs ih =>
    obtain ⟨hbound, held', hs', hstep⟩ := h.one hs (hxs x List.mem_cons_self)
    obtain ⟨hbounds, held'', hs'', hrest⟩ := ih hs' fun x h => hxs x (List.mem_cons_of_mem _ h)
    refine ⟨fun y hy => ?_, held'', hs'', ?_⟩
    · rcases List.mem_append.mp hy with hy | hy
      · exact hbound y hy
      · exact hbounds y hy
    · calc bitsOf k (emit step s (x :: xs)).1 ++ held''
          = bitsOf k (step s x).1 ++ (bitsOf k (emit step (step s x).2 xs).1 ++ held'') := by simp [emit]
        _ = bitsOf k (step s x).1 ++ held' ++ bitsOf w xs := by rw [hrest, List.append_assoc]
        _ = held ++ bitsOf w (x :: xs) := by rw [hstep, bitsOf_cons, List.append_assoc]

end BitGroups
