/-
A stream of frames, received byte by byte: after so many bytes of the stream
some frames are whole, and of the next one a part may have come.
-/
import Mathlib.Data.List.Basic
import Mathlib.Algebra.Order.Ring.Nat
import Mathlib.Algebra.BigOperators.Group.List.Basic

namespace Frames

-- a frame has a size, and `after f n` is what is known of it after `n` bytes
variable {F M : Type} (size : F → Nat) (after : F → Nat → M)

/-- What is known after `n` bytes. -/
def received : List F → Nat → List M
  | [], _ => []
  | f :: frames, n =>
    if n = 0 then []
    else if n < size f then [after f n]
    else after f (size f) :: received frames (n - size f)

/-- The frames that are whole. -/
def whole : List F → Nat → List F
  | [], _ => []
  | f :: frames, n => if n < size f then [] else f :: whole frames (n - size f)

def total (frames : List F) : Nat := (frames.map size).sum

@[simp] theorem total_nil : total size [] = 0 := rfl

@[simp] theorem total_cons (f : F) (frames : List F) : total size (f :: frames) = size f + total size frames := by
  simp [total]

variable {size after} {f : F} {done frames : List F} {n : Nat}

@[simp] theorem received_zero : received size after frames 0 = [] := by
  cases frames <;> simp [received]

/-- Frames that came whole stay as they are. -/
theorem received_append (after : F → Nat → M) (frames : List F) (n : Nat) (hpos : ∀ f ∈ done, 0 < size f) :
    received size after (done ++ frames) (total size done + n) = done.map (fun f => after f (size f)) ++ received size after frames n := by
  induction done with
  | nil => simp
  | cons f done ih =>
    have hf := hpos f (by simp)
    have hrest := ih fun g hg => hpos g (by simp [hg])
    have hsub : size f + total size done + n - size f = total size done + n := by omega
    rw [List.cons_append, received, total_cons, if_neg (by omega), if_neg (by omega), hsub, hrest]
    simp

/-- Frames that did not begin. -/
theorem received_push (hn : n ≤ total size frames) : received size after (frames ++ done) n = received size after frames n := by
  induction frames generalizing n with
  | nil =>
    obtain rfl : n = 0 := Nat.le_zero.mp hn
    simp
  | cons f frames ih =>
    rw [total_cons] at hn
    rw [List.cons_append, received, received, ih (n := n - size f) (by omega)]

/-- The frame that comes next. -/
theorem received_next (hn : n ≤ size f) : received size after (f :: frames) n = if n = 0 then [] else [after f n] := by
  rw [received]
  by_cases hzero : n = 0
  · simp [hzero]
  · by_cases hlt : n < size f
    · simp [hzero, hlt]
    · have heq : n = size f := by omega
      simp [heq]

/-- While bytes are missing a frame is under way. -/
theorem exists_next (hpos : ∀ f ∈ frames, 0 < size f) (hn : n < total size frames) :
    ∃ done f rest part, frames = done ++ f :: rest ∧ n = total size done + part ∧ part < size f := by
  induction frames generalizing n with
  | nil => simp at hn
  | cons f frames ih =>
    by_cases hlt : n < size f
    · exact ⟨[], f, frames, n, rfl, by simp, hlt⟩
    · rw [total_cons] at hn
      obtain ⟨done, g, rest, part, rfl, hpart, hg⟩ := ih (n := n - size f) (fun g hg => hpos g (by simp [hg])) (by omega)
      refine ⟨f :: done, g, rest, part, rfl, ?_, hg⟩
      rw [total_cons]
      omega

/-- **What was received**: the whole frames in order, and at most a part of one
more. -/
theorem received_eq (after : F → Nat → M) (hpos : ∀ f ∈ frames, 0 < size f) : ∃ part : List M,
    received size after frames n = (whole size frames n).map (fun f => after f (size f)) ++ part ∧
    (part = [] ∨ ∃ f m, 0 < m ∧ m < size f ∧ part = [after f m]) := by
  induction frames generalizing n with
  | nil => exact ⟨[], rfl, .inl rfl⟩
  | cons f frames ih =>
    rw [received, whole]
    by_cases hlt : n < size f
    · simp only [if_pos hlt]
      by_cases hzero : n = 0
      · exact ⟨[], by simp [hzero], .inl rfl⟩
      · refine ⟨[after f n], by simp [hzero], .inr ⟨f, n, by omega, hlt, rfl⟩⟩
    · rw [if_neg hlt]
      obtain ⟨part, hpart, hlast⟩ := ih (n := n - size f) fun g hg => hpos g (by simp [hg])
      have hzero : n ≠ 0 := by
        have hf := hpos f (by simp)
        omega
      exact ⟨part, by simp [hzero, hlt, hpart], hlast⟩

theorem whole_prefix : whole size frames n <+: frames := by
  induction frames generalizing n with
  | nil => simp [whole]
  | cons f frames ih =>
    rw [whole]
    by_cases hlt : n < size f
    · simp [hlt]
    · rw [if_neg hlt]
      exact (List.prefix_cons_inj f).mpr ih

/-- With the last byte the last frame is whole. -/
theorem whole_total : whole size frames (total size frames) = frames := by
  induction frames with
  | nil => rfl
  | cons f frames ih =>
    rw [whole, total_cons, if_neg (by omega), Nat.add_sub_cancel_left, ih]

end Frames
