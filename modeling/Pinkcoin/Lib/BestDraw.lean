/-
One element drawn from a sorted list: of those that are free, the one with the
least key in a window, or the first where the window has none.
-/
import Mathlib.Data.List.Pairwise
import Mathlib.Order.Lattice

namespace BestDraw

variable {α K : Type} [LinearOrder K]

/-- The one with the smaller key, the first of equals. -/
def better (key : α → K) (a : α) : Option α → α
  | none => a
  | some b => if key a < key b then a else b

/-- The scan, with the best so far: an element past the window ends it once
there is one. -/
def scan (key : α → K) (late taken : α → Prop) [DecidablePred late] [DecidablePred taken] : List α → Option α → Option α
  | [], best => best
  | a :: rest, best =>
    if best.isSome ∧ late a then best
    else if taken a then scan key late taken rest best
    else scan key late taken rest (some (better key a best))

/-- **What is drawn** from a list. -/
structure Drawn (key : α → K) (late taken : α → Prop) (l : List α) (b : α) : Prop where
  mem : b ∈ l
  free : ¬ taken b
  /-- In the window it has the least key. -/
  least : ¬ late b → ∀ c ∈ l, ¬ taken c → ¬ late c → key b ≤ key c
  /-- Past the window it is the first that is free, and all others are past
  it. -/
  first : late b → ∃ before rest, l = before ++ b :: rest ∧ ∀ c ∈ before, taken c
  empty : late b → ∀ c ∈ l, ¬ taken c → late c

variable {key : α → K} {late taken : α → Prop} {l : List α} {b : α}

/-- Past the window, what is drawn is before all others that are free. -/
theorem Drawn.before {r : α → α → Prop} (h : Drawn key late taken l b) (hsorted : l.Pairwise r) (hlate : late b) :
    ∀ c ∈ l, ¬ taken c → c = b ∨ r b c := by
  obtain ⟨before, rest, rfl, hbefore⟩ := h.first hlate
  intro c hc hfree
  rcases List.mem_append.mp hc with hc | hc
  · exact absurd (hbefore c hc) hfree
  · rcases List.mem_cons.mp hc with rfl | hc
    · exact .inl rfl
    · have hrest := (List.pairwise_append.mp hsorted).2.1
      exact .inr ((List.pairwise_cons.mp hrest).1 c hc)

section

variable [DecidablePred late] [DecidablePred taken]

/-- Elements that look alike are drawn alike. -/
theorem scan_map (f : α → α) (hkey : ∀ a, key (f a) = key a) (hlate : ∀ a, late (f a) ↔ late a) (htaken : ∀ a, taken (f a) ↔ taken a)
    (l : List α) (best : Option α) :
    scan key late taken (l.map f) (best.map f) = (scan key late taken l best).map f := by
  induction l generalizing best with
  | nil => rfl
  | cons a l ih =>
    rw [List.map_cons, scan, scan]
    simp only [hlate, htaken, Option.isSome_map]
    by_cases hend : best.isSome ∧ late a
    · rw [if_pos hend, if_pos hend]
    · rw [if_neg hend, if_neg hend]
      by_cases ha : taken a
      · rw [if_pos ha, if_pos ha]
        exact ih best
      · rw [if_neg ha, if_neg ha, ← ih]
        cases best with
        | none => rfl
        | some b =>
          by_cases hlt : key a < key b
          · simp [better, hkey, hlt]
          · simp [better, hkey, hlt]

/-- The best so far is only ever improved on within the window. -/
theorem scan_some (hsorted : l.Pairwise fun a b => late a → late b) (b : α) :
    ∃ b', scan key late taken l (some b) = some b' ∧ (b' = b ∨ b' ∈ l ∧ ¬ taken b' ∧ ¬ late b') ∧ key b' ≤ key b ∧
      ∀ c ∈ l, ¬ taken c → ¬ late c → key b' ≤ key c := by
  induction l generalizing b with
  | nil => exact ⟨b, rfl, .inl rfl, le_rfl, by simp⟩
  | cons a l ih =>
    obtain ⟨hlate, hsorted⟩ := List.pairwise_cons.mp hsorted
    by_cases ha : late a
    · refine ⟨b, ?_, .inl rfl, le_rfl, fun c hc _ hwindow => ?_⟩
      · rw [scan, if_pos ⟨rfl, ha⟩]
      · rcases List.mem_cons.mp hc with rfl | hc
        · exact absurd ha hwindow
        · exact absurd (hlate c hc ha) hwindow
    · rw [scan, if_neg fun h => ha h.2]
      by_cases htaken : taken a
      · rw [if_pos htaken]
        obtain ⟨b', hscan, hfrom, hle, hleast⟩ := ih hsorted b
        refine ⟨b', hscan, ?_, hle, fun c hc hfree hwindow => ?_⟩
        · rcases hfrom with hfrom | ⟨hmem, hfrom⟩
          · exact .inl hfrom
          · exact .inr ⟨List.mem_cons_of_mem a hmem, hfrom⟩
        · rcases List.mem_cons.mp hc with rfl | hc
          · exact absurd htaken hfree
          · exact hleast c hc hfree hwindow
      · rw [if_neg htaken]
        obtain ⟨b', hscan, hfrom, hle, hleast⟩ := ih hsorted (if key a < key b then a else b)
        -- the better of the two is no worse than either
        have hbetter : key (if key a < key b then a else b) ≤ key a ∧ key (if key a < key b then a else b) ≤ key b := by
          by_cases hkey : key a < key b
          · rw [if_pos hkey]
            exact ⟨le_rfl, le_of_lt hkey⟩
          · rw [if_neg hkey]
            exact ⟨not_lt.mp hkey, le_rfl⟩
        refine ⟨b', hscan, ?_, hle.trans hbetter.2, fun c hc hfree hwindow => ?_⟩
        · rcases hfrom with hfrom | ⟨hmem, hfrom⟩
          · by_cases hkey : key a < key b
            · rw [if_pos hkey] at hfrom
              exact .inr ⟨by simp [hfrom], by rwa [hfrom], by rwa [hfrom]⟩
            · rw [if_neg hkey] at hfrom
              exact .inl hfrom
          · exact .inr ⟨List.mem_cons_of_mem a hmem, hfrom⟩
        · rcases List.mem_cons.mp hc with rfl | hc
          · exact hle.trans hbetter.1
          · exact hleast c hc hfree hwindow

/-- **One is drawn where one is free.** -/
theorem scan_none (key : α → K) (late taken : α → Prop) [DecidablePred late] [DecidablePred taken]
    (hsorted : l.Pairwise fun a b => late a → late b) (hfree : ∃ c ∈ l, ¬ taken c) :
    ∃ b, scan key late taken l none = some b ∧ Drawn key late taken l b := by
  induction l with
  | nil => simp at hfree
  | cons a l ih =>
    obtain ⟨hlate, hsorted⟩ := List.pairwise_cons.mp hsorted
    rw [scan, if_neg (by simp)]
    by_cases htaken : taken a
    · rw [if_pos htaken]
      have hrest : ∃ c ∈ l, ¬ taken c := by
        obtain ⟨c, hc, hcfree⟩ := hfree
        rcases List.mem_cons.mp hc with rfl | hc
        · exact absurd htaken hcfree
        · exact ⟨c, hc, hcfree⟩
      obtain ⟨b, hscan, h⟩ := ih hsorted hrest
      refine ⟨b, hscan, List.mem_cons_of_mem a h.mem, h.free, fun hb c hc hcfree => ?_, fun hb => ?_, fun hb c hc hcfree => ?_⟩
      · rcases List.mem_cons.mp hc with rfl | hc
        · exact absurd htaken hcfree
        · exact h.least hb c hc hcfree
      · obtain ⟨before, rest, hl, hbefore⟩ := h.first hb
        exact ⟨a :: before, rest, by rw [hl, List.cons_append], by simpa [htaken] using hbefore⟩
      · rcases List.mem_cons.mp hc with rfl | hc
        · exact absurd htaken hcfree
        · exact h.empty hb c hc hcfree
    · rw [if_neg htaken]
      obtain ⟨b, hscan, hfrom, hle, hleast⟩ := @scan_some α K _ key late taken l _ _ hsorted a
      refine ⟨b, hscan, ?_, ?_, fun _ c hc hcfree hwindow => ?_, fun hb => ?_, fun hb c hc _ => ?_⟩
      · rcases hfrom with rfl | ⟨hmem, -⟩
        · exact List.mem_cons_self
        · exact List.mem_cons_of_mem a hmem
      · rcases hfrom with rfl | ⟨-, hbfree, -⟩
        · exact htaken
        · exact hbfree
      · rcases List.mem_cons.mp hc with rfl | hc
        · exact hle
        · exact hleast c hc hcfree hwindow
      · rcases hfrom with rfl | ⟨-, -, hwindow⟩
        · exact ⟨[], l, rfl, by simp⟩
        · exact absurd hb hwindow
      · rcases hfrom with rfl | ⟨-, -, hwindow⟩
        · rcases List.mem_cons.mp hc with rfl | hc
          · exact hb
          · exact hlate c hc hb
        · exact absurd hb hwindow

end

end BestDraw
