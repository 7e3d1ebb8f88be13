/-
The connected components of a family of sets, where two elements are joined by
a set that has both, and what one set more does to them: it is merged with all
components it meets.
-/
import Mathlib.Data.Finset.Insert
import Mathlib.Data.Finset.Disjoint
import Mathlib.Data.Set.Insert
import Mathlib.Logic.Relation

namespace Components

variable {α : Type} (F : Set (Finset α))

/-- A set of the family has both. -/
def Joined (a b : α) : Prop := ∃ g ∈ F, a ∈ g ∧ b ∈ g

/-- Joined by a chain. -/
def Linked : α → α → Prop := Relation.ReflTransGen (Joined F)

/-- **The components of a family**: they cover what its sets cover, each has
all that is linked to an element of it, and the empty set is one of them only
if it is in the family. -/
structure IsComponents (R : Set (Finset α)) : Prop where
  cover : ∀ a, (∃ c ∈ R, a ∈ c) ↔ ∃ g ∈ F, a ∈ g
  linked : ∀ c ∈ R, ∀ a ∈ c, ∀ b, b ∈ c ↔ Linked F a b
  empty : ∅ ∈ R ↔ ∅ ∈ F

variable {F} {R : Set (Finset α)} {a b : α} {c c' g : Finset α}

theorem Joined.symm (h : Joined F a b) : Joined F b a := by
  obtain ⟨g, hg, ha, hb⟩ := h
  exact ⟨g, hg, hb, ha⟩

theorem Linked.symm (h : Linked F a b) : Linked F b a := by
  induction h with
  | refl => exact .refl
  | tail _ hstep ih => exact .head hstep.symm ih

theorem Linked.trans {c : α} (h : Linked F a b) (h' : Linked F b c) : Linked F a c := Relation.ReflTransGen.trans h h'

/-- More sets link more. -/
theorem Linked.mono {F' : Set (Finset α)} (hsub : F ⊆ F') (h : Linked F a b) : Linked F' a b := by
  induction h with
  | refl => exact .refl
  | tail _ hstep ih =>
    obtain ⟨g, hg, hmem⟩ := hstep
    exact .tail ih ⟨g, hsub hg, hmem⟩

/-- Sets of one element link nothing. -/
theorem linked_iff {r : α → α → Prop} (hjoined : ∀ a b, Joined F a b → a = b ∨ r a b) (hr : ∀ a b, r a b → Joined F a b) :
    Linked F a b ↔ Relation.ReflTransGen r a b := by
  constructor
  · intro h
    induction h with
    | refl => exact .refl
    | tail _ hstep ih =>
      rcases hjoined _ _ hstep with rfl | hstep
      · exact ih
      · exact .tail ih hstep
  · intro h
    induction h with
    | refl => exact .refl
    | tail _ hstep ih => exact .tail ih (hr _ _ hstep)

namespace IsComponents

/-- Two components that meet are the same. -/
theorem eq_of_mem (h : IsComponents F R) (hc : c ∈ R) (hc' : c' ∈ R) (ha : a ∈ c) (ha' : a ∈ c') : c = c' := by
  ext b
  rw [h.linked c hc a ha, h.linked c' hc' a ha']

/-- **Components are disjoint.** -/
theorem disjoint (h : IsComponents F R) (hc : c ∈ R) (hc' : c' ∈ R) (hne : c ≠ c') : Disjoint c c' :=
  Finset.disjoint_left.mpr fun _ ha ha' => hne (h.eq_of_mem hc hc' ha ha')

theorem nil : IsComponents (∅ : Set (Finset α)) ∅ := ⟨by simp, by simp, by simp⟩

section Insert

variable {merged : Finset α}

/-- What is merged is linked by the new set. -/
theorem linked_merged (h : IsComponents F R) (hmerged : ∀ a, a ∈ merged ↔ a ∈ g ∨ ∃ c ∈ R, ¬ Disjoint c g ∧ a ∈ c)
    (ha : a ∈ merged) (hb : b ∈ merged) : Linked (insert g F) a b := by
  -- each element is linked to one of the new set
  have hanchor : ∀ x ∈ merged, ∃ y ∈ g, Linked (insert g F) x y := by
    intro x hx
    rcases (hmerged x).mp hx with hx | ⟨c, hc, hmeet, hx⟩
    · exact ⟨x, hx, .refl⟩
    · obtain ⟨y, hyc, hyg⟩ := Finset.not_disjoint_iff.mp hmeet
      exact ⟨y, hyg, ((h.linked c hc x hx y).mp hyc).mono (Set.subset_insert _ _)⟩
  obtain ⟨x, hxg, hx⟩ := hanchor a ha
  obtain ⟨y, hyg, hy⟩ := hanchor b hb
  have hjoined : Linked (insert g F) x y := .single ⟨g, Set.mem_insert _ _, hxg, hyg⟩
  exact (hx.trans hjoined).trans hy.symm

/-- What is linked to a merged element is merged. -/
theorem mem_merged (h : IsComponents F R) (hmerged : ∀ a, a ∈ merged ↔ a ∈ g ∨ ∃ c ∈ R, ¬ Disjoint c g ∧ a ∈ c)
    (ha : a ∈ merged) (hlinked : Linked (insert g F) a b) : b ∈ merged := by
  induction hlinked with
  | refl => exact ha
  | tail _ hstep ih =>
    obtain ⟨g', hg', hx, hy⟩ := hstep
    rcases hg' with rfl | hg'
    · exact (hmerged _).mpr (.inl hy)
    · obtain ⟨c, hc, hxc⟩ := (h.cover _).mpr ⟨g', hg', hx⟩
      have hyc := (h.linked c hc _ hxc _).mpr (.single ⟨g', hg', hx, hy⟩)
      refine (hmerged _).mpr (.inr ⟨c, hc, ?_, hyc⟩)
      rcases (hmerged _).mp ih with hxg | ⟨c', hc', hmeet, hxc'⟩
      · exact Finset.not_disjoint_iff.mpr ⟨_, hxc, hxg⟩
      · rw [h.eq_of_mem hc hc' hxc hxc']
        exact hmeet

/-- A component that the new set does not meet stays. -/
theorem mem_of_disjoint (h : IsComponents F R) (hc : c ∈ R) (hdisjoint : Disjoint c g) (ha : a ∈ c)
    (hlinked : Linked (insert g F) a b) : b ∈ c := by
  induction hlinked with
  | refl => exact ha
  | tail _ hstep ih =>
    obtain ⟨g', hg', hx, hy⟩ := hstep
    rcases hg' with rfl | hg'
    · exact absurd hx (Finset.disjoint_left.mp hdisjoint ih)
    · exact (h.linked c hc _ ih _).mpr (.single ⟨g', hg', hx, hy⟩)

/-- **One set more**: it is merged with the components it meets, and the others
stay. -/
theorem insert (h : IsComponents F R) (hmerged : ∀ a, a ∈ merged ↔ a ∈ g ∨ ∃ c ∈ R, ¬ Disjoint c g ∧ a ∈ c) :
    IsComponents (Insert.insert g F) {c | c = merged ∨ c ∈ R ∧ Disjoint c g} := by
  refine ⟨fun a => ?_, fun c hc a ha b => ?_, ?_⟩
  · constructor
    · intro ⟨c, hc, ha⟩
      rcases hc with rfl | ⟨hc, -⟩
      · rcases (hmerged a).mp ha with hg | ⟨c, hc, -, ha⟩
        · exact ⟨g, Set.mem_insert _ _, hg⟩
        · obtain ⟨g', hg', hmem⟩ := (h.cover a).mp ⟨c, hc, ha⟩
          exact ⟨g', Set.mem_insert_of_mem _ hg', hmem⟩
      · obtain ⟨g', hg', hmem⟩ := (h.cover a).mp ⟨c, hc, ha⟩
        exact ⟨g', Set.mem_insert_of_mem _ hg', hmem⟩
    · intro ⟨g', hg', ha⟩
      rcases hg' with rfl | hg'
      · exact ⟨merged, .inl rfl, (hmerged a).mpr (.inl ha)⟩
      · obtain ⟨c, hc, hac⟩ := (h.cover a).mpr ⟨g', hg', ha⟩
        by_cases hdisjoint : Disjoint c g
        · exact ⟨c, .inr ⟨hc, hdisjoint⟩, hac⟩
        · exact ⟨merged, .inl rfl, (hmerged a).mpr (.inr ⟨c, hc, hdisjoint, hac⟩)⟩
  · rcases hc with rfl | ⟨hc, hdisjoint⟩
    · exact ⟨h.linked_merged hmerged ha, h.mem_merged hmerged ha⟩
    · exact ⟨fun hb => ((h.linked c hc a ha b).mp hb).mono (Set.subset_insert _ _), h.mem_of_disjoint hc hdisjoint ha⟩
  · constructor
    · intro hmem
      rcases hmem with hempty | ⟨hempty, -⟩
      · refine .inl (Eq.symm (Finset.eq_empty_of_forall_notMem fun a ha => ?_))
        have hin := (hmerged a).mpr (.inl ha)
        rw [← hempty] at hin
        exact Finset.notMem_empty a hin
      · exact .inr (h.empty.mp hempty)
    · intro hmem
      rcases hmem with rfl | hempty
      · refine .inl (Eq.symm (Finset.eq_empty_of_forall_notMem fun a ha => ?_))
        rcases (hmerged a).mp ha with hnone | ⟨c, -, hmeet, -⟩
        · exact Finset.notMem_empty a hnone
        · exact hmeet (Finset.disjoint_empty_right c)
      · exact .inr ⟨h.empty.mpr hempty, Finset.disjoint_empty_left g⟩

end Insert

end IsComponents

end Components
