/-
A set kept in the order of a key, as `std::set` with a comparator keeps it:
of two elements with one key only the first is in the set.
-/
import Mathlib.Data.List.Sort
import Mathlib.Data.Prod.Lex

variable {α κ : Type} [LinearOrder κ]

/-- The elements, in the order of their keys. -/
structure OrderedSet (key : α → κ) where
  toList : List α
  sorted : toList.Pairwise fun a b => key a < key b

namespace OrderedSet

variable {key : α → κ} {s t : OrderedSet key} {x y : α}

def empty : OrderedSet key := ⟨[], .nil⟩

instance : Membership α (OrderedSet key) := ⟨fun s x => x ∈ s.toList⟩

theorem mem_def : x ∈ s ↔ x ∈ s.toList := .rfl

theorem notMem_empty : x ∉ (empty : OrderedSet key) := List.not_mem_nil

/-- `find`: the element with the key. -/
def find (s : OrderedSet key) (k : κ) : Option α := s.toList.find? fun x => key x = k

/-- The list with an element put in its place, if its key is new. -/
def insertList (key : α → κ) (x : α) : List α → List α
  | [] => [x]
  | y :: l => if key x < key y then x :: y :: l else if key x = key y then y :: l else y :: insertList key x l

theorem mem_insertList {l : List α} (h : l.Pairwise fun a b => key a < key b) :
    y ∈ insertList key x l ↔ y ∈ l ∨ y = x ∧ ∀ z ∈ l, key z ≠ key x := by
  induction l with
  | nil => simp [insertList]
  | cons a l ih =>
    obtain ⟨ha, hl⟩ := List.pairwise_cons.mp h
    rw [insertList]
    split
    next hlt =>
      have hne : ∀ z ∈ a :: l, key z ≠ key x := fun z hz => by
        rcases List.mem_cons.mp hz with rfl | hz
        · exact hlt.ne'
        · exact (hlt.trans (ha z hz)).ne'
      rw [List.mem_cons]
      exact ⟨fun hy => hy.elim (fun hy => .inr ⟨hy, hne⟩) .inl, fun hy => hy.elim .inr fun hy => .inl hy.1⟩
    next =>
      split
      next heq =>
        refine ⟨.inl, fun hy => hy.elim id fun hy => absurd heq.symm (hy.2 a List.mem_cons_self)⟩
      next hne =>
        rw [List.mem_cons, ih hl, List.mem_cons, List.forall_mem_cons]
        constructor
        · rintro (hy | hy | ⟨hy, hz⟩)
          · exact .inl (.inl hy)
          · exact .inl (.inr hy)
          · exact .inr ⟨hy, Ne.symm hne, hz⟩
        · rintro ((hy | hy) | ⟨hy, -, hz⟩)
          · exact .inl hy
          · exact .inr (.inl hy)
          · exact .inr (.inr ⟨hy, hz⟩)

theorem sorted_insertList {l : List α} (h : l.Pairwise fun a b => key a < key b) :
    (insertList key x l).Pairwise fun a b => key a < key b := by
  induction l with
  | nil => exact List.pairwise_singleton _ _
  | cons a l ih =>
    obtain ⟨ha, hl⟩ := List.pairwise_cons.mp h
    rw [insertList]
    split
    next hlt =>
      refine List.pairwise_cons.mpr ⟨fun z hz => ?_, h⟩
      rcases List.mem_cons.mp hz with rfl | hz
      · exact hlt
      · exact hlt.trans (ha z hz)
    next hle =>
      split
      next => exact h
      next hne =>
        refine List.pairwise_cons.mpr ⟨fun z hz => ?_, ih hl⟩
        rcases (mem_insertList hl).mp hz with hz | ⟨rfl, -⟩
        · exact ha z hz
        · exact lt_of_le_of_ne (not_lt.mp hle) (Ne.symm hne)

/-- `insert`: an element whose key is there already changes nothing. -/
def insert (s : OrderedSet key) (x : α) : OrderedSet key := ⟨insertList key x s.toList, sorted_insertList s.sorted⟩

theorem mem_insert : y ∈ s.insert x ↔ y ∈ s ∨ y = x ∧ ∀ z ∈ s, key z ≠ key x := mem_insertList s.sorted

/-- An element is determined by its key. -/
theorem key_inj (hx : x ∈ s) (hy : y ∈ s) (h : key x = key y) : x = y := by
  have hnodup : (s.toList.map key).Nodup := List.pairwise_map.mpr (s.sorted.imp fun hlt => hlt.ne)
  exact List.inj_on_of_nodup_map hnodup hx hy h

theorem find_eq_none {k : κ} : s.find k = none ↔ ∀ x ∈ s, key x ≠ k := by
  simp [find, mem_def]

theorem find_eq_some {k : κ} : s.find k = some x ↔ x ∈ s ∧ key x = k := by
  have hsound : ∀ {y}, s.find k = some y → y ∈ s ∧ key y = k := fun hy =>
    ⟨List.mem_of_find?_eq_some hy, by simpa using List.find?_some hy⟩
  refine ⟨hsound, fun ⟨hx, hk⟩ => ?_⟩
  cases hf : s.find k with
  | none => exact absurd hk (find_eq_none.mp hf x hx)
  | some y =>
    obtain ⟨hy, hky⟩ := hsound hf
    rw [key_inj hy hx (hky.trans hk.symm)]

/-- Elements of different keys are all inserted. -/
theorem mem_foldl_insert {l : List α} (hl : l.Pairwise fun a b => key a ≠ key b) (hs : ∀ z ∈ s, ∀ x ∈ l, key z ≠ key x) :
    y ∈ l.foldl insert s ↔ y ∈ s ∨ y ∈ l := by
  induction l generalizing s with
  | nil => simp
  | cons x l ih =>
    obtain ⟨hx, hl⟩ := List.pairwise_cons.mp hl
    have hnew : ∀ z ∈ s, key z ≠ key x := fun z hz => hs z hz x List.mem_cons_self
    have hs' : ∀ z ∈ s.insert x, ∀ w ∈ l, key z ≠ key w := by
      intro z hz w hw
      rcases mem_insert.mp hz with hz | ⟨rfl, -⟩
      · exact hs z hz w (List.mem_cons_of_mem _ hw)
      · exact hx w hw
    rw [List.foldl_cons, ih hl hs', mem_insert, and_iff_left hnew, List.mem_cons, or_assoc]

/-- Two sets with the same elements are equal. -/
theorem ext_mem (h : ∀ x, x ∈ s ↔ x ∈ t) : s = t := by
  obtain ⟨l, hl⟩ := s
  obtain ⟨l', hl'⟩ := t
  have hnodup : ∀ {l : List α}, (l.Pairwise fun a b => key a < key b) → l.Nodup := fun h =>
    h.imp fun hlt heq => absurd (congrArg key heq) hlt.ne
  have hperm : l.Perm l' := (List.perm_ext_iff_of_nodup (hnodup hl) (hnodup hl')).mpr h
  have heq : l = l' := hperm.eq_of_pairwise (fun a b _ _ hab hba => absurd (hab.trans hba) (lt_irrefl _)) hl hl'
  subst heq
  rfl

/-! ## As a map -/

/-- `erase`: the element with the key is taken out. -/
def erase (s : OrderedSet key) (k : κ) : OrderedSet key :=
  ⟨s.toList.filter fun x => key x ≠ k, s.sorted.filter _⟩

/-- `operator[]` with an assignment: the element takes the place of the one
with its key. -/
def put (s : OrderedSet key) (x : α) : OrderedSet key := (s.erase (key x)).insert x

theorem mem_erase {k : κ} : y ∈ s.erase k ↔ y ∈ s ∧ key y ≠ k := by
  simp [erase, mem_def]

theorem mem_put : y ∈ s.put x ↔ y = x ∨ y ∈ s ∧ key y ≠ key x := by
  have hnew : ∀ z ∈ s.erase (key x), key z ≠ key x := fun z hz => (mem_erase.mp hz).2
  rw [put, mem_insert, and_iff_left hnew, mem_erase, or_comm]

theorem find_put_self : (s.put x).find (key x) = some x := find_eq_some.mpr ⟨mem_put.mpr (.inl rfl), rfl⟩

theorem find_put_of_ne {k : κ} (h : key x ≠ k) : (s.put x).find k = s.find k := by
  refine Option.ext fun y => ?_
  rw [find_eq_some, find_eq_some, mem_put]
  constructor
  · rintro ⟨rfl | hy, hk⟩
    · exact absurd hk h
    · exact ⟨hy.1, hk⟩
  · rintro ⟨hy, hk⟩
    exact ⟨.inr ⟨hy, fun heq => h (heq.symm.trans hk)⟩, hk⟩

/-- The elements of some keys are taken out. -/
def eraseAll (ks : List κ) (s : OrderedSet key) : OrderedSet key := ks.foldl erase s

theorem mem_eraseAll {ks : List κ} : y ∈ s.eraseAll ks ↔ y ∈ s ∧ key y ∉ ks := by
  induction ks generalizing s with
  | nil => simp [eraseAll]
  | cons k ks ih =>
    rw [eraseAll, List.foldl_cons]
    have h := ih (s := s.erase k)
    rw [eraseAll] at h
    rw [h, mem_erase, List.mem_cons, not_or, and_assoc]

/-- What was put under one of the keys is taken out with it. -/
theorem eraseAll_put {ks : List κ} (h : key x ∈ ks) : (s.put x).eraseAll ks = s.eraseAll ks := by
  refine ext_mem fun y => ?_
  rw [mem_eraseAll, mem_eraseAll, mem_put]
  constructor
  · rintro ⟨rfl | hy, hk⟩
    · exact absurd h hk
    · exact ⟨hy.1, hk⟩
  · rintro ⟨hy, hk⟩
    exact ⟨.inr ⟨hy, fun heq => hk (heq ▸ h)⟩, hk⟩

theorem eraseAll_of_notMem {ks : List κ} (h : ∀ x ∈ s, key x ∉ ks) : s.eraseAll ks = s :=
  ext_mem fun y => by rw [mem_eraseAll, and_iff_left_of_imp (h y)]

/-- A set is put together of its elements. -/
theorem foldl_insert_toList (s : OrderedSet key) : s.toList.foldl insert empty = s := by
  refine ext_mem fun y => ?_
  rw [mem_foldl_insert (s.sorted.imp fun hlt => hlt.ne) (fun z hz => absurd hz notMem_empty), mem_def (s := s)]
  exact or_iff_right notMem_empty

end OrderedSet
