/-
Forests given by parent pointers, with a rank that drops by one at every
step up. The chain of a node is the node, its parent, and so on to a root;
`y ∈ F.chain x` says that `y` is `x` or an ancestor of it. Two nodes are
brought together by moving the one of higher rank up until they are the
same node (`meet`), which is then their last common ancestor.
-/
import Mathlib.Data.List.Nodup
import Mathlib.Data.List.Infix

/-- Parent pointers and a rank that counts the steps to a root. -/
structure Forest (N : Type) where
  parent : N → Option N
  rank : N → ℕ
  rank_parent : ∀ {x p}, parent x = some p → rank x = rank p + 1

namespace Forest

variable {N : Type} (F : Forest N)

/-- The first `fuel` nodes of the way up. -/
def climb : ℕ → N → List N
  | 0, _ => []
  | fuel + 1, x => x :: (F.parent x).elim [] (climb fuel)

/-- The node and its ancestors, the root last. -/
def chain (x : N) : List N := F.climb (F.rank x + 1) x

/-- Two nodes moved up in turn, always the second unless its rank is no
higher, until they meet. -/
def meet [DecidableEq N] : ℕ → N → N → Option N
  | 0, _, _ => none
  | fuel + 1, a, b =>
    if a = b then some a
    else if F.rank a < F.rank b then (F.parent b).bind (meet fuel a)
    else (F.parent a).bind fun p => meet fuel p b

variable {F}

/-! ## Chains -/

theorem chain_of_root {x : N} (h : F.parent x = none) : F.chain x = [x] := by simp [chain, climb, h]

theorem chain_of_parent {x p : N} (h : F.parent x = some p) : F.chain x = x :: F.chain p := by
  simp [chain, climb, h, F.rank_parent h]

theorem self_mem_chain (x : N) : x ∈ F.chain x := by simp [chain, climb]

theorem mem_chain_of_parent {x p y : N} (h : F.parent x = some p) (hy : y ∈ F.chain p) : y ∈ F.chain x := by
  rw [chain_of_parent h]
  exact List.mem_cons_of_mem _ hy

/-- Up the chain by induction: the roots, and from the parent to the node. -/
theorem chain_induction {C : N → Prop} (root : ∀ x, F.parent x = none → C x)
    (step : ∀ x p, F.parent x = some p → C p → C x) (x : N) : C x := by
  suffices ∀ n x, F.rank x = n → C x from this _ x rfl
  intro n
  induction n with
  | zero =>
    intro x hx
    cases hp : F.parent x with
    | none => exact root x hp
    | some p => simp [F.rank_parent hp] at hx
  | succ n ih =>
    intro x hx
    cases hp : F.parent x with
    | none => exact root x hp
    | some p => exact step x p hp (ih p (by have := F.rank_parent hp; omega))

theorem chain_suffix {x y : N} (h : y ∈ F.chain x) : F.chain y <:+ F.chain x := by
  induction x using chain_induction (F := F) with
  | root x hp =>
    rw [chain_of_root hp, List.mem_singleton] at h
    rw [h]
  | step x p hp ih =>
    rw [chain_of_parent hp, List.mem_cons] at h
    rcases h with rfl | h
    · exact List.suffix_refl _
    · rw [chain_of_parent hp]
      exact (ih h).trans (List.suffix_cons _ _)

/-- Where a node stands on a chain, its own chain begins. -/
theorem chain_eq_of_split {x y : N} {above rest : List N} (h : F.chain x = above ++ y :: rest) :
    F.chain y = y :: rest := by
  induction x using chain_induction (F := F) generalizing above with
  | root x hp =>
    cases above with
    | nil =>
      rw [chain_of_root hp, List.nil_append] at h
      obtain ⟨rfl, rfl⟩ := List.cons.inj h
      exact chain_of_root hp
    | cons a above =>
      rw [chain_of_root hp, List.cons_append] at h
      simp at h
  | step x p hp ih =>
    cases above with
    | nil =>
      obtain ⟨rfl, -⟩ := List.cons.inj ((chain_of_parent hp).symm.trans h)
      exact h
    | cons a above =>
      rw [chain_of_parent hp, List.cons_append] at h
      exact ih (List.cons.inj h).2

theorem mem_chain_trans {x y z : N} (hy : y ∈ F.chain x) (hz : z ∈ F.chain y) : z ∈ F.chain x :=
  (chain_suffix hy).subset hz

theorem rank_le {x y : N} (h : y ∈ F.chain x) : F.rank y ≤ F.rank x := by
  induction x using chain_induction (F := F) with
  | root x hp =>
    rw [chain_of_root hp, List.mem_singleton] at h
    rw [h]
  | step x p hp ih =>
    rw [chain_of_parent hp, List.mem_cons] at h
    rcases h with rfl | h
    · exact Nat.le_refl _
    · have := ih h
      have := F.rank_parent hp
      omega

/-- Of two nodes of one chain, the one of lower rank is above the other. -/
theorem mem_chain_of_rank_le {x y z : N} (hy : y ∈ F.chain x) (hz : z ∈ F.chain x)
    (h : F.rank z ≤ F.rank y) : z ∈ F.chain y := by
  induction x using chain_induction (F := F) with
  | root x hp =>
    rw [chain_of_root hp, List.mem_singleton] at hy hz
    rw [hy, hz]
    exact self_mem_chain x
  | step x p hp ih =>
    rw [chain_of_parent hp, List.mem_cons] at hy hz
    rcases hy with rfl | hy
    · rcases hz with rfl | hz
      · exact self_mem_chain _
      · exact mem_chain_of_parent hp hz
    · rcases hz with rfl | hz
      · have := rank_le hy
        have := F.rank_parent hp
        omega
      · exact ih hy hz

theorem eq_of_rank_eq {x y z : N} (hy : y ∈ F.chain x) (hz : z ∈ F.chain x) (h : F.rank z = F.rank y) : z = y := by
  have hzy := mem_chain_of_rank_le hy hz (Nat.le_of_eq h)
  cases hp : F.parent y with
  | none => simpa [chain_of_root hp] using hzy
  | some p =>
    rw [chain_of_parent hp, List.mem_cons] at hzy
    rcases hzy with rfl | hzp
    · rfl
    · have := rank_le hzp
      have := F.rank_parent hp
      omega

theorem notMem_chain_parent {x p : N} (h : F.parent x = some p) : x ∉ F.chain p := fun hx => by
  have := rank_le hx
  have := F.rank_parent h
  omega

theorem chain_nodup (x : N) : (F.chain x).Nodup := by
  induction x using chain_induction (F := F) with
  | root x hp => simp [chain_of_root hp]
  | step x p hp ih =>
    rw [chain_of_parent hp]
    exact List.nodup_cons.mpr ⟨notMem_chain_parent hp, ih⟩

/-- A node between another and its ancestor has its parent on the chain too. -/
theorem parent_mem_chain {x y p : N} (hy : y ∈ F.chain x) (hp : F.parent y = some p) : p ∈ F.chain x :=
  mem_chain_trans hy (mem_chain_of_parent hp (self_mem_chain p))

/-- Forests that agree on the parents along a chain have the same chain. -/
theorem chain_congr {F F' : Forest N} {x : N} (h : ∀ y ∈ F.chain x, F'.parent y = F.parent y) :
    F'.chain x = F.chain x := by
  induction x using chain_induction (F := F) with
  | root x hp => rw [chain_of_root hp, chain_of_root (by rw [h x (self_mem_chain x), hp])]
  | step x p hp ih =>
    have hp' : F'.parent x = some p := by rw [h x (self_mem_chain x), hp]
    rw [chain_of_parent hp, chain_of_parent hp', ih fun y hy => h y (mem_chain_of_parent hp hy)]

/-! ## The part of a chain below an ancestor -/

/-- The nodes of the chain of `x` before `stop` is reached, `x` first. -/
def below [DecidableEq N] (F : Forest N) (x stop : N) : List N := (F.chain x).takeWhile (· ≠ stop)

variable [DecidableEq N]

theorem below_self (x : N) : F.below x x = [] := by
  cases hp : F.parent x <;> simp [below, chain_of_root, chain_of_parent, hp]

theorem below_of_parent {x p y : N} (hp : F.parent x = some p) (hy : y ∈ F.chain p) :
    F.below x y = x :: F.below p y := by
  have hne : x ≠ y := fun he => notMem_chain_parent hp (he ▸ hy)
  simp [below, chain_of_parent hp, hne]

theorem chain_eq_below_append {x y : N} (h : y ∈ F.chain x) : F.chain x = F.below x y ++ F.chain y := by
  induction x using chain_induction (F := F) with
  | root x hp =>
    rw [chain_of_root hp, List.mem_singleton] at h
    rw [h, below_self, List.nil_append]
  | step x p hp ih =>
    by_cases hxy : y = x
    · rw [hxy, below_self, List.nil_append]
    · have hyp : y ∈ F.chain p := by
        rw [chain_of_parent hp, List.mem_cons] at h
        exact h.resolve_left hxy
      rw [below_of_parent hp hyp, chain_of_parent hp, ih hyp, List.cons_append]

theorem mem_below {x y z : N} (h : y ∈ F.chain x) : z ∈ F.below x y ↔ z ∈ F.chain x ∧ z ∉ F.chain y := by
  have hd := chain_nodup (F := F) x
  rw [chain_eq_below_append h] at hd ⊢
  have hdis := (List.nodup_append.mp hd).2.2
  constructor
  · intro hz
    exact ⟨List.mem_append_left _ hz, fun hzy => hdis z hz z hzy rfl⟩
  · rintro ⟨hz, hzy⟩
    exact (List.mem_append.mp hz).resolve_right hzy

/-! ## The last common ancestor -/

theorem meet_spec {fuel : ℕ} {a b m : N} (h : F.meet fuel a b = some m) :
    m ∈ F.chain a ∧ m ∈ F.chain b ∧ ∀ x ∈ F.chain a, x ∈ F.chain b → x ∈ F.chain m := by
  induction fuel generalizing a b with
  | zero => simp [meet] at h
  | succ fuel ih =>
    simp only [meet] at h
    split at h
    next hab =>
      obtain rfl : a = m := by simpa using h
      exact ⟨self_mem_chain a, hab ▸ self_mem_chain a, fun x hx _ => hx⟩
    next hab =>
      split at h
      next hlt =>
        obtain ⟨p, hp, h⟩ := Option.bind_eq_some_iff.mp h
        obtain ⟨ha, hb, hall⟩ := ih h
        refine ⟨ha, mem_chain_of_parent hp hb, fun x hxa hxb => hall x hxa ?_⟩
        rw [chain_of_parent hp, List.mem_cons] at hxb
        refine hxb.resolve_left fun hx => ?_
        subst hx
        have := rank_le hxa
        omega
      next hlt =>
        obtain ⟨p, hp, h⟩ := Option.bind_eq_some_iff.mp h
        obtain ⟨ha, hb, hall⟩ := ih h
        refine ⟨mem_chain_of_parent hp ha, hb, fun x hxa hxb => hall x ?_ hxb⟩
        rw [chain_of_parent hp, List.mem_cons] at hxa
        refine hxa.resolve_left fun hx => hab ?_
        subst hx
        have := rank_le hxb
        exact eq_of_rank_eq (self_mem_chain b) hxb (by omega)

/-- Nodes with a common ancestor meet, given a step for each rank. -/
theorem meet_isSome {fuel : ℕ} {a b c : N} (ha : c ∈ F.chain a) (hb : c ∈ F.chain b)
    (hf : F.rank a + F.rank b < fuel) : ∃ m, F.meet fuel a b = some m := by
  induction fuel generalizing a b with
  | zero => omega
  | succ fuel ih =>
    simp only [meet]
    by_cases hab : a = b
    · exact ⟨a, by simp [hab]⟩
    · rw [if_neg hab]
      by_cases hlt : F.rank a < F.rank b
      · rw [if_pos hlt]
        have hbc : c ≠ b := fun he => by
          have := rank_le ha
          rw [he] at this
          omega
        cases hp : F.parent b with
        | none => simp [chain_of_root hp, hbc] at hb
        | some p =>
          rw [chain_of_parent hp, List.mem_cons] at hb
          have := F.rank_parent hp
          exact ih ha (hb.resolve_left hbc) (by omega)
      · rw [if_neg hlt]
        have hac : c ≠ a := fun he => by
          subst he
          have := rank_le hb
          exact hab (eq_of_rank_eq (self_mem_chain b) hb (by omega))
        cases hp : F.parent a with
        | none => simp [chain_of_root hp, hac] at ha
        | some p =>
          rw [chain_of_parent hp, List.mem_cons] at ha
          have := F.rank_parent hp
          exact ih (ha.resolve_left hac) hb (by omega)

/-! ## Ways between a node and an ancestor -/

omit [DecidableEq N] in
/-- A node above another on a chain has a child on it. -/
theorem exists_child {x y : N} (h : y ∈ F.chain x) (hne : y ≠ x) : ∃ z ∈ F.chain x, F.parent z = some y := by
  induction x using chain_induction (F := F) with
  | root x hp =>
    rw [chain_of_root hp, List.mem_singleton] at h
    exact absurd h hne
  | step x p hp ih =>
    rw [chain_of_parent hp, List.mem_cons] at h
    by_cases hyp : y = p
    · exact ⟨x, self_mem_chain x, by rw [hp, hyp]⟩
    · obtain ⟨z, hz, hzp⟩ := ih (h.resolve_left hne) hyp
      exact ⟨z, mem_chain_of_parent hp hz, hzp⟩

/-- The nodes of a list stand one below the other, the first below `p`. -/
def Path (F : Forest N) : N → List N → Prop
  | _, [] => True
  | p, x :: l => F.parent x = some p ∧ Path F x l

/-- The nodes of a list stand one above the other, the last right below `f`. -/
def Rises (F : Forest N) : List N → N → Prop
  | [], _ => True
  | x :: l, f => F.parent x = some (l.headD f) ∧ Rises F l f

section

omit [DecidableEq N]

variable {F' : Forest N} (hF : ∀ x p, F.parent x = some p → F'.parent x = some p)

include hF

theorem Path.mono {p : N} {l : List N} (h : F.Path p l) : F'.Path p l := by
  induction l generalizing p with
  | nil => trivial
  | cons x l ih => exact ⟨hF x p h.1, ih h.2⟩

theorem Rises.mono {l : List N} {f : N} (h : F.Rises l f) : F'.Rises l f := by
  induction l with
  | nil => trivial
  | cons x l ih => exact ⟨hF x _ h.1, ih h.2⟩

end

omit [DecidableEq N] in
theorem path_append_singleton {p x : N} {l : List N} :
    F.Path p (l ++ [x]) ↔ F.Path p l ∧ F.parent x = some (l.getLastD p) := by
  induction l generalizing p with
  | nil => simp [Path]
  | cons y l ih => rw [List.cons_append, Path, ih, Path, List.getLastD_cons, and_assoc]

omit [DecidableEq N] in
theorem path_append {p : N} {l₁ l₂ : List N} : F.Path p (l₁ ++ l₂) ↔ F.Path p l₁ ∧ F.Path (l₁.getLastD p) l₂ := by
  induction l₁ generalizing p with
  | nil => simp [Path]
  | cons x l₁ ih => rw [List.cons_append, Path, ih, Path, List.getLastD_cons, and_assoc]

omit [DecidableEq N] in
theorem getLastD_append {p : N} {l₁ l₂ : List N} : (l₁ ++ l₂).getLastD p = l₂.getLastD (l₁.getLastD p) := by
  induction l₁ generalizing p with
  | nil => rfl
  | cons x l₁ ih => rw [List.cons_append, List.getLastD_cons, List.getLastD_cons, ih]

omit [DecidableEq N] in
/-- A path goes from its start to its last node. -/
theorem Path.mem_chain {p : N} {l : List N} (h : F.Path p l) : p ∈ F.chain (l.getLastD p) := by
  induction l generalizing p with
  | nil => exact self_mem_chain p
  | cons x l ih =>
    rw [List.getLastD_cons]
    exact mem_chain_trans (ih h.2) (mem_chain_of_parent h.1 (self_mem_chain p))

omit [DecidableEq N] in
theorem Path.last_ne {p : N} {l : List N} (h : F.Path p l) (hl : l ≠ []) : l.getLastD p ≠ p := by
  cases l with
  | nil => exact absurd rfl hl
  | cons x l =>
    rw [List.getLastD_cons]
    intro he
    have := rank_le h.2.mem_chain
    have := F.rank_parent h.1
    rw [he] at *
    omega

theorem rises_below {x y : N} (h : y ∈ F.chain x) : F.Rises (F.below x y) y ∧ (F.below x y).headD y = x := by
  induction x using chain_induction (F := F) with
  | root x hp =>
    rw [chain_of_root hp, List.mem_singleton] at h
    rw [h, below_self]
    exact ⟨trivial, rfl⟩
  | step x p hp ih =>
    by_cases hxy : y = x
    · rw [hxy, below_self]
      exact ⟨trivial, rfl⟩
    · rw [chain_of_parent hp, List.mem_cons] at h
      have hyp := h.resolve_left hxy
      obtain ⟨hrises, hhead⟩ := ih hyp
      rw [below_of_parent hp hyp]
      exact ⟨⟨by rw [hhead, hp], hrises⟩, rfl⟩

theorem path_below {x y : N} (h : y ∈ F.chain x) :
    F.Path y (F.below x y).reverse ∧ (F.below x y).reverse.getLastD y = x := by
  induction x using chain_induction (F := F) with
  | root x hp =>
    rw [chain_of_root hp, List.mem_singleton] at h
    rw [h, below_self]
    exact ⟨trivial, rfl⟩
  | step x p hp ih =>
    by_cases hxy : y = x
    · rw [hxy, below_self]
      exact ⟨trivial, rfl⟩
    · rw [chain_of_parent hp, List.mem_cons] at h
      have hyp := h.resolve_left hxy
      obtain ⟨hpath, hlast⟩ := ih hyp
      rw [below_of_parent hp hyp, List.reverse_cons, path_append_singleton, hlast]
      exact ⟨⟨hpath, hp⟩, by simp⟩

end Forest
