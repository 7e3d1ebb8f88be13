/-
Items that are ready, beside items that wait for keys. What is done releases
those that wait for it, and an item that waits for nothing more is ready.
-/
import Mathlib.Data.Finset.Basic
import Mathlib.Data.Finset.SDiff
import Mathlib.Data.List.Perm.Basic

/-- An item and the keys it still waits for. One that was given up is freed,
and its keys still point to it. -/
structure Waiter (α K : Type) where
  item : α
  dependsOn : Finset K
  freed : Bool

structure ReadyQueue (α K : Type) where
  ready : List α
  waiters : List (Waiter α K)

namespace ReadyQueue

variable {α K : Type} [DecidableEq K]

def empty : ReadyQueue α K := ⟨[], []⟩

/-- An item comes in: it is ready, unless it waits for keys. -/
def enter (item : α) (keys : Finset K) (q : ReadyQueue α K) : ReadyQueue α K :=
  if keys = ∅ then { q with ready := q.ready ++ [item] } else { q with waiters := q.waiters ++ [⟨item, keys, false⟩] }

/-- An item is given up, after it has waited for keys. -/
def giveUp (item : α) (keys : Finset K) (q : ReadyQueue α K) : ReadyQueue α K :=
  if keys = ∅ then q else { q with waiters := q.waiters ++ [⟨item, keys, true⟩] }

/-- The waiters once `k` is done. -/
def released (k : K) (q : ReadyQueue α K) : List (Waiter α K) :=
  q.waiters.map fun w => { w with dependsOn := w.dependsOn.erase k }

/-- `k` is done. There is no result where it points to a waiter that is freed. -/
def finish (k : K) (q : ReadyQueue α K) : Option (ReadyQueue α K) :=
  if ∃ w ∈ q.waiters, w.freed ∧ k ∈ w.dependsOn then none
  else some
    ⟨q.ready ++ ((q.released k).filter fun w => decide (w.dependsOn = ∅)).map Waiter.item,
      (q.released k).filter fun w => !decide (w.dependsOn = ∅)⟩

/-! ## What all items are -/

/-- All items are such, the ready ones and those that wait. -/
structure Holds (I : α → Prop) (q : ReadyQueue α K) : Prop where
  ready : ∀ a ∈ q.ready, I a
  waiting : ∀ w ∈ q.waiters, I w.item

section

variable {I : α → Prop} {q q' : ReadyQueue α K} {a : α} {k : K} {keys : Finset K} {w : Waiter α K}

omit [DecidableEq K] in
theorem holds_empty : Holds I (empty : ReadyQueue α K) := ⟨by simp [empty], by simp [empty]⟩

theorem Holds.enter (h : Holds I q) (ha : I a) : Holds I (q.enter a keys) := by
  unfold ReadyQueue.enter
  split
  · exact ⟨by simpa [or_imp, forall_and, ha] using h.ready, h.waiting⟩
  · exact ⟨h.ready, by simpa [or_imp, forall_and, ha] using h.waiting⟩

theorem Holds.giveUp (h : Holds I q) (ha : I a) : Holds I (q.giveUp a keys) := by
  unfold ReadyQueue.giveUp
  split
  · exact h
  · exact ⟨h.ready, by simpa [or_imp, forall_and, ha] using h.waiting⟩

theorem mem_released : w ∈ q.released k ↔ ∃ v ∈ q.waiters, w = { v with dependsOn := v.dependsOn.erase k } := by
  simp [released, eq_comm]

theorem Holds.finish (h : Holds I q) (hrun : q.finish k = some q') : Holds I q' := by
  have hall : ∀ w ∈ q.released k, I w.item := by
    intro w hw
    obtain ⟨v, hv, rfl⟩ := mem_released.mp hw
    exact h.waiting v hv
  unfold ReadyQueue.finish at hrun
  split at hrun
  · cases hrun
  · rw [← Option.some.inj hrun]
    refine ⟨fun a ha => ?_, fun w hw => hall w (List.mem_of_mem_filter hw)⟩
    cases List.mem_append.mp ha with
    | inl ha => exact h.ready a ha
    | inr ha =>
      obtain ⟨w, hw, rfl⟩ := List.mem_map.mp ha
      exact hall w (List.mem_of_mem_filter hw)

end

/-! ## Each item once -/

/-- The items are ready or taken once their parents are done, and wait for
those that are not. -/
structure Tracks (parents : α → Finset K) (items : List α) (done : Finset K) (taken : List α) (q : ReadyQueue α K) :
    Prop where
  all : (q.ready ++ taken ++ q.waiters.map Waiter.item).Perm items
  ready : ∀ a ∈ q.ready ++ taken, parents a ⊆ done
  waits : ∀ w ∈ q.waiters, w.dependsOn = parents w.item \ done ∧ w.dependsOn ≠ ∅ ∧ w.freed = false

section

variable {parents : α → Finset K} {items taken : List α} {done : Finset K} {q : ReadyQueue α K} {a : α}

theorem tracks_empty : Tracks parents [] done [] (empty : ReadyQueue α K) :=
  ⟨by simp [empty], by simp [empty], by simp [empty]⟩

/-- **Taken or ready are the items whose parents are done.** -/
theorem Tracks.mem_iff (h : Tracks parents items done taken q) (a : α) :
    a ∈ q.ready ++ taken ↔ a ∈ items ∧ parents a ⊆ done := by
  refine ⟨fun ha => ⟨h.all.mem_iff.mp (List.mem_append_left _ ha), h.ready a ha⟩, fun ha => ?_⟩
  cases List.mem_append.mp (h.all.mem_iff.mpr ha.1) with
  | inl hready => exact hready
  | inr hwaits =>
    obtain ⟨w, hw, rfl⟩ := List.mem_map.mp hwaits
    obtain ⟨hdep, hsome, -⟩ := h.waits w hw
    rw [hdep] at hsome
    exact absurd (Finset.sdiff_eq_empty_iff_subset.mpr ha.2) hsome

/-- An item comes in with its parents. -/
theorem Tracks.enter (h : Tracks parents items ∅ [] q) (a : α) :
    Tracks parents (items ++ [a]) ∅ [] (q.enter a (parents a)) := by
  have hall := h.all
  unfold ReadyQueue.enter
  by_cases hnone : parents a = ∅
  · rw [if_pos hnone]
    refine ⟨?_, fun b hb => ?_, h.waits⟩
    · simp only [List.append_nil] at hall ⊢
      rw [List.append_assoc]
      exact (List.perm_append_comm.append_left _).trans (by simpa using hall.append_right [a])
    · rw [List.append_nil, List.mem_append, List.mem_singleton] at hb
      cases hb with
      | inl hb => exact h.ready b (List.mem_append_left _ hb)
      | inr hb => simp [hb, hnone]
  · rw [if_neg hnone]
    refine ⟨by simpa using hall.append_right [a], h.ready, fun w hw => ?_⟩
    cases List.mem_append.mp hw with
    | inl hw => exact h.waits w hw
    | inr hw =>
      rw [List.mem_singleton.mp hw]
      exact ⟨by simp, hnone, rfl⟩

/-- A ready item is taken. -/
theorem Tracks.take {rest : List α} (h : Tracks parents items done taken q) (hready : q.ready.Perm (a :: rest)) :
    Tracks parents items done (taken ++ [a]) { q with ready := rest } := by
  have hperm : (rest ++ (taken ++ [a])).Perm (q.ready ++ taken) :=
    calc (rest ++ (taken ++ [a])).Perm (rest ++ (a :: taken)) := (List.perm_append_singleton _ _).append_left _
      _ |>.Perm (a :: (rest ++ taken)) := List.perm_middle
      _ |>.Perm (q.ready ++ taken) := (hready.append_right taken).symm
  exact ⟨(hperm.append_right _).trans h.all, fun b hb => h.ready b (hperm.mem_iff.mp hb), h.waits⟩

/-- **What is done releases those that wait for it**, and there is a result. -/
theorem Tracks.finish (h : Tracks parents items done taken q) (k : K) :
    ∃ q', q.finish k = some q' ∧ Tracks parents items (insert k done) taken q' := by
  have hlive : ¬ ∃ w ∈ q.waiters, w.freed ∧ k ∈ w.dependsOn := by
    intro hfreed
    obtain ⟨w, hw, hf, -⟩ := hfreed
    simp [(h.waits w hw).2.2] at hf
  refine ⟨_, if_neg hlive, ?_, fun a ha => ?_, fun w hw => ?_⟩
  · have hitems : (q.released k).map Waiter.item = q.waiters.map Waiter.item := by simp [released]
    have hsplit := (List.filter_append_perm (fun w => decide (w.dependsOn = ∅)) (q.released k)).map Waiter.item
    rw [List.map_append, hitems] at hsplit
    refine List.Perm.trans ?_ ((hsplit.append_left (q.ready ++ taken)).trans h.all)
    simp only [List.append_assoc]
    exact (List.perm_append_comm_assoc ..).append_left _
  · rw [List.mem_append, List.mem_append] at ha
    have hold : ∀ b ∈ q.ready ++ taken, parents b ⊆ insert k done :=
      fun b hb => (h.ready b hb).trans (Finset.subset_insert k done)
    cases ha with
    | inr ha => exact hold a (List.mem_append_right _ ha)
    | inl ha =>
      cases ha with
      | inl ha => exact hold a (List.mem_append_left _ ha)
      | inr ha =>
        obtain ⟨w, hw, rfl⟩ := List.mem_map.mp ha
        obtain ⟨hw, hempty⟩ := List.mem_filter.mp hw
        obtain ⟨v, hv, rfl⟩ := mem_released.mp hw
        have hdep := of_decide_eq_true hempty
        rwa [(h.waits v hv).1, ← Finset.sdiff_insert, Finset.sdiff_eq_empty_iff_subset] at hdep
  · obtain ⟨hw, hsome⟩ := List.mem_filter.mp hw
    obtain ⟨v, hv, rfl⟩ := mem_released.mp hw
    obtain ⟨hdep, -, hf⟩ := h.waits v hv
    exact ⟨by simp only [hdep, Finset.sdiff_insert], by simpa using hsome, hf⟩

end

end ReadyQueue
