/-
Writers of bytes and the readers that undo them. A reader takes bytes off a
stream, of which only two things are known: the bytes that are left, and
whether the stream may still be read from.
-/
import Mathlib.Algebra.Ring.Nat
import Mathlib.Data.List.Basic

namespace Codec

variable {α β γ σ ε : Type}

/-! ## Writers -/

/-- What was written can be told from the bytes, whatever follows it. -/
def Unambiguous (V : α → Prop) (write : α → List UInt8) : Prop :=
  ∀ {a b : α} {x y : List UInt8}, V a → V b → write a ++ x = write b ++ y → a = b ∧ x = y

/-- Values, one after the other. -/
def writeAll (write : α → List UInt8) (l : List α) : List UInt8 := (l.map write).flatten

theorem writeAll_cons (write : α → List UInt8) (a : α) (l : List α) :
    writeAll write (a :: l) = write a ++ writeAll write l := rfl

theorem length_writeAll (write : α → List UInt8) (l : List α) :
    (writeAll write l).length = (l.map fun a => (write a).length).sum := by
  rw [writeAll, List.length_flatten, List.map_map]
  rfl

/-- As many values as are known to come. -/
theorem Unambiguous.writeAll {V : α → Prop} {write : α → List UInt8} (h : Unambiguous V write) (n : Nat) :
    Unambiguous (fun l : List α => l.length = n ∧ ∀ a ∈ l, V a) (writeAll write) := by
  induction n with
  | zero =>
    intro a b x y ha hb heq
    obtain rfl := List.length_eq_zero_iff.mp ha.1
    obtain rfl := List.length_eq_zero_iff.mp hb.1
    exact ⟨rfl, heq⟩
  | succ n ih =>
    intro a b x y ha hb heq
    obtain ⟨a, l, rfl⟩ := List.exists_cons_of_length_eq_add_one ha.1
    obtain ⟨b, m, rfl⟩ := List.exists_cons_of_length_eq_add_one hb.1
    rw [writeAll_cons, writeAll_cons, List.append_assoc, List.append_assoc] at heq
    obtain ⟨hab, hrest⟩ := h (ha.2 a List.mem_cons_self) (hb.2 b List.mem_cons_self) heq
    have hl : l.length = n := Nat.succ.inj ha.1
    have hm : m.length = n := Nat.succ.inj hb.1
    obtain ⟨hlm, hxy⟩ := ih ⟨hl, fun a h => ha.2 a (List.mem_cons_of_mem _ h)⟩
      ⟨hm, fun b h => hb.2 b (List.mem_cons_of_mem _ h)⟩ hrest
    exact ⟨by rw [hab, hlm], hxy⟩

/-- A list after its length. -/
theorem Unambiguous.counted {V : α → Prop} {write : α → List UInt8} {W : Nat → Prop} {writeCount : Nat → List UInt8}
    (hcount : Unambiguous W writeCount) (h : Unambiguous V write) :
    Unambiguous (fun l : List α => W l.length ∧ ∀ a ∈ l, V a) fun l => writeCount l.length ++ Codec.writeAll write l := by
  intro a b x y ha hb heq
  rw [List.append_assoc, List.append_assoc] at heq
  obtain ⟨hlen, heq⟩ := hcount ha.1 hb.1 heq
  exact h.writeAll b.length ⟨hlen, ha.2⟩ ⟨rfl, hb.2⟩ heq

/-! ## Readers -/

/-- What is known of a stream: the bytes that are left to read, and whether
it can be read from. -/
structure Stream (σ : Type) where
  rest : σ → List UInt8
  Ok : σ → Prop

variable (S : Stream σ)

/-- A reader undoes a writer: it reads back each valid value that was written,
and it reads nothing else. -/
structure Reads (V : α → Prop) (write : α → List UInt8) (read : EStateM ε σ α) : Prop where
  back : ∀ {s : σ} {a : α} {more : List UInt8}, S.Ok s → V a → S.rest s = write a ++ more →
    ∃ s', read s = .ok a s' ∧ S.Ok s' ∧ S.rest s' = more
  only : ∀ {s s' : σ} {a : α}, S.Ok s → read s = .ok a s' → V a ∧ S.Ok s' ∧ S.rest s = write a ++ S.rest s'

namespace Reads

variable {S} {V : α → Prop} {write : α → List UInt8} {read : EStateM ε σ α}

theorem congr {W : α → Prop} {write' : α → List UInt8} (h : Reads S V write read) (hV : ∀ a, V a ↔ W a)
    (hw : ∀ a, V a → write a = write' a) : Reads S W write' read := by
  constructor
  · intro s a more hs ha hrest
    have ha := (hV a).mpr ha
    exact h.back hs ha (by rw [hw a ha, hrest])
  · intro s s' a hs hread
    obtain ⟨ha, hs', hrest⟩ := h.only hs hread
    exact ⟨(hV a).mp ha, hs', by rw [hrest, hw a ha]⟩

/-- The end of a record. -/
theorem pure {P : α → Prop} {a : α} (h : ∀ b, P b ↔ b = a) :
    Reads S (fun b => P b ∧ True) (fun _ => []) (Pure.pure a : EStateM ε σ α) := by
  constructor
  · intro s b more hs hb hrest
    obtain rfl := (h b).mp hb.1
    exact ⟨s, rfl, hs, hrest⟩
  · intro s s' b hs hread
    obtain ⟨rfl, rfl⟩ := EStateM.Result.ok.inj hread
    exact ⟨⟨(h a).mpr rfl, trivial⟩, hs, rfl⟩

/-- A field of a record, and those after it. -/
theorem field {P W : γ → Prop} {g : γ → α} {write' : γ → List UInt8} {f : α → EStateM ε σ γ} (hread : Reads S V write read)
    (hf : ∀ a, V a → Reads S (fun c => (P c ∧ g c = a) ∧ W c) write' (f a)) :
    Reads S (fun c => P c ∧ (V (g c) ∧ W c)) (fun c => write (g c) ++ write' c) (read >>= f) := by
  constructor
  · intro s c more hs ⟨hP, hV, hW⟩ hrest
    rw [List.append_assoc] at hrest
    obtain ⟨t, hrun, ht, hrest⟩ := hread.back hs hV hrest
    obtain ⟨s', hrun', hs', hrest⟩ := (hf _ hV).back ht ⟨⟨hP, rfl⟩, hW⟩ hrest
    refine ⟨s', ?_, hs', hrest⟩
    simp only [bind, EStateM.bind, hrun]
    exact hrun'
  · intro s s' c hs hrun
    simp only [bind, EStateM.bind] at hrun
    split at hrun
    next a t ha =>
      obtain ⟨hV, ht, hrest⟩ := hread.only hs ha
      obtain ⟨⟨⟨hP, hg⟩, hW⟩, hs', hrest'⟩ := (hf a hV).only ht hrun
      exact ⟨⟨hP, by rwa [hg], hW⟩, hs', by rw [hrest, hrest', hg, List.append_assoc]⟩
    next => exact nomatch hrun

/-- A value read as another one. -/
theorem map {W : β → Prop} {f : α → β} {g : β → α} (h : Reads S V write read) (hW : ∀ b, W b ↔ V (g b) ∧ f (g b) = b)
    (hf : ∀ a, V a → g (f a) = a) : Reads S W (fun b => write (g b)) (read >>= fun a => Pure.pure (f a)) := by
  constructor
  · intro s b more hs hb hrest
    obtain ⟨hV, hgb⟩ := (hW b).mp hb
    obtain ⟨s', hrun, hs', hrest⟩ := h.back hs hV hrest
    refine ⟨s', ?_, hs', hrest⟩
    simp only [bind, EStateM.bind, hrun, Pure.pure, EStateM.pure, hgb]
  · intro s s' b hs hrun
    simp only [bind, EStateM.bind] at hrun
    split at hrun
    next a t ha =>
      obtain ⟨rfl, rfl⟩ := EStateM.Result.ok.inj hrun
      obtain ⟨hV, ht, hrest⟩ := h.only hs ha
      exact ⟨(hW _).mpr ⟨by rwa [hf a hV], by rw [hf a hV]⟩, ht, by rw [hrest, hf a hV]⟩
    next => exact nomatch hrun

end Reads

/-- `n` values, one after the other. -/
def readMany (read : EStateM ε σ α) : Nat → EStateM ε σ (List α)
  | 0 => pure []
  | n + 1 => do
    let a ← read
    let l ← readMany read n
    pure (a :: l)

theorem Reads.many {S : Stream σ} {V : α → Prop} {write : α → List UInt8} {read : EStateM ε σ α} (h : Reads S V write read)
    (n : Nat) : Reads S (fun l : List α => l.length = n ∧ ∀ a ∈ l, V a) (writeAll write) (readMany read n) := by
  induction n with
  | zero =>
    refine (Reads.pure (P := fun l : List α => l.length = 0) fun l => List.length_eq_zero_iff).congr (fun l => ?_) fun l hl => ?_
    · exact and_congr_right fun hl => iff_of_true trivial (by rw [List.length_eq_zero_iff.mp hl]; exact nofun)
    · rw [List.length_eq_zero_iff.mp hl.1]
      rfl
  | succ n ih =>
    constructor
    · intro s l more hs hl hrest
      obtain ⟨a, l, rfl⟩ := List.exists_cons_of_length_eq_add_one hl.1
      rw [writeAll_cons, List.append_assoc] at hrest
      obtain ⟨t, hrun, ht, hrest⟩ := h.back hs (hl.2 a List.mem_cons_self) hrest
      have hvalid : l.length = n ∧ ∀ a ∈ l, V a := ⟨Nat.succ.inj hl.1, fun a ha => hl.2 a (List.mem_cons_of_mem _ ha)⟩
      obtain ⟨s', hrun', hs', hrest⟩ := ih.back ht hvalid hrest
      refine ⟨s', ?_, hs', hrest⟩
      simp only [readMany, bind, EStateM.bind, hrun, hrun', Pure.pure, EStateM.pure]
    · intro s s' l hs hrun
      simp only [readMany, bind, EStateM.bind] at hrun
      split at hrun
      next a t ha =>
        split at hrun
        next l' t' hl' =>
          obtain ⟨rfl, rfl⟩ := EStateM.Result.ok.inj hrun
          obtain ⟨hV, ht, hrest⟩ := h.only hs ha
          obtain ⟨⟨hlen, hall⟩, ht', hrest'⟩ := ih.only ht hl'
          refine ⟨⟨by rw [List.length_cons, hlen], List.forall_mem_cons.mpr ⟨hV, hall⟩⟩, ht', ?_⟩
          rw [hrest, hrest', writeAll_cons, List.append_assoc]
        next => exact nomatch hrun
      next => exact nomatch hrun

/-- A list after its length. -/
theorem Reads.counted {S : Stream σ} {V : α → Prop} {write : α → List UInt8} {W : Nat → Prop} {writeCount : Nat → List UInt8}
    {readCount : EStateM ε σ Nat} {readAll : Nat → EStateM ε σ (List α)} (hcount : Reads S W writeCount readCount)
    (h : ∀ n, Reads S (fun l : List α => l.length = n ∧ ∀ a ∈ l, V a) (writeAll write) (readAll n)) :
    Reads S (fun l : List α => W l.length ∧ ∀ a ∈ l, V a) (fun l => writeCount l.length ++ writeAll write l)
      (readCount >>= readAll) := by
  have hfield : Reads S (fun l : List α => True ∧ (W l.length ∧ ∀ a ∈ l, V a))
      (fun l => writeCount l.length ++ writeAll write l) (readCount >>= readAll) :=
    hcount.field fun n _ => (h n).congr (fun l => by simp) fun _ _ => rfl
  exact hfield.congr (fun l => iff_of_eq (true_and _)) fun _ _ => rfl

/-! ## What is read back -/

/-- From a stream that starts with `bytes`, `read` returns `a` and leaves what
comes after them. -/
structure Recovers (S : Stream σ) (bytes : List UInt8) (read : EStateM ε σ α) (a : α) : Prop where
  back : ∀ {s : σ} {more : List UInt8}, S.Ok s → S.rest s = bytes ++ more →
    ∃ s', read s = .ok a s' ∧ S.Ok s' ∧ S.rest s' = more

/-- From a stream that starts with `bytes`, `read` fails with `e`. -/
structure Refuses (S : Stream σ) (bytes : List UInt8) (read : EStateM ε σ α) (e : ε) : Prop where
  back : ∀ {s : σ} {more : List UInt8}, S.Ok s → S.rest s = bytes ++ more → ∃ s', read s = .error e s'

section Recovers

variable {S} {bytes bytes' : List UInt8} {read : EStateM ε σ α} {a : α} {f : α → EStateM ε σ β} {b : β} {e : ε}

theorem Reads.recovers {V : α → Prop} {write : α → List UInt8} (h : Reads S V write read) (ha : V a) :
    Recovers S (write a) read a := ⟨fun hs hrest => h.back hs ha hrest⟩

theorem recovers_pure : Recovers S [] (pure a : EStateM ε σ α) a := ⟨fun hs hrest => ⟨_, rfl, hs, hrest⟩⟩

theorem Recovers.bind (hread : Recovers S bytes read a) (hf : Recovers S bytes' (f a) b) :
    Recovers S (bytes ++ bytes') (read >>= f) b := by
  constructor
  intro s more hs hrest
  rw [List.append_assoc] at hrest
  obtain ⟨t, hrun, ht, hrest⟩ := hread.back hs hrest
  obtain ⟨s', hrun', hs', hrest⟩ := hf.back ht hrest
  refine ⟨s', ?_, hs', hrest⟩
  simp only [Bind.bind, EStateM.bind, hrun, hrun']

/-- What is read first does not help what comes after it. -/
theorem Recovers.refuses (hread : Recovers S bytes read a) (hf : Refuses S bytes' (f a) e) :
    Refuses S (bytes ++ bytes') (read >>= f) e := by
  constructor
  intro s more hs hrest
  rw [List.append_assoc] at hrest
  obtain ⟨t, hrun, ht, hrest⟩ := hread.back hs hrest
  obtain ⟨s', hrun'⟩ := hf.back ht hrest
  refine ⟨s', ?_⟩
  simp only [Bind.bind, EStateM.bind, hrun, hrun']

/-- The last part of a record. -/
theorem Recovers.map {g : α → β} (hread : Recovers S bytes read a) : Recovers S bytes (read >>= fun a => pure (g a)) (g a) := by
  constructor
  intro s more hs hrest
  obtain ⟨s', hrun, h⟩ := hread.back hs hrest
  refine ⟨s', ?_, h⟩
  simp only [Bind.bind, EStateM.bind, hrun]
  rfl

/-- What refuses the first bytes refuses them with more behind. -/
theorem Refuses.append (h : Refuses S bytes read e) :
    Refuses S (bytes ++ bytes') read e := by
  constructor
  intro s more hs hrest
  exact h.back hs (by rw [hrest, List.append_assoc])

theorem Refuses.bind (h : Refuses S bytes read e) :
    Refuses S bytes (read >>= f) e := by
  constructor
  intro s more hs hrest
  obtain ⟨s', hrun⟩ := h.back hs hrest
  refine ⟨s', ?_⟩
  simp only [Bind.bind, EStateM.bind, hrun]

end Recovers

end Codec
