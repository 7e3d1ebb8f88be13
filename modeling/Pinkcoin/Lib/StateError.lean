/-
Programs that change a state and may stop with an error, the state staying
as it was at the stop (`EStateM` keeps it, `Except` has none). A proof about
such a program takes it apart once, here: what a successful run of a
sequence says about its parts (`bind_ok`), and which relations between the
state before and after a run hold whatever the run does (`Keeps`).
-/
import Mathlib.Logic.Basic
import Mathlib.Order.Defs.Unbundled

namespace StateError

variable {ε σ α β : Type}

/-- The state a run stops in, with a value or with an error. -/
def endState : EStateM.Result ε σ α → σ
  | .ok _ s => s
  | .error _ s => s

@[simp] theorem endState_ok (a : α) (s : σ) : endState (ε := ε) (.ok a s) = s := rfl
@[simp] theorem endState_error (e : ε) (s : σ) : endState (α := α) (.error e s) = s := rfl

/-- Stop with `e` when `c` holds: a guard `if (c) return error(…)`. -/
def rejectIf {m : Type → Type} [Monad m] [MonadExceptOf ε m] (c : Prop) [Decidable c] (e : ε) : m Unit :=
  if c then throw e else pure ()

/-- Run `x` only where `c` holds. -/
def onlyIf {m : Type → Type} [Monad m] (c : Prop) [Decidable c] (x : m Unit) : m Unit := if c then x else pure ()

/-- A pure check inside a stateful program. -/
def lift (x : Except ε α) : EStateM ε σ α := fun s =>
  match x with
  | .ok a => .ok a s
  | .error e => .error e s

/-- Run `x` and say whether it succeeded: `if (!x(…))`. -/
def attempt (x : EStateM ε σ α) : EStateM ε σ Bool := fun s =>
  match x s with
  | .ok _ s' => .ok true s'
  | .error _ s' => .ok false s'

/-- Refuse with `e` where `x` refuses: `if (!x(…)) return e;`. -/
def withError (e : ε) (x : EStateM ε σ α) : EStateM ε σ α := fun s =>
  match x s with
  | .ok a s' => .ok a s'
  | .error _ s' => .error e s'

/-! ## Checks without state -/

@[simp] theorem except_bind_ok {x : Except ε α} {f : α → Except ε β} {b : β} :
    (x >>= f) = .ok b ↔ ∃ a, x = .ok a ∧ f a = .ok b := by
  cases x <;> simp [bind, Except.bind]

@[simp] theorem except_pure_ok {a b : α} : (pure a : Except ε α) = .ok b ↔ a = b := by
  simp [pure, Except.pure]

@[simp] theorem except_throw_ok {e : ε} {b : α} : (throw e : Except ε α) = .ok b ↔ False := by
  simp [throw, throwThe, MonadExceptOf.throw]

@[simp] theorem except_rejectIf_ok {c : Prop} [Decidable c] {e : ε} {u : Unit} :
    (rejectIf c e : Except ε Unit) = .ok u ↔ ¬ c := by
  by_cases h : c <;> simp [rejectIf, h]

@[simp] theorem except_onlyIf_ok {c : Prop} [Decidable c] {x : Except ε Unit} {u : Unit} :
    onlyIf c x = .ok u ↔ (c → x = .ok u) := by
  by_cases h : c <;> simp [onlyIf, h]

@[simp] theorem except_mapError_ok {ε' : Type} {f : ε → ε'} {x : Except ε α} {a : α} :
    x.mapError f = .ok a ↔ x = .ok a := by
  cases x with
  | error e =>
    show Except.error (f e) = .ok a ↔ _
    simp
  | ok b =>
    show Except.ok b = .ok a ↔ _
    simp

/-- A loop of checks passes when each of them does. -/
@[simp] theorem except_forM_ok {f : α → Except ε Unit} {l : List α} {u : Unit} :
    forM l f = .ok u ↔ ∀ a ∈ l, f a = .ok ⟨⟩ := by
  induction l with
  | nil => simp [pure, Except.pure]
  | cons a l ih =>
    rw [List.forM_cons, except_bind_ok, List.forall_mem_cons, ← ih]
    exact ⟨fun ⟨_, ha, hl⟩ => ⟨ha, hl⟩, fun ⟨ha, hl⟩ => ⟨⟨⟩, ha, hl⟩⟩

theorem except_bind_error {x : Except ε α} {f : α → Except ε β} {e : ε} :
    (x >>= f) = .error e ↔ x = .error e ∨ ∃ a, x = .ok a ∧ f a = .error e := by
  cases x <;> simp [bind, Except.bind]

theorem except_throw_error {e e' : ε} : (throw e : Except ε α) = .error e' ↔ e' = e := by
  simp [throw, throwThe, MonadExceptOf.throw, eq_comm]

theorem except_rejectIf_error {c : Prop} [Decidable c] {e e' : ε} :
    (rejectIf c e : Except ε Unit) = .error e' ↔ c ∧ e' = e := by
  by_cases h : c <;> simp [rejectIf, h, throw, throwThe, MonadExceptOf.throw, pure, Except.pure, eq_comm]

theorem except_mapError_error {ε' : Type} {f : ε → ε'} {x : Except ε α} {e' : ε'} :
    x.mapError f = .error e' ↔ ∃ e, x = .error e ∧ f e = e' := by
  cases x with
  | error e =>
    show Except.error (f e) = .error e' ↔ _
    simp
  | ok b =>
    show Except.ok b = .error e' ↔ _
    simp

/-! ## The primitives, run on a state -/

theorem get_run (s : σ) : (get : EStateM ε σ σ) s = .ok s s := rfl

theorem modify_run (g : σ → σ) (s : σ) : (modify g : EStateM ε σ Unit) s = .ok () (g s) := rfl

theorem throw_run (e : ε) (s : σ) : (throw e : EStateM ε σ α) s = .error e s := rfl

/-! ## Stateful programs, taken apart by a successful run -/

@[simp] theorem bind_ok {x : EStateM ε σ α} {f : α → EStateM ε σ β} {s s' : σ} {b : β} :
    (x >>= f) s = .ok b s' ↔ ∃ a t, x s = .ok a t ∧ f a t = .ok b s' := by
  simp only [bind, EStateM.bind]
  cases x s with
  | ok a t =>
    simp only [EStateM.Result.ok.injEq]
    exact ⟨fun h => ⟨a, t, ⟨rfl, rfl⟩, h⟩, fun ⟨_, _, ⟨ha, ht⟩, h⟩ => ha ▸ ht ▸ h⟩
  | error e t => simp

@[simp] theorem pure_ok {a b : α} {s s' : σ} :
    (pure a : EStateM ε σ α) s = .ok b s' ↔ a = b ∧ s = s' := by
  simp [pure, EStateM.pure]

@[simp] theorem throw_ok {e : ε} {b : α} {s s' : σ} :
    (throw e : EStateM ε σ α) s = .ok b s' ↔ False := by
  simp [throw_run]

@[simp] theorem get_ok {s s' a : σ} : (get : EStateM ε σ σ) s = .ok a s' ↔ a = s ∧ s' = s := by
  simp [get_run, eq_comm]

@[simp] theorem modify_ok {g : σ → σ} {s s' : σ} {u : Unit} :
    (modify g : EStateM ε σ Unit) s = .ok u s' ↔ s' = g s := by
  simp [modify_run, eq_comm]

@[simp] theorem rejectIf_ok {c : Prop} [Decidable c] {e : ε} {s s' : σ} {u : Unit} :
    (rejectIf c e : EStateM ε σ Unit) s = .ok u s' ↔ ¬ c ∧ s' = s := by
  by_cases h : c <;> simp [rejectIf, h, eq_comm]

theorem onlyIf_ok {c : Prop} [Decidable c] {x : EStateM ε σ Unit} {s s' : σ} {u : Unit} :
    onlyIf c x s = .ok u s' ↔ (c ∧ x s = .ok u s') ∨ (¬ c ∧ s' = s) := by
  by_cases h : c <;> simp [onlyIf, h, eq_comm]

@[simp] theorem lift_ok {x : Except ε α} {a : α} {s s' : σ} :
    (lift x : EStateM ε σ α) s = .ok a s' ↔ x = .ok a ∧ s' = s := by
  cases x <;> simp [lift, eq_comm]

theorem attempt_ok {x : EStateM ε σ α} {b : Bool} {s s' : σ} :
    attempt x s = .ok b s' ↔ (b = true ∧ ∃ a, x s = .ok a s') ∨ (b = false ∧ ∃ e, x s = .error e s') := by
  unfold attempt
  cases x s <;> simp [eq_comm, and_comm]

@[simp] theorem withError_ok {x : EStateM ε σ α} {e : ε} {a : α} {s s' : σ} :
    withError e x s = .ok a s' ↔ x s = .ok a s' := by
  unfold withError
  cases x s <;> simp

@[simp] theorem forM_nil_ok {f : α → EStateM ε σ Unit} {s s' : σ} {u : Unit} :
    forM ([] : List α) f s = .ok u s' ↔ s' = s := by
  simp [eq_comm]

@[simp] theorem forM_cons_ok {f : α → EStateM ε σ Unit} {a : α} {l : List α} {s s' : σ} {u : Unit} :
    forM (a :: l) f s = .ok u s' ↔ ∃ t, f a s = .ok ⟨⟩ t ∧ forM l f t = .ok u s' := by
  rw [List.forM_cons, bind_ok]
  exact ⟨fun ⟨_, t, h⟩ => ⟨t, h⟩, fun ⟨t, h⟩ => ⟨⟨⟩, t, h⟩⟩

/-- A loop ends with a value when each of its steps does. -/
theorem exists_forM_ok {f : α → EStateM ε σ Unit} (h : ∀ a s, ∃ s', f a s = .ok () s') (l : List α) (s : σ) :
    ∃ s', forM l f s = .ok () s' := by
  induction l generalizing s with
  | nil => exact ⟨s, rfl⟩
  | cons a l ih =>
    obtain ⟨t, ht⟩ := h a s
    obtain ⟨s', hs'⟩ := ih t
    exact ⟨s', forM_cons_ok.mpr ⟨t, ht, hs'⟩⟩

theorem exists_attempt_ok (x : EStateM ε σ α) (s : σ) : ∃ b s', attempt x s = .ok b s' := by
  unfold attempt
  cases x s with
  | ok a s' => exact ⟨true, s', rfl⟩
  | error e s' => exact ⟨false, s', rfl⟩

/-- Whether a run ended with a value. -/
def isOk : EStateM.Result ε σ α → Bool
  | .ok _ _ => true
  | .error _ _ => false

theorem exists_of_isOk {r : EStateM.Result ε σ α} (h : isOk r) : ∃ a s, r = .ok a s := by
  cases r with
  | ok a s => exact ⟨a, s, rfl⟩
  | error e s => simp [isOk] at h

theorem exists_of_not_isOk {r : EStateM.Result ε σ α} (h : isOk r = false) : ∃ e s, r = .error e s := by
  cases r with
  | ok a s => simp [isOk] at h
  | error e s => exact ⟨e, s, rfl⟩

theorem ok_of_isOk {r : EStateM.Result ε σ Unit} (h : isOk r) : r = .ok () (endState r) := by
  obtain ⟨_, s, rfl⟩ := exists_of_isOk h
  rfl

/-! ## Taken apart by a failed run -/

theorem bind_error {x : EStateM ε σ α} {f : α → EStateM ε σ β} {s s' : σ} {e : ε} :
    (x >>= f) s = .error e s' ↔ x s = .error e s' ∨ ∃ a t, x s = .ok a t ∧ f a t = .error e s' := by
  simp only [bind, EStateM.bind]
  cases x s with
  | ok a t =>
    simp only [EStateM.Result.ok.injEq, reduceCtorEq, false_or]
    exact ⟨fun h => ⟨a, t, ⟨rfl, rfl⟩, h⟩, fun ⟨_, _, ⟨ha, ht⟩, h⟩ => ha ▸ ht ▸ h⟩
  | error e' t => simp

@[simp] theorem pure_error {a : α} {s s' : σ} {e : ε} : (pure a : EStateM ε σ α) s = .error e s' ↔ False := by
  simp [pure, EStateM.pure]

@[simp] theorem throw_error {e e' : ε} {s s' : σ} :
    (throw e : EStateM ε σ α) s = .error e' s' ↔ e' = e ∧ s' = s := by
  simp [throw_run, eq_comm]

@[simp] theorem get_error {s s' : σ} {e : ε} : (get : EStateM ε σ σ) s = .error e s' ↔ False := by
  simp [get_run]

@[simp] theorem set_ok {s s' t : σ} {u : Unit} : (set t : EStateM ε σ Unit) s = .ok u s' ↔ s' = t := by
  show EStateM.Result.ok () t = .ok u s' ↔ _
  simp [eq_comm]

@[simp] theorem set_error {s s' t : σ} {e : ε} : (set t : EStateM ε σ Unit) s = .error e s' ↔ False := by
  show EStateM.Result.ok () t = .error e s' ↔ _
  simp

@[simp] theorem modify_error {g : σ → σ} {s s' : σ} {e : ε} :
    (modify g : EStateM ε σ Unit) s = .error e s' ↔ False := by
  simp [modify_run]

@[simp] theorem rejectIf_error {c : Prop} [Decidable c] {e e' : ε} {s s' : σ} :
    (rejectIf c e : EStateM ε σ Unit) s = .error e' s' ↔ c ∧ e' = e ∧ s' = s := by
  by_cases h : c <;> simp [rejectIf, h]

@[simp] theorem lift_error {x : Except ε α} {s s' : σ} {e : ε} :
    (lift x : EStateM ε σ α) s = .error e s' ↔ x = .error e ∧ s' = s := by
  cases x <;> simp [lift, eq_comm]

@[simp] theorem attempt_error {x : EStateM ε σ α} {s s' : σ} {e : ε} : attempt x s = .error e s' ↔ False := by
  unfold attempt
  cases x s <;> simp

theorem withError_error {x : EStateM ε σ α} {e e' : ε} {s s' : σ} :
    withError e x s = .error e' s' ↔ e' = e ∧ ∃ d, x s = .error d s' := by
  unfold withError
  cases x s <;> simp [eq_comm]

/-! ## Runs that cannot fail -/

/-- The run of `x` from `s` ends with a value, and `Q` holds then. -/
def Returns (x : EStateM ε σ α) (s : σ) (Q : α → σ → Prop) : Prop := ∃ a s', x s = .ok a s' ∧ Q a s'

theorem Returns.mono {x : EStateM ε σ α} {s : σ} {P Q : α → σ → Prop} (h : Returns x s P)
    (hPQ : ∀ a s', P a s' → Q a s') : Returns x s Q := by
  obtain ⟨a, s', hrun, ha⟩ := h
  exact ⟨a, s', hrun, hPQ a s' ha⟩

theorem Returns.bind {x : EStateM ε σ α} {f : α → EStateM ε σ β} {s : σ} {P : α → σ → Prop} {Q : β → σ → Prop}
    (hx : Returns x s P) (hf : ∀ a t, P a t → Returns (f a) t Q) : Returns (x >>= f) s Q := by
  obtain ⟨a, t, hrun, ha⟩ := hx
  obtain ⟨b, s', hrun', hb⟩ := hf a t ha
  exact ⟨b, s', bind_ok.mpr ⟨a, t, hrun, hrun'⟩, hb⟩

theorem returns_pure {a : α} {s : σ} {Q : α → σ → Prop} (h : Q a s) : Returns (pure a : EStateM ε σ α) s Q :=
  ⟨a, s, rfl, h⟩

theorem returns_get_bind {f : σ → EStateM ε σ β} {s : σ} {Q : β → σ → Prop} (h : Returns (f s) s Q) :
    Returns (get >>= f) s Q := h

theorem returns_modify_bind {g : σ → σ} {f : Unit → EStateM ε σ β} {s : σ} {Q : β → σ → Prop}
    (h : Returns (f ()) (g s) Q) : Returns (modify g >>= f) s Q := h

theorem returns_rejectIf {c : Prop} [Decidable c] {e : ε} {s : σ} {Q : Unit → σ → Prop} (hc : ¬ c) (h : Q () s) :
    Returns (rejectIf c e : EStateM ε σ Unit) s Q :=
  ⟨(), s, rejectIf_ok.mpr ⟨hc, rfl⟩, h⟩

theorem returns_onlyIf {c : Prop} [Decidable c] {x : EStateM ε σ Unit} {s : σ} {Q : Unit → σ → Prop}
    (hx : c → Returns x s Q) (h : ¬ c → Q () s) : Returns (onlyIf c x) s Q := by
  unfold onlyIf
  split
  next hc => exact hx hc
  next hc => exact returns_pure (h hc)

/-- A loop with an accumulator ends when each of its steps keeps `I`. -/
theorem returns_foldlM {I : β → σ → Prop} {f : β → α → EStateM ε σ β} {l : List α} {b : β} {s : σ} (hs : I b s)
    (h : ∀ b a s, a ∈ l → I b s → Returns (f b a) s I) : Returns (l.foldlM f b) s I := by
  induction l generalizing b s with
  | nil => exact returns_pure hs
  | cons a l ih =>
    rw [List.foldlM_cons]
    exact (h b a s List.mem_cons_self hs).bind fun b t hb => ih hb fun b a s ha => h b a s (List.mem_cons_of_mem _ ha)

/-! ## Outcomes that do not depend on the state -/

/-- The value or the error a run stops with. -/
def outcome : EStateM.Result ε σ α → Except ε α
  | .ok a _ => .ok a
  | .error e _ => .error e

/-- What a run of `x` stops with is the same from every state. -/
def Blind (x : EStateM ε σ α) : Prop := ∀ s t, outcome (x s) = outcome (x t)

theorem blind_pure (a : α) : Blind (pure a : EStateM ε σ α) := fun _ _ => rfl

theorem blind_throw (e : ε) : Blind (throw e : EStateM ε σ α) := fun _ _ => rfl

theorem blind_modify (g : σ → σ) : Blind (modify g : EStateM ε σ Unit) := fun _ _ => rfl

theorem blind_lift (y : Except ε α) : Blind (lift y : EStateM ε σ α) := by
  intro s t
  cases y <;> rfl

theorem blind_ite {c : Prop} [Decidable c] {x y : EStateM ε σ α} (hx : Blind x) (hy : Blind y) :
    Blind (if c then x else y) := by
  split
  · exact hx
  · exact hy

theorem blind_rejectIf (c : Prop) [Decidable c] (e : ε) : Blind (rejectIf c e : EStateM ε σ Unit) :=
  blind_ite (blind_throw e) (blind_pure ())

theorem blind_bind {x : EStateM ε σ α} {f : α → EStateM ε σ β} (hx : Blind x) (hf : ∀ a, Blind (f a)) : Blind (x >>= f) := by
  intro s t
  have houtcome := hx s t
  simp only [bind, EStateM.bind]
  cases hs : x s with
  | ok a s' =>
    cases ht : x t with
    | ok b t' =>
      rw [hs, ht] at houtcome
      cases houtcome
      exact hf a s' t'
    | error e t' =>
      rw [hs, ht] at houtcome
      cases houtcome
  | error e s' =>
    cases ht : x t with
    | ok b t' =>
      rw [hs, ht] at houtcome
      cases houtcome
    | error e' t' =>
      rw [hs, ht] at houtcome
      cases houtcome
      rfl

/-! ## Relations every run keeps -/

/-- However the run of `x` ends, `R` holds between its first and last state. -/
def Keeps (R : σ → σ → Prop) (x : EStateM ε σ α) : Prop :=
  ∀ s, R s (endState (x s))

variable {R : σ → σ → Prop} {x : EStateM ε σ α} {f : α → EStateM ε σ β}

theorem Keeps.ok (hx : Keeps R x) {s s' : σ} {a : α} (h : x s = .ok a s') : R s s' := by
  simpa [h] using hx s

theorem Keeps.error (hx : Keeps R x) {s s' : σ} {e : ε} (h : x s = .error e s') : R s s' := by
  simpa [h] using hx s

theorem Keeps.mono {R' : σ → σ → Prop} (hx : Keeps R x) (h : ∀ s s', R s s' → R' s s') : Keeps R' x :=
  fun s => h _ _ (hx s)

section Rules

variable [Std.Refl R]

theorem keeps_pure (a : α) : Keeps R (pure a : EStateM ε σ α) := fun s => Std.Refl.refl s

theorem keeps_throw (e : ε) : Keeps R (throw e : EStateM ε σ α) := fun s => Std.Refl.refl s

theorem keeps_get : Keeps R (get : EStateM ε σ σ) := fun s => Std.Refl.refl s

theorem keeps_lift (y : Except ε α) : Keeps R (lift y) := by
  intro s
  cases y <;> exact Std.Refl.refl s

theorem keeps_rejectIf (c : Prop) [Decidable c] (e : ε) : Keeps R (rejectIf c e : EStateM ε σ Unit) := by
  unfold rejectIf
  split
  · exact keeps_throw e
  · exact keeps_pure ()

end Rules

theorem keeps_attempt (hx : Keeps R x) : Keeps R (attempt x) := by
  intro s
  have h := hx s
  unfold attempt
  cases hxs : x s <;> simpa [hxs] using h

theorem keeps_withError (e : ε) (hx : Keeps R x) : Keeps R (withError e x) := by
  intro s
  have h := hx s
  unfold withError
  cases hxs : x s <;> simpa [hxs] using h

theorem keeps_modify {g : σ → σ} (h : ∀ s, R s (g s)) : Keeps R (modify g : EStateM ε σ Unit) := h

theorem keeps_bind [IsTrans σ R] (hx : Keeps R x) (hf : ∀ a, Keeps R (f a)) : Keeps R (x >>= f) := by
  intro s
  simp only [bind, EStateM.bind]
  cases hxs : x s with
  | ok a t => exact IsTrans.trans _ _ _ (hx.ok hxs) (hf a t)
  | error e t => exact hx.error hxs

/-- As `keeps_bind`, where the second part relies on what the first returned. -/
theorem keeps_bind_of [IsTrans σ R] (hx : Keeps R x) (hf : ∀ s a t, x s = .ok a t → R t (endState (f a t))) :
    Keeps R (x >>= f) := by
  intro s
  simp only [bind, EStateM.bind]
  cases hxs : x s with
  | ok a t => exact IsTrans.trans _ _ _ (hx.ok hxs) (hf s a t hxs)
  | error e t => exact hx.error hxs

theorem keeps_ite {c : Prop} [Decidable c] {y : EStateM ε σ α} (hx : Keeps R x) (hy : Keeps R y) :
    Keeps R (if c then x else y) := by
  split
  · exact hx
  · exact hy

theorem keeps_onlyIf [Std.Refl R] {c : Prop} [Decidable c] {y : EStateM ε σ Unit} (hy : Keeps R y) :
    Keeps R (onlyIf c y) := keeps_ite hy (keeps_pure ())

theorem keeps_forM [Std.Refl R] [IsTrans σ R] {g : α → EStateM ε σ Unit} :
    ∀ {l : List α}, (∀ a ∈ l, Keeps R (g a)) → Keeps R (forM l g)
  | [], _ => keeps_pure _
  | a :: l, h => by
    rw [List.forM_cons]
    exact keeps_bind (h a (by simp)) fun _ => keeps_forM fun b hb => h b (by simp [hb])

theorem keeps_foldlM [Std.Refl R] [IsTrans σ R] {g : β → α → EStateM ε σ β} (h : ∀ b a, Keeps R (g b a)) :
    ∀ {l : List α} {b : β}, Keeps R (l.foldlM g b)
  | [], b => keeps_pure b
  | a :: l, b => by
    rw [List.foldlM_cons]
    exact keeps_bind (h b a) fun _ => keeps_foldlM h

end StateError
