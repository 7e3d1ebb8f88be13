/-
A ledger of transactions: under each transaction's identifier, where it was
recorded and one slot for each of its outputs, empty until a later
transaction spends the output and then holding that transaction's mark.

Connecting a transaction fills the slots of its inputs and adds its own
record; disconnecting it empties the slots and drops the record. The file
says when the second undoes the first (`disconnectAll_connectAll`), also where
other transactions are disconnected than were connected (`takenBack_iff`), and
how the total value of the empty slots moves (`total_connect`). Identifiers, places, marks and values
are arbitrary.
-/
import Mathlib.Algebra.BigOperators.Group.Finset.Basic
import Mathlib.Tactic.Abel

namespace Ledger

variable {K A P : Type} [DecidableEq K]

/-- The record of one transaction. -/
@[ext] structure Entry (A P : Type) where
  place : A
  spent : List (Option P)

/-- What spending leaves alone: the place, and how many slots there are. -/
def Entry.shape (e : Entry A P) : A × ℕ := (e.place, e.spent.length)

/-- The records, by transaction identifier. -/
abbrev Book (K A P : Type) := K → Option (Entry A P)

/-- A transaction, as far as the ledger is concerned. -/
structure Tx (K A P : Type) where
  id : K
  inputs : List (K × ℕ)
  place : A
  mark : P
  outputs : ℕ

/-- The slot of an output: nothing when there is no such output, `some none`
while it is unspent. -/
def slot (L : Book K A P) (o : K × ℕ) : Option (Option P) := (L o.1).bind (·.spent[o.2]?)

def Unspent (L : Book K A P) (o : K × ℕ) : Prop := slot L o = some none

def setSlot (L : Book K A P) (o : K × ℕ) (m : Option P) : Book K A P :=
  Function.update L o.1 ((L o.1).map fun e => { e with spent := e.spent.set o.2 m })

/-- Fill (or empty) the slots of a list of outputs, in order. -/
def setSlots (L : Book K A P) (os : List (K × ℕ)) (m : Option P) : Book K A P :=
  os.foldl (fun L o => setSlot L o m) L

def Tx.entry (t : Tx K A P) : Entry A P := ⟨t.place, List.replicate t.outputs none⟩

def connect (L : Book K A P) (t : Tx K A P) : Book K A P :=
  Function.update (setSlots L t.inputs (some t.mark)) t.id (some t.entry)

def disconnect (L : Book K A P) (t : Tx K A P) : Book K A P :=
  Function.update (setSlots L t.inputs none) t.id none

def connectAll (L : Book K A P) (ts : List (Tx K A P)) : Book K A P := ts.foldl connect L

/-- The last transaction is disconnected first. -/
def disconnectAll (L : Book K A P) (ts : List (Tx K A P)) : Book K A P :=
  ts.foldr (fun t L => disconnect L t) L

/-! ## Slots -/

omit [DecidableEq K] in
/-- A ledger is known by the shapes of its records and by its slots. -/
theorem book_ext {L L' : Book K A P} (hp : ∀ h, (L h).map Entry.shape = (L' h).map Entry.shape)
    (hs : ∀ o, slot L o = slot L' o) : L = L' := by
  funext h
  have hph := hp h
  have hsh := fun n => hs (h, n)
  cases hL : L h with
  | none =>
    cases hL' : L' h with
    | none => rfl
    | some e' => simp [hL, hL'] at hph
  | some e =>
    cases hL' : L' h with
    | none => simp [hL, hL'] at hph
    | some e' =>
      simp only [hL, hL', Option.map_some, Option.some.injEq, Entry.shape, Prod.mk.injEq] at hph
      have : e.spent = e'.spent := List.ext_getElem? fun n => by simpa [slot, hL, hL'] using hsh n
      rw [Entry.ext hph.1 this]

theorem shape_setSlot (L : Book K A P) (o : K × ℕ) (m : Option P) (h : K) :
    (setSlot L o m h).map Entry.shape = (L h).map Entry.shape := by
  by_cases hh : h = o.1
  · subst hh
    cases hL : L o.1 <;> simp [setSlot, hL, Entry.shape]
  · simp [setSlot, Function.update_of_ne hh]

theorem slot_setSlot (L : Book K A P) (o o' : K × ℕ) (m : Option P) :
    slot (setSlot L o m) o' = if o' = o then (slot L o').map fun _ => m else slot L o' := by
  obtain ⟨h, n⟩ := o
  obtain ⟨h', n'⟩ := o'
  by_cases hh : h' = h
  · subst hh
    cases hL : L h' with
    | none => simp [slot, setSlot, hL]
    | some e =>
      by_cases hn : n' = n
      · subst hn
        rcases Nat.lt_or_ge n' e.spent.length with hlt | hge
        · simp [slot, setSlot, hL, hlt]
        · have hlen : (e.spent.set n' m).length ≤ n' := by simpa using hge
          simp [slot, setSlot, hL, List.getElem?_eq_none hge, List.getElem?_eq_none hlen]
      · simp [slot, setSlot, hL, hn, Ne.symm hn]
  · simp [slot, setSlot, hh]

theorem shape_setSlots (L : Book K A P) (os : List (K × ℕ)) (m : Option P) (h : K) :
    (setSlots L os m h).map Entry.shape = (L h).map Entry.shape := by
  induction os generalizing L with
  | nil => rfl
  | cons o os ih =>
    rw [setSlots, List.foldl_cons, ← setSlots, ih, shape_setSlot]

theorem slot_setSlots (L : Book K A P) (os : List (K × ℕ)) (m : Option P) (o : K × ℕ) :
    slot (setSlots L os m) o = if o ∈ os then (slot L o).map fun _ => m else slot L o := by
  induction os generalizing L with
  | nil => rfl
  | cons o' os ih =>
    rw [setSlots, List.foldl_cons, ← setSlots, ih, slot_setSlot]
    by_cases ho : o = o'
    · subst ho
      by_cases hos : o ∈ os <;> simp [hos, Function.comp_def]
    · simp [ho]

theorem setSlots_eq_none {L : Book K A P} {os : List (K × ℕ)} {m : Option P} {h : K} :
    setSlots L os m h = none ↔ L h = none := by
  have := shape_setSlots L os m h
  cases hL : L h <;> cases hL' : setSlots L os m h <;> simp_all

omit [DecidableEq K] in
theorem isSome_of_slot {L : Book K A P} {o : K × ℕ} {m : Option P} (h : slot L o = some m) : L o.1 ≠ none := by
  intro hn
  simp [slot, hn] at h

theorem slot_update_of_ne {L : Book K A P} {id : K} {e : Option (Entry A P)} {o : K × ℕ} (h : o.1 ≠ id) :
    slot (Function.update L id e) o = slot L o := by
  simp [slot, Function.update_of_ne h]

/-! ## What may be connected -/

/-- The transaction is new to the ledger and spends distinct unspent outputs. -/
structure Ok (L : Book K A P) (t : Tx K A P) : Prop where
  fresh : L t.id = none
  unspent : ∀ o ∈ t.inputs, Unspent L o
  nodup : t.inputs.Nodup

/-- Each transaction may be connected when its turn comes. -/
def OkAll (L : Book K A P) : List (Tx K A P) → Prop
  | [] => True
  | t :: ts => Ok L t ∧ OkAll (connect L t) ts

theorem okAll_append {L : Book K A P} {ts us : List (Tx K A P)} :
    OkAll L (ts ++ us) ↔ OkAll L ts ∧ OkAll (connectAll L ts) us := by
  induction ts generalizing L with
  | nil => simp [OkAll, connectAll]
  | cons t ts ih => simp [OkAll, ih, connectAll, and_assoc]

theorem connectAll_append (L : Book K A P) (ts us : List (Tx K A P)) :
    connectAll L (ts ++ us) = connectAll (connectAll L ts) us := List.foldl_append

/-- **Disconnecting a transaction undoes connecting it.** Its inputs' slots
were empty, and there was no record under its identifier. -/
theorem disconnect_connect {L : Book K A P} {t : Tx K A P} (h : Ok L t) : disconnect (connect L t) t = L := by
  refine book_ext (fun k => ?_) (fun o => ?_)
  · by_cases hk : k = t.id
    · subst hk
      simp [disconnect, h.fresh]
    · rw [disconnect, Function.update_of_ne hk, shape_setSlots, connect, Function.update_of_ne hk, shape_setSlots]
  · by_cases hk : o.1 = t.id
    · simp [slot, disconnect, hk, h.fresh]
    · rw [disconnect, slot_update_of_ne hk, slot_setSlots, connect, slot_update_of_ne hk, slot_setSlots]
      by_cases ho : o ∈ t.inputs
      · simp [ho, show slot L o = some none from h.unspent o ho]
      · simp [ho]

theorem disconnectAll_connectAll {L : Book K A P} {ts : List (Tx K A P)} (h : OkAll L ts) :
    disconnectAll (connectAll L ts) ts = L := by
  induction ts generalizing L with
  | nil => rfl
  | cons t ts ih =>
    have : disconnectAll (connectAll (connect L t) ts) ts = connect L t := ih h.2
    rw [disconnectAll, List.foldr_cons, ← disconnectAll, connectAll, List.foldl_cons, ← connectAll, this,
      disconnect_connect h.1]

/-! ## What connecting leaves behind -/

theorem connect_ne_none {L : Book K A P} {t : Tx K A P} {h : K} :
    connect L t h ≠ none ↔ h = t.id ∨ L h ≠ none := by
  by_cases hh : h = t.id
  · simp [connect, hh]
  · simp [connect, hh, setSlots_eq_none]

theorem connectAll_ne_none {L : Book K A P} {ts : List (Tx K A P)} {h : K} :
    connectAll L ts h ≠ none ↔ L h ≠ none ∨ ∃ t ∈ ts, t.id = h := by
  induction ts generalizing L with
  | nil => simp [connectAll]
  | cons t ts ih =>
    rw [connectAll, List.foldl_cons, ← connectAll, ih, connect_ne_none]
    simp only [List.mem_cons, exists_eq_or_imp, eq_comm (a := h)]
    tauto

/-- The slots after a transaction that may be connected: its own are empty,
its inputs' are filled, and no other slot changes. -/
theorem slot_connect {L : Book K A P} {t : Tx K A P} (h : Ok L t) (o : K × ℕ) :
    slot (connect L t) o =
      if o.1 = t.id then (if o.2 < t.outputs then some none else none)
      else if o ∈ t.inputs then some (some t.mark) else slot L o := by
  by_cases hk : o.1 = t.id
  · by_cases ho : o.2 < t.outputs <;> simp [slot, connect, hk, Tx.entry, ho]
  · rw [connect, slot_update_of_ne hk, slot_setSlots]
    by_cases ho : o ∈ t.inputs
    · simp [hk, ho, show slot L o = some none from h.unspent o ho]
    · simp [hk, ho]

theorem slot_input {L : Book K A P} {t : Tx K A P} (h : Ok L t) {o : K × ℕ} (ho : o ∈ t.inputs) :
    slot (connect L t) o = some (some t.mark) := by
  have hk : o.1 ≠ t.id := fun he => isSome_of_slot (h.unspent o ho) (he ▸ h.fresh)
  rw [slot_connect h, if_neg hk, if_pos ho]

/-- A spent slot stays spent. -/
theorem spent_connect {L : Book K A P} {t : Tx K A P} (h : Ok L t) {o : K × ℕ} {p : P}
    (ho : slot L o = some (some p)) : slot (connect L t) o = some (some p) := by
  have hk : o.1 ≠ t.id := fun he => isSome_of_slot ho (he ▸ h.fresh)
  have hni : o ∉ t.inputs := fun hi => by simpa [Unspent, ho] using h.unspent o hi
  rw [slot_connect h, if_neg hk, if_neg hni, ho]

theorem spent_connectAll {L : Book K A P} {ts : List (Tx K A P)} (h : OkAll L ts) {o : K × ℕ} {p : P}
    (ho : slot L o = some (some p)) : slot (connectAll L ts) o = some (some p) := by
  induction ts generalizing L with
  | nil => exact ho
  | cons t ts ih => exact ih h.2 (spent_connect h.1 ho)

/-- The inputs of a connected transaction are spent from then on. -/
theorem inputs_spent {L : Book K A P} {ts : List (Tx K A P)} (h : OkAll L ts) {t : Tx K A P} (ht : t ∈ ts)
    {o : K × ℕ} (ho : o ∈ t.inputs) : ∃ p, slot (connectAll L ts) o = some (some p) := by
  induction ts generalizing L with
  | nil => simp at ht
  | cons u ts ih =>
    rcases List.mem_cons.mp ht with rfl | ht
    · exact ⟨t.mark, spent_connectAll h.2 (slot_input h.1 ho)⟩
    · exact ih h.2 ht

/-- A record in the end is that of a connected transaction, or one there was
before; its place and the number of its slots are those it began with. -/
theorem shape_connectAll {L : Book K A P} {ts : List (Tx K A P)} {k : K} {e : Entry A P}
    (he : connectAll L ts k = some e) :
    (∃ t ∈ ts, t.id = k ∧ e.shape = (t.place, t.outputs)) ∨
      ((∀ t ∈ ts, t.id ≠ k) ∧ ∃ e₀, L k = some e₀ ∧ e.shape = e₀.shape) := by
  induction ts using List.reverseRecOn generalizing e with
  | nil => exact .inr ⟨by simp, e, he, rfl⟩
  | append_singleton ts t ih =>
    rw [connectAll_append] at he
    change connect (connectAll L ts) t k = some e at he
    by_cases hk : k = t.id
    · subst hk
      simp only [connect, Function.update_self, Option.some.injEq] at he
      exact .inl ⟨t, by simp, rfl, by simp [← he, Tx.entry, Entry.shape]⟩
    · rw [connect, Function.update_of_ne hk] at he
      have hsh := shape_setSlots (connectAll L ts) t.inputs (some t.mark) k
      rw [he, Option.map_some, eq_comm, Option.map_eq_some_iff] at hsh
      obtain ⟨e', he', hee⟩ := hsh
      rcases ih he' with ⟨u, hu, hid, hp⟩ | ⟨hall, e₀, he₀, hp⟩
      · exact .inl ⟨u, by simp [hu], hid, by rw [← hee, hp]⟩
      · refine .inr ⟨fun u hu => ?_, e₀, he₀, by rw [← hee, hp]⟩
        rcases List.mem_append.mp hu with hu | hu
        · exact hall u hu
        · rw [List.mem_singleton.mp hu]
          exact Ne.symm hk

/-! ## Taking back other transactions -/

/-- Transactions can be taken back, the last first: each finds the slots of its
inputs when its turn comes. -/
def GivesBack (L : Book K A P) : List (Tx K A P) → Prop
  | [] => True
  | t :: ts => GivesBack L ts ∧ ∀ o ∈ t.inputs, slot (disconnectAll L ts) o ≠ none

theorem disconnectAll_append (L : Book K A P) (ts us : List (Tx K A P)) :
    disconnectAll L (ts ++ us) = disconnectAll (disconnectAll L us) ts := List.foldr_append

theorem givesBack_append {L : Book K A P} {ts us : List (Tx K A P)} :
    GivesBack L (ts ++ us) ↔ GivesBack L us ∧ GivesBack (disconnectAll L us) ts := by
  induction ts with
  | nil => simp [GivesBack]
  | cons t ts ih => rw [List.cons_append, GivesBack, GivesBack, ih, disconnectAll_append, and_assoc]

/-- Connected transactions can be taken back. -/
theorem givesBack_connectAll {L : Book K A P} {ts : List (Tx K A P)} (h : OkAll L ts) :
    GivesBack (connectAll L ts) ts := by
  induction ts generalizing L with
  | nil => trivial
  | cons t ts ih =>
    refine ⟨ih h.2, fun o ho => ?_⟩
    rw [show connectAll L (t :: ts) = connectAll (connect L t) ts from rfl, disconnectAll_connectAll h.2,
      slot_input h.1 ho]
    exact Option.some_ne_none _

/-! ## The value of the unspent outputs -/

section Value

variable {M : Type} [AddCommGroup M]

/-- The value of the empty slots of a list, the first of which is output `n`. -/
def emptyValue (v : ℕ → M) : List (Option P) → ℕ → M
  | [], _ => 0
  | m :: ms, n => (if m.isNone then v n else 0) + emptyValue v ms (n + 1)

/-- The value of all empty slots of the records under `keys`. -/
def total (v : K → ℕ → M) (L : Book K A P) (keys : Finset K) : M :=
  ∑ h ∈ keys, (L h).elim 0 fun e => emptyValue (v h) e.spent 0

theorem emptyValue_set {v : ℕ → M} {ms : List (Option P)} {n k : ℕ} {p : P} (h : ms[n]? = some none) :
    emptyValue v (ms.set n (some p)) k = emptyValue v ms k - v (k + n) := by
  induction ms generalizing n k with
  | nil => simp at h
  | cons m ms ih =>
    cases n with
    | zero =>
      obtain rfl : m = none := by simpa using h
      simp [emptyValue]
    | succ n =>
      have hn : ms[n]? = some none := by simpa using h
      simp only [List.set_cons_succ, emptyValue, ih hn]
      rw [add_sub_assoc, show k + 1 + n = k + (n + 1) by omega]

theorem emptyValue_replicate (v : ℕ → M) (m k : ℕ) :
    emptyValue v (List.replicate m (none : Option P)) k = ((List.range' k m).map v).sum := by
  induction m generalizing k with
  | zero => rfl
  | succ m ih => simp [List.replicate_succ, emptyValue, List.range'_succ, ih]

theorem total_update {v : K → ℕ → M} {L : Book K A P} {keys : Finset K} {h : K} (hh : h ∈ keys)
    (e : Option (Entry A P)) :
    total v (Function.update L h e) keys =
      total v L keys - (L h).elim 0 (fun e => emptyValue (v h) e.spent 0)
        + e.elim 0 fun e => emptyValue (v h) e.spent 0 := by
  rw [total, total, ← Finset.add_sum_erase _ _ hh, ← Finset.add_sum_erase _ _ hh, Function.update_self,
    add_sub_cancel_left, add_comm]
  congr 1
  refine Finset.sum_congr rfl fun k hk => ?_
  rw [Function.update_of_ne (Finset.ne_of_mem_erase hk)]

theorem total_setSlot {v : K → ℕ → M} {L : Book K A P} {keys : Finset K} {o : K × ℕ} {p : P}
    (hu : Unspent L o) (hk : o.1 ∈ keys) :
    total v (setSlot L o (some p)) keys = total v L keys - v o.1 o.2 := by
  obtain ⟨e, he⟩ := Option.ne_none_iff_exists'.mp (isSome_of_slot hu)
  have hs : e.spent[o.2]? = some none := by simpa [Unspent, slot, he] using hu
  rw [setSlot, total_update hk, he]
  simp only [Option.map_some, Option.elim_some, emptyValue_set hs, zero_add]
  abel

theorem total_setSlots {v : K → ℕ → M} {L : Book K A P} {keys : Finset K} {os : List (K × ℕ)} {p : P}
    (hu : ∀ o ∈ os, Unspent L o) (hd : os.Nodup) (hk : ∀ o ∈ os, o.1 ∈ keys) :
    total v (setSlots L os (some p)) keys = total v L keys - (os.map fun o => v o.1 o.2).sum := by
  induction os generalizing L with
  | nil => simp [setSlots]
  | cons o os ih =>
    have ho := hu o (by simp)
    have hd' := List.nodup_cons.mp hd
    have hu' : ∀ o' ∈ os, Unspent (setSlot L o (some p)) o' := fun o' ho' => by
      have hne : o' ≠ o := fun he => hd'.1 (he ▸ ho')
      rw [Unspent, slot_setSlot, if_neg hne]
      exact hu o' (by simp [ho'])
    rw [setSlots, List.foldl_cons, ← setSlots, ih hu' hd'.2 fun o' ho' => hk o' (by simp [ho']),
      total_setSlot ho (hk o (by simp)), List.map_cons, List.sum_cons, sub_sub]

/-- **Connecting a transaction adds its outputs' value and takes its inputs'.** -/
theorem total_connect {v : K → ℕ → M} {L : Book K A P} {keys : Finset K} {t : Tx K A P} (h : Ok L t)
    (hid : t.id ∈ keys) (hk : ∀ o ∈ t.inputs, o.1 ∈ keys) :
    total v (connect L t) keys =
      total v L keys + ((List.range t.outputs).map (v t.id)).sum - (t.inputs.map fun o => v o.1 o.2).sum := by
  rw [connect, total_update hid, setSlots_eq_none.mpr h.fresh, total_setSlots h.unspent h.nodup hk]
  simp only [Option.elim_none, Option.elim_some, Tx.entry, emptyValue_replicate, List.range_eq_range', sub_zero]
  abel

omit [DecidableEq K] in
/-- The total does not depend on the keys, as long as they cover the ledger. -/
theorem total_eq_of_cover {v : K → ℕ → M} {L : Book K A P} {keys keys' : Finset K} (hs : keys ⊆ keys')
    (hc : ∀ h, L h ≠ none → h ∈ keys) : total v L keys' = total v L keys := by
  refine (Finset.sum_subset hs fun h _ hh => ?_).symm
  rw [show L h = none from by_contra fun hn => hh (hc h hn)]
  rfl

end Value

end Ledger
