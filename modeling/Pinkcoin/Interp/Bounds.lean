/-
The bounds of the script machine. Each opcode is typed by the depth of the
stack it needs, so that no access is out of range; what is pushed stays
small, and the counter of operations below its limit.
-/
import Mathlib.Logic.Relation
import Pinkcoin.Lib.Depth
import Pinkcoin.Interp.Machine

namespace Pinkcoin

open StateError Depth
open CScript (leBytes leNat vchSize length_leBytes)

/-! ## Sizes of numbers -/

theorem vchSize_le {n k : Nat} (h : n < 2 ^ (8 * k + 7)) : vchSize n ≤ k + 1 := by
  unfold vchSize
  split
  next => omega
  next hn =>
    have hlog : Nat.log2 n < 8 * k + 7 := (Nat.log2_lt hn).mpr h
    omega

theorem length_getvch (bn : Int) : (getvch bn).length = vchSize bn.natAbs := by
  rw [getvch, length_leBytes]

theorem length_getvch_le {bn : Int} (h : bn.natAbs < 2 ^ 71) : (getvch bn).length ≤ 33 := by
  rw [length_getvch]
  exact Nat.le_trans (vchSize_le (k := 8) h) (by decide)

/-- A number of four bytes has 32 bits. -/
theorem natAbs_setvch_lt {vch : Valtype} (h : vch.length ≤ 4) : (setvch vch).natAbs < 2 ^ 32 := by
  have hlt : leNat vch < 2 ^ 32 := by
    calc leNat vch
        _ < 256 ^ vch.length := leNat_lt vch
        _ ≤ 256 ^ 4 := Nat.pow_le_pow_right (by decide) h
        _ = 2 ^ 32 := by decide
  unfold setvch
  split
  next => decide
  next => split <;> omega

theorem natAbs_ofBool_le (b : Bool) : (Machine.ofBool b).natAbs ≤ 1 := by
  cases b <;> decide

/-! ## The discipline of the machine -/

namespace Machine

/-- The log goes on with events of a kind. -/
def Noted (Q : Event → Prop) (s s' : Machine) : Prop :=
  ∃ events, s'.log = s.log ++ events ∧ ∀ event ∈ events, Q event

/-- An instruction is executed where the script stands, with events of a
kind, and the counter of operations stays below its limit. -/
structure Going (Q : Event → Prop) (s s' : Machine) : Prop where
  pc : s'.pc = s.pc
  log : Noted Q s s'
  grows : s.nOpCount ≤ s'.nOpCount
  limit : s.nOpCount ≤ 201 → s'.nOpCount ≤ 201

variable {Q : Event → Prop} {s t u : Machine} {n k i : Nat} {vch : Valtype}

theorem Noted.refl (s : Machine) : Noted Q s s := ⟨[], (List.append_nil s.log).symm, fun _ h => nomatch h⟩

theorem Noted.trans (h : Noted Q s t) (h' : Noted Q t u) : Noted Q s u := by
  obtain ⟨events, hlog, hQ⟩ := h
  obtain ⟨events', hlog', hQ'⟩ := h'
  refine ⟨events ++ events', ?_, ?_⟩
  · rw [hlog', hlog, List.append_assoc]
  · intro event hevent
    rcases List.mem_append.mp hevent with hevent | hevent
    · exact hQ event hevent
    · exact hQ' event hevent

theorem Going.refl (s : Machine) : Going Q s s := ⟨rfl, .refl s, Nat.le_refl _, id⟩

theorem Going.trans (h : Going Q s t) (h' : Going Q t u) : Going Q s u where
  pc := h'.pc.trans h.pc
  log := h.log.trans h'.log
  grows := Nat.le_trans h.grows h'.grows
  limit := fun hs => h'.limit (h.limit hs)

/-- The discipline: an access out of range is a fault. -/
def discipline (Q : Event → Prop) : Discipline EvalStop Machine where
  depth s := s.stack.length
  Fault e := e = .outOfRange
  Goes := Going Q
  Stops := Noted Q
  refl := .refl
  trans := .trans
  stops := Going.log
  trans_stops h h' := h.log.trans h'

theorem not_fault_refused : ¬ (discipline Q).Fault .refused := by
  intro h
  cases h

theorem not_fault_overflow : ¬ (discipline Q).Fault .overflow := by
  intro h
  cases h

/-- Only the stack has changed. -/
theorem going_stack (s : Machine) (stack : List Valtype) : Going Q s { s with stack := stack } :=
  ⟨rfl, .refl s, Nat.le_refl _, id⟩

/-! ## Programs run on a machine -/

theorem bind_run {α β : Type} (x : EvalM α) (f : α → EvalM β) (s : Machine) :
    (x >>= f) s = match x s with
      | .ok a t => f a t
      | .error e t => .error e t := by
  simp only [bind, EStateM.bind]
  cases x s with
  | ok a t => rfl
  | error e t => rfl

theorem get_run (s : Machine) : (get : EvalM Machine) s = .ok s s := rfl

theorem set_run (s t : Machine) : (set t : EvalM PUnit) s = .ok () t := rfl

theorem rejectIf_run (c : Prop) [Decidable c] (e : EvalStop) (s : Machine) :
    (rejectIf c e : EvalM Unit) s = if c then .error e s else .ok () s := by
  unfold rejectIf
  split <;> rfl

theorem count_run (n : Nat) (s : Machine) : count n s =
    if 201 < s.nOpCount + n then .error .refused { s with nOpCount := s.nOpCount + n }
    else .ok () { s with nOpCount := s.nOpCount + n } := by
  have hrun : count n s = (rejectIf (201 < s.nOpCount + n) EvalStop.refused : EvalM Unit)
      { s with nOpCount := s.nOpCount + n } := rfl
  rw [hrun, rejectIf_run]

/-! ## The stack -/

theorem uses_needs (k : Nat) : Uses (discipline Q) n k Any (needs k) := by
  have hneeds : needs k = get >>= fun s : Machine =>
      rejectIf (s.stack.length < k) EvalStop.refused >>= fun _ => pure () := by
    simp [needs]
  rw [hneeds]
  refine uses_guard not_fault_refused (fun s hs => Nat.le_of_not_lt hs) fun _ _ => ?_
  exact uses_pure trivial

theorem uses_stacktop (h₁ : 1 ≤ i) (h₂ : i ≤ n) : Uses (discipline Q) n n Any (stacktop i) := by
  intro s hs
  have hlt : i - 1 < s.stack.length := by
    have hdepth : n ≤ s.stack.length := hs
    omega
  have hi : i ≠ 0 := by omega
  have hrun : stacktop i s = .ok s.stack[i - 1] s := by
    simp [stacktop, bind_run, get_run, hlt, hi, pure, EStateM.pure]
  rw [hrun]
  exact ⟨hs, trivial, .refl s⟩

theorem uses_popstack : Uses (discipline Q) (n + 1) n Any popstack := by
  intro s hs
  cases hstack : s.stack with
  | nil =>
    have hdepth : n + 1 ≤ s.stack.length := hs
    simp [hstack] at hdepth
  | cons vch stack =>
    have hrun : popstack s = .ok () { s with stack := stack } := by
      simp [popstack, bind_run, get_run, hstack, set_run]
    have hdepth : n + 1 ≤ s.stack.length := hs
    rw [hstack, List.length_cons] at hdepth
    rw [hrun]
    exact ⟨Nat.le_of_succ_le_succ hdepth, trivial, going_stack s stack⟩

theorem uses_push (vch : Valtype) : Uses (discipline Q) n (n + 1) Any (push vch) := by
  intro s hs
  exact ⟨Nat.succ_le_succ hs, trivial, going_stack s _⟩

theorem uses_assign (h₁ : 1 ≤ i) (h₂ : i ≤ n) : Uses (discipline Q) n n Any (assign i vch) := by
  intro s hs
  have hdepth : n ≤ s.stack.length := hs
  have hin : ¬ (i = 0 ∨ s.stack.length < i) := by omega
  have hrun : assign i vch s = .ok () { s with stack := s.stack.set (i - 1) vch } := by
    simp [assign, bind_run, get_run, hin, set_run]
  rw [hrun]
  refine ⟨?_, trivial, going_stack s _⟩
  change n ≤ (s.stack.set (i - 1) vch).length
  rw [List.length_set]
  exact hdepth

theorem uses_erase (h₁ : 1 ≤ i) (h₂ : i ≤ n + 1) : Uses (discipline Q) (n + 1) n Any (erase i) := by
  intro s hs
  have hdepth : n + 1 ≤ s.stack.length := hs
  have hin : ¬ (i = 0 ∨ s.stack.length < i) := by omega
  have hrun : erase i s = .ok () { s with stack := s.stack.eraseIdx (i - 1) } := by
    simp [erase, bind_run, get_run, hin, set_run]
  rw [hrun]
  refine ⟨?_, trivial, going_stack s _⟩
  change n ≤ (s.stack.eraseIdx (i - 1)).length
  rw [List.length_eraseIdx]
  split <;> omega

theorem uses_insert (h : i ≤ n) : Uses (discipline Q) n (n + 1) Any (insert i vch) := by
  intro s hs
  have hdepth : n ≤ s.stack.length := hs
  have hin : ¬ s.stack.length < i := by omega
  have hrun : insert i vch s = .ok () { s with stack := s.stack.insertIdx i vch } := by
    simp [insert, bind_run, get_run, hin, set_run]
  rw [hrun]
  refine ⟨?_, trivial, going_stack s _⟩
  change n + 1 ≤ (s.stack.insertIdx i vch).length
  rw [List.length_insertIdx]
  split <;> omega

theorem uses_swap {i j : Nat} (hi : 1 ≤ i ∧ i ≤ n) (hj : 1 ≤ j ∧ j ≤ n) : Uses (discipline Q) n n Any (swap i j) := by
  refine uses_bind (uses_stacktop hi.1 hi.2) fun vch1 _ => ?_
  refine uses_bind (uses_stacktop hj.1 hj.2) fun vch2 _ => ?_
  exact uses_bind (uses_assign hi.1 hi.2) fun _ _ => uses_assign hj.1 hj.2

theorem uses_note {event : Event} (h : Q event) : Uses (discipline Q) n n Any (note event) := by
  refine uses_modify (fun _ => rfl) fun s => ⟨rfl, ⟨[event], rfl, ?_⟩, Nat.le_refl _, id⟩
  intro e he
  rw [List.mem_singleton.mp he]
  exact h

theorem uses_verifyTop (fValue : Bool) : Uses (discipline Q) (n + 1) n Any (verifyTop fValue) :=
  uses_ite (fun _ => uses_popstack) fun _ => uses_throw not_fault_refused

theorem uses_castToBigNum (vch : Valtype) :
    Uses (discipline Q) n n (fun bn => bn.natAbs < 2 ^ 32) (castToBigNum vch) := by
  refine uses_bind (uses_rejectIf not_fault_overflow) fun _ hsize => ?_
  exact uses_pure (natAbs_setvch_lt (Nat.le_of_not_lt hsize))

/-- The counter is checked at once. -/
theorem uses_count (k : Nat) : Uses (discipline Q) n n Any (count k) := by
  intro s hs
  rw [count_run]
  by_cases hlimit : 201 < s.nOpCount + k
  · rw [if_pos hlimit]
    exact ⟨not_fault_refused, .refl s⟩
  · rw [if_neg hlimit]
    exact ⟨hs, trivial, rfl, .refl s, Nat.le_add_right _ _, fun _ => Nat.le_of_not_lt hlimit⟩

/-! ## The opcodes -/

/-- Events of every size the machine makes, apart from the calls of `CheckSig`. -/
structure Small (Q : Event → Prop) : Prop where
  constant : ∀ vch, vch.length ≤ MAX_SCRIPT_ELEMENT_SIZE → Q (.constant vch)
  result : ∀ vch, vch.length ≤ 33 → Q (.result vch)

theorem uses_pushConstant (hQ : Small Q) (h : vch.length ≤ MAX_SCRIPT_ELEMENT_SIZE) :
    Uses (discipline Q) n (n + 1) Any (pushConstant vch) :=
  uses_bind (uses_note (hQ.constant vch h)) fun _ _ => uses_push vch

theorem uses_pushResult (hQ : Small Q) (h : vch.length ≤ 33) : Uses (discipline Q) n (n + 1) Any (pushResult vch) :=
  uses_bind (uses_note (hQ.result vch h)) fun _ _ => uses_push vch

theorem length_bool_le (b : Prop) [Decidable b] : (if b then vchTrue else vchFalse).length ≤ 33 := by
  split <;> decide

/-- Control. -/
theorem uses_opIf (fExec fNot : Bool) : Uses (discipline Q) 0 0 Any (opIf fExec fNot) := by
  refine uses_ite (fun _ => ?_) fun _ => uses_modify (fun _ => rfl) fun s => ⟨rfl, .refl s, Nat.le_refl _, id⟩
  refine uses_bind (uses_needs 1) fun _ _ => ?_
  refine uses_bind (uses_stacktop (Nat.le_refl 1) (Nat.le_refl 1)) fun vch _ => ?_
  refine uses_bind uses_popstack fun _ _ => ?_
  exact uses_modify (fun _ => rfl) fun s => ⟨rfl, .refl s, Nat.le_refl _, id⟩

theorem uses_opElse : Uses (discipline Q) 0 0 Any opElse := by
  intro s hs
  unfold opElse
  cases hexec : s.vfExec with
  | nil =>
    simp only [bind_run, get_run, hexec]
    exact ⟨not_fault_refused, .refl s⟩
  | cons f vfExec =>
    simp only [bind_run, get_run, hexec]
    exact ⟨hs, trivial, rfl, .refl s, Nat.le_refl _, id⟩

theorem uses_opEndIf : Uses (discipline Q) 0 0 Any opEndIf := by
  intro s hs
  unfold opEndIf
  cases hexec : s.vfExec with
  | nil =>
    simp only [bind_run, get_run, hexec]
    exact ⟨not_fault_refused, .refl s⟩
  | cons f vfExec =>
    simp only [bind_run, get_run, hexec]
    exact ⟨hs, trivial, rfl, .refl s, Nat.le_refl _, id⟩

theorem uses_opVerify : Uses (discipline Q) 0 0 Any opVerify := by
  refine uses_bind (uses_needs 1) fun _ _ => ?_
  refine uses_bind (uses_stacktop (Nat.le_refl 1) (Nat.le_refl 1)) fun vch _ => ?_
  exact uses_verifyTop _

theorem uses_opToAltStack : Uses (discipline Q) 0 0 Any opToAltStack := by
  refine uses_bind (uses_needs 1) fun _ _ => ?_
  refine uses_bind (uses_stacktop (Nat.le_refl 1) (Nat.le_refl 1)) fun vch _ => ?_
  refine uses_bind (uses_modify (fun _ => rfl) fun s => ⟨rfl, .refl s, Nat.le_refl _, id⟩) fun _ _ => ?_
  exact uses_popstack

/-- The other stack is looked at after its size is. -/
theorem uses_opFromAltStack : Uses (discipline Q) 0 0 Any opFromAltStack := by
  intro s hs
  cases halt : s.altstack with
  | nil =>
    have hrun : opFromAltStack s = .error .refused s := by
      simp [opFromAltStack, bind_run, get_run, rejectIf_run, halt]
    rw [hrun]
    exact ⟨not_fault_refused, .refl s⟩
  | cons vch altstack =>
    have hrun : opFromAltStack s = .ok () { s with stack := vch :: s.stack, altstack := altstack } := by
      simp [opFromAltStack, altstacktop, popAltStack, push, bind_run, get_run, set_run, rejectIf_run, halt, modify_run, pure, EStateM.pure]
    rw [hrun]
    exact ⟨Nat.zero_le _, trivial, rfl, .refl s, Nat.le_refl _, id⟩

theorem uses_op2Drop : Uses (discipline Q) 0 0 Any op2Drop := by
  refine uses_bind (uses_needs 2) fun _ _ => ?_
  exact uses_bind uses_popstack fun _ _ => uses_popstack

theorem uses_op2Dup : Uses (discipline Q) 0 4 Any op2Dup := by
  refine uses_bind (uses_needs 2) fun _ _ => ?_
  refine uses_bind (uses_stacktop (by decide) (by decide)) fun vch1 _ => ?_
  refine uses_bind (uses_stacktop (by decide) (by decide)) fun vch2 _ => ?_
  exact uses_bind (uses_push vch1) fun _ _ => uses_push vch2

theorem uses_op3Dup : Uses (discipline Q) 0 6 Any op3Dup := by
  refine uses_bind (uses_needs 3) fun _ _ => ?_
  refine uses_bind (uses_stacktop (by decide) (by decide)) fun vch1 _ => ?_
  refine uses_bind (uses_stacktop (by decide) (by decide)) fun vch2 _ => ?_
  refine uses_bind (uses_stacktop (by decide) (by decide)) fun vch3 _ => ?_
  exact uses_bind (uses_push vch1) fun _ _ => uses_bind (uses_push vch2) fun _ _ => uses_push vch3

theorem uses_op2Over : Uses (discipline Q) 0 6 Any op2Over := by
  refine uses_bind (uses_needs 4) fun _ _ => ?_
  refine uses_bind (uses_stacktop (by decide) (by decide)) fun vch1 _ => ?_
  refine uses_bind (uses_stacktop (by decide) (by decide)) fun vch2 _ => ?_
  exact uses_bind (uses_push vch1) fun _ _ => uses_push vch2

theorem uses_op2Rot : Uses (discipline Q) 0 6 Any op2Rot := by
  refine uses_bind (uses_needs 6) fun _ _ => ?_
  refine uses_bind (uses_stacktop (by decide) (by decide)) fun vch1 _ => ?_
  refine uses_bind (uses_stacktop (by decide) (by decide)) fun vch2 _ => ?_
  refine uses_bind (uses_erase (by decide) (by decide)) fun _ _ => ?_
  refine uses_bind (uses_erase (by decide) (by decide)) fun _ _ => ?_
  exact uses_bind (uses_push vch1) fun _ _ => uses_push vch2

theorem uses_op2Swap : Uses (discipline Q) 0 4 Any op2Swap := by
  refine uses_bind (uses_needs 4) fun _ _ => ?_
  exact uses_bind (uses_swap (by decide) (by decide)) fun _ _ => uses_swap (by decide) (by decide)

theorem uses_opIfDup : Uses (discipline Q) 0 1 Any opIfDup := by
  refine uses_bind (uses_needs 1) fun _ _ => ?_
  refine uses_bind (uses_stacktop (by decide) (by decide)) fun vch _ => ?_
  refine uses_ite (fun _ => ?_) fun _ => uses_pure trivial
  exact (uses_push vch).mono (Nat.le_refl 1) (by decide) fun _ h => h

theorem uses_opDrop : Uses (discipline Q) 0 0 Any opDrop :=
  uses_bind (uses_needs 1) fun _ _ => uses_popstack

theorem uses_opDup : Uses (discipline Q) 0 2 Any opDup := by
  refine uses_bind (uses_needs 1) fun _ _ => ?_
  exact uses_bind (uses_stacktop (by decide) (by decide)) fun vch _ => uses_push vch

theorem uses_opNip : Uses (discipline Q) 0 1 Any opNip :=
  uses_bind (uses_needs 2) fun _ _ => uses_erase (by decide) (by decide)

theorem uses_opOver : Uses (discipline Q) 0 3 Any opOver := by
  refine uses_bind (uses_needs 2) fun _ _ => ?_
  exact uses_bind (uses_stacktop (by decide) (by decide)) fun vch _ => uses_push vch

/-- The number picked from the stack is checked against what is left of it. -/
theorem uses_opPick (fRoll : Bool) : Uses (discipline Q) 0 1 Any (opPick fRoll) := by
  refine uses_bind (uses_needs 2) fun _ _ => ?_
  refine uses_bind (uses_stacktop (by decide) (by decide)) fun vch _ => ?_
  refine uses_bind (uses_castToBigNum vch) fun bn _ => ?_
  refine uses_bind uses_popstack fun _ _ => ?_
  refine @uses_guard _ _ _ _ _ ((getint bn).toNat + 1) _ _ _ _ _ _ not_fault_refused ?_ fun s _ => ?_
  · intro s hs
    change (getint bn).toNat + 1 ≤ s.stack.length
    omega
  · refine uses_bind (uses_stacktop (Nat.succ_pos _) (Nat.le_refl _)) fun vch _ => ?_
    cases fRoll with
    | false =>
      simp only [Bool.false_eq_true, if_false]
      exact (uses_push vch).mono (Nat.le_refl _) (Nat.le_add_left 1 _) fun _ h => h
    | true =>
      simp only [if_true]
      refine uses_bind (uses_erase (Nat.succ_pos _) (Nat.le_refl _)) fun _ _ => ?_
      exact (uses_push vch).mono (Nat.le_refl _) (Nat.le_add_left 1 _) fun _ h => h

theorem uses_opRot : Uses (discipline Q) 0 3 Any opRot := by
  refine uses_bind (uses_needs 3) fun _ _ => ?_
  exact uses_bind (uses_swap (by decide) (by decide)) fun _ _ => uses_swap (by decide) (by decide)

theorem uses_opSwap : Uses (discipline Q) 0 2 Any opSwap :=
  uses_bind (uses_needs 2) fun _ _ => uses_swap (by decide) (by decide)

theorem uses_opTuck : Uses (discipline Q) 0 3 Any opTuck := by
  refine uses_bind (uses_needs 2) fun _ _ => ?_
  exact uses_bind (uses_stacktop (by decide) (by decide)) fun vch _ => uses_insert (Nat.le_refl 2)

theorem uses_opDepth (hQ : Small Q) : Uses (discipline Q) 0 1 Any opDepth := by
  refine uses_get fun s => uses_pushResult hQ (length_getvch_le ?_)
  rw [Int.natAbs_natCast]
  exact Nat.lt_of_lt_of_le (Nat.mod_lt _ (by decide)) (by decide)

theorem uses_opSize (hQ : Small Q) : Uses (discipline Q) 0 2 Any opSize := by
  refine uses_bind (uses_needs 1) fun _ _ => ?_
  refine uses_bind (uses_stacktop (by decide) (by decide)) fun vch _ => uses_pushResult hQ (length_getvch_le ?_)
  rw [Int.natAbs_natCast]
  exact Nat.lt_of_lt_of_le (Nat.mod_lt _ (by decide)) (by decide)

theorem uses_opEqual (hQ : Small Q) (fVerify : Bool) : Uses (discipline Q) 0 0 Any (opEqual fVerify) := by
  refine uses_bind (uses_needs 2) fun _ _ => ?_
  refine uses_bind (uses_stacktop (by decide) (by decide)) fun vch1 _ => ?_
  refine uses_bind (uses_stacktop (by decide) (by decide)) fun vch2 _ => ?_
  refine uses_bind uses_popstack fun _ _ => ?_
  refine uses_bind uses_popstack fun _ _ => ?_
  refine uses_bind (uses_pushResult hQ (length_bool_le _)) fun _ _ => ?_
  refine uses_ite (fun _ => uses_verifyTop _) fun _ => ?_
  exact (uses_pure trivial).mono (Nat.le_refl 1) (Nat.zero_le 1) fun _ h => h

/-- A number computed from one of 32 bits. -/
theorem uses_opUnary (hQ : Small Q) {f : Int → Int} (hf : ∀ bn : Int, bn.natAbs < 2 ^ 32 → (f bn).natAbs < 2 ^ 71) :
    Uses (discipline Q) 0 1 Any (opUnary f) := by
  refine uses_bind (uses_needs 1) fun _ _ => ?_
  refine uses_bind (uses_stacktop (by decide) (by decide)) fun vch _ => ?_
  refine uses_bind (uses_castToBigNum vch) fun bn hbn => ?_
  exact uses_bind uses_popstack fun _ _ => uses_pushResult hQ (length_getvch_le (hf bn hbn))

/-- A number computed from two of 32 bits. -/
theorem uses_opBinary (hQ : Small Q) {f : Int → Int → Int}
    (hf : ∀ bn1 bn2 : Int, bn1.natAbs < 2 ^ 32 → bn2.natAbs < 2 ^ 32 → (f bn1 bn2).natAbs < 2 ^ 71) :
    Uses (discipline Q) 0 1 Any (opBinary f) := by
  refine uses_bind (uses_needs 2) fun _ _ => ?_
  refine uses_bind (uses_stacktop (by decide) (by decide)) fun vch1 _ => ?_
  refine uses_bind (uses_castToBigNum vch1) fun bn1 hbn1 => ?_
  refine uses_bind (uses_stacktop (by decide) (by decide)) fun vch2 _ => ?_
  refine uses_bind (uses_castToBigNum vch2) fun bn2 hbn2 => ?_
  refine uses_bind uses_popstack fun _ _ => ?_
  exact uses_bind uses_popstack fun _ _ => uses_pushResult hQ (length_getvch_le (hf bn1 bn2 hbn1 hbn2))

theorem natAbs_ofBool_lt (b : Bool) : (ofBool b).natAbs < 2 ^ 71 :=
  Nat.lt_of_le_of_lt (natAbs_ofBool_le b) (by decide)

theorem uses_opNumEqualVerify (hQ : Small Q) : Uses (discipline Q) 0 0 Any opNumEqualVerify := by
  refine uses_bind (uses_opBinary hQ fun _ _ _ _ => natAbs_ofBool_lt _) fun _ _ => ?_
  exact uses_bind (uses_stacktop (by decide) (by decide)) fun vch _ => uses_verifyTop _

theorem uses_opWithin (hQ : Small Q) : Uses (discipline Q) 0 1 Any opWithin := by
  refine uses_bind (uses_needs 3) fun _ _ => ?_
  refine uses_bind (uses_stacktop (by decide) (by decide)) fun vch1 _ => ?_
  refine uses_bind (uses_castToBigNum vch1) fun bn1 _ => ?_
  refine uses_bind (uses_stacktop (by decide) (by decide)) fun vch2 _ => ?_
  refine uses_bind (uses_castToBigNum vch2) fun bn2 _ => ?_
  refine uses_bind (uses_stacktop (by decide) (by decide)) fun vch3 _ => ?_
  refine uses_bind (uses_castToBigNum vch3) fun bn3 _ => ?_
  refine uses_bind uses_popstack fun _ _ => ?_
  refine uses_bind uses_popstack fun _ _ => ?_
  exact uses_bind uses_popstack fun _ _ => uses_pushResult hQ (length_bool_le _)

theorem uses_opHash (hQ : Small Q) {m : Nat} (hash : List UInt8 → List.Vector UInt8 m) (hm : m ≤ 33) :
    Uses (discipline Q) 0 1 Any (opHash hash) := by
  refine uses_bind (uses_needs 1) fun _ _ => ?_
  refine uses_bind (uses_stacktop (by decide) (by decide)) fun vch _ => ?_
  refine uses_bind uses_popstack fun _ _ => uses_pushResult hQ ?_
  rw [List.Vector.toList_length]
  exact hm

/-! ## Signatures -/

section

variable {P : ScriptParams} {ctx : SigContext} {scriptCode : CScript}

/-- The calls of `CheckSig` are among the events. -/
def Signs (Q : Event → Prop) : Prop := ∀ vchSig vchPubKey scriptCode, Q (.checkSig vchSig vchPubKey scriptCode)

theorem uses_checkOne (hS : Signs Q) (vchSig vchPubKey : Valtype) :
    Uses (discipline Q) n n Any (checkOne P ctx vchSig vchPubKey scriptCode) := by
  refine uses_ite (fun _ => ?_) fun _ => uses_pure trivial
  exact uses_bind (uses_note (hS _ _ _)) fun _ _ => uses_pure trivial

theorem uses_opCheckSig (hQ : Small Q) (hS : Signs Q) (fVerify : Bool) :
    Uses (discipline Q) 0 0 Any (opCheckSig P ctx fVerify) := by
  refine uses_bind (uses_needs 2) fun _ _ => ?_
  refine uses_bind (uses_stacktop (by decide) (by decide)) fun vchSig _ => ?_
  refine uses_bind (uses_stacktop (by decide) (by decide)) fun vchPubKey _ => ?_
  refine uses_get fun s => ?_
  refine uses_bind (uses_checkOne hS vchSig vchPubKey) fun fSuccess _ => ?_
  refine uses_bind uses_popstack fun _ _ => ?_
  refine uses_bind uses_popstack fun _ _ => ?_
  refine uses_bind (uses_pushResult hQ (length_bool_le _)) fun _ _ => ?_
  refine uses_ite (fun _ => uses_verifyTop _) fun _ => ?_
  exact (uses_pure trivial).mono (Nat.le_refl 1) (Nat.zero_le 1) fun _ h => h

theorem uses_dropSignatures {isig : Nat} (h₁ : 1 ≤ isig) (h₂ : isig + k ≤ n + 1) :
    Uses (discipline Q) n n Any (dropSignatures k isig scriptCode) := by
  induction k generalizing isig scriptCode with
  | zero => exact uses_pure trivial
  | succ k ih =>
    refine uses_bind (uses_stacktop h₁ (by omega)) fun vchSig _ => ?_
    exact ih (Nat.le_succ_of_le h₁) (by omega)

/-- The loop reads below the signatures and the keys that are left. -/
theorem uses_checkMultiSigLoop (hS : Signs Q) {nKeysCount nSigsCount isig ikey : Nat} (hsig : 1 ≤ isig)
    (hsigs : isig + nSigsCount ≤ n + 1) (hkey : 1 ≤ ikey) (hkeys : ikey + nKeysCount ≤ n + 1) :
    Uses (discipline Q) n n Any (checkMultiSigLoop P ctx scriptCode nKeysCount nSigsCount isig ikey) := by
  induction nKeysCount generalizing nSigsCount isig ikey with
  | zero =>
    cases nSigsCount with
    | zero => exact uses_pure trivial
    | succ nSigsCount => exact uses_pure trivial
  | succ nKeysCount ih =>
    cases nSigsCount with
    | zero => exact uses_pure trivial
    | succ nSigsCount =>
      refine uses_bind (uses_stacktop hsig (by omega)) fun vchSig _ => ?_
      refine uses_bind (uses_stacktop hkey (by omega)) fun vchPubKey _ => ?_
      refine uses_bind (uses_checkOne hS vchSig vchPubKey) fun fOk _ => ?_
      refine uses_ite (fun _ => uses_pure trivial) fun _ => ?_
      cases fOk with
      | true => exact ih (Nat.le_succ_of_le hsig) (by simp; omega) (Nat.le_succ_of_le hkey) (by omega)
      | false => exact ih hsig (by simp; omega) (Nat.le_succ_of_le hkey) (by omega)

theorem uses_popMany : Uses (discipline Q) (n + k) n Any (popMany k) := by
  induction k with
  | zero => exact uses_pure trivial
  | succ k ih => exact uses_bind uses_popstack fun _ _ => ih

theorem uses_readCount {nMax : Int} (h : 1 ≤ i) :
    Uses (discipline Q) n i (fun m : Nat => (m : Int) ≤ nMax) (readCount i nMax) := by
  refine uses_bind (uses_needs i) fun _ _ => ?_
  refine uses_bind (uses_stacktop h (Nat.le_refl i)) fun vch _ => ?_
  refine uses_bind (uses_castToBigNum vch) fun bn _ => ?_
  refine uses_bind (uses_rejectIf not_fault_refused) fun _ hrange => uses_pure ?_
  omega

theorem uses_opCheckMultiSig (hQ : Small Q) (hS : Signs Q) (fVerify : Bool) :
    Uses (discipline Q) 0 0 Any (opCheckMultiSig P ctx fVerify) := by
  refine uses_bind (uses_readCount (Nat.le_refl 1)) fun nKeysCount _ => ?_
  refine uses_bind (uses_count nKeysCount) fun _ _ => ?_
  refine uses_bind (uses_readCount (by omega)) fun nSigsCount _ => ?_
  refine uses_bind (uses_needs (3 + nKeysCount + nSigsCount)) fun _ _ => ?_
  refine uses_get fun s => ?_
  refine uses_bind (uses_dropSignatures (by omega) (by omega)) fun scriptCode _ => ?_
  refine uses_bind (uses_checkMultiSigLoop hS (by omega) (by omega) (by omega) (by omega)) fun fSuccess _ => ?_
  have hpop : Uses (discipline Q) (3 + nKeysCount + nSigsCount) 0 Any (popMany (3 + nKeysCount + nSigsCount)) :=
    uses_popMany.mono (Nat.le_of_eq (Nat.zero_add _)) (Nat.le_refl 0) fun _ h => h
  refine uses_bind hpop fun _ _ => ?_
  refine uses_bind (uses_pushResult hQ (length_bool_le _)) fun _ _ => ?_
  refine uses_ite (fun _ => uses_verifyTop _) fun _ => ?_
  exact (uses_pure trivial).mono (Nat.le_refl 1) (Nat.zero_le 1) fun _ h => h

/-! ## Instructions -/

end

end Machine

/-- The opcodes that call `CheckSig`. -/
def Opcode.Signs (op : Opcode) : Prop :=
  op = .OP_CHECKSIG ∨ op = .OP_CHECKSIGVERIFY ∨ op = .OP_CHECKMULTISIG ∨ op = .OP_CHECKMULTISIGVERIFY

theorem Opcode.ofNat_number {opcode : Nat} {n : Int} (h : Opcode.ofNat opcode = .number n) : n.natAbs ≤ 16 := by
  unfold Opcode.ofNat at h
  split at h
  next hrange =>
    cases h
    simp only [OP_1NEGATE, CScript.OP_16, CScript.OP_1] at hrange ⊢
    omega
  next =>
    have hnone : ∀ p ∈ opcodes, ∀ n, p.2 ≠ Opcode.number n := by
      simp [opcodes]
    cases hlook : opcodes.lookup opcode with
    | none =>
      rw [hlook] at h
      cases h
    | some op =>
      rw [hlook] at h
      obtain ⟨l, _, hsplit, -⟩ := List.lookup_eq_some_iff.mp hlook
      refine absurd h (hnone (opcode, op) ?_ n)
      rw [hsplit]
      simp

namespace Machine

section

variable {Q : Event → Prop} {P : ScriptParams} {ctx : SigContext}

/-- **Every opcode keeps within the stack.** -/
theorem uses_execOp (hQ : Small Q) {op : Opcode} (fExec : Bool) (hS : op.Signs → Signs Q) (hop : op ≠ .disabled)
    (hnumber : ∀ n, op = .number n → n.natAbs ≤ 16) : Uses (discipline Q) 0 0 Any (execOp P ctx fExec op) := by
  have hmono : ∀ {m : Nat} {x : EvalM Unit}, Uses (discipline Q) 0 m Any x → Uses (discipline Q) 0 0 Any x :=
    fun h => h.mono (Nat.le_refl 0) (Nat.zero_le _) fun _ h => h
  cases op with
  | number n =>
    have hsmall : (getvch n).length ≤ 33 := length_getvch_le (Nat.lt_of_le_of_lt (hnumber n rfl) (by decide))
    exact hmono (uses_pushConstant hQ (Nat.le_trans hsmall (by decide)))
  | OP_NOP => exact uses_pure trivial
  | OP_IF => exact uses_opIf fExec false
  | OP_NOTIF => exact uses_opIf fExec true
  | OP_ELSE => exact uses_opElse
  | OP_ENDIF => exact uses_opEndIf
  | OP_VERIFY => exact uses_opVerify
  | OP_RETURN => exact uses_throw not_fault_refused
  | OP_TOALTSTACK => exact uses_opToAltStack
  | OP_FROMALTSTACK => exact uses_opFromAltStack
  | OP_2DROP => exact uses_op2Drop
  | OP_2DUP => exact hmono uses_op2Dup
  | OP_3DUP => exact hmono uses_op3Dup
  | OP_2OVER => exact hmono uses_op2Over
  | OP_2ROT => exact hmono uses_op2Rot
  | OP_2SWAP => exact hmono uses_op2Swap
  | OP_IFDUP => exact hmono uses_opIfDup
  | OP_DEPTH => exact hmono (uses_opDepth hQ)
  | OP_DROP => exact uses_opDrop
  | OP_DUP => exact hmono uses_opDup
  | OP_NIP => exact hmono uses_opNip
  | OP_OVER => exact hmono uses_opOver
  | OP_PICK => exact hmono (uses_opPick false)
  | OP_ROLL => exact hmono (uses_opPick true)
  | OP_ROT => exact hmono uses_opRot
  | OP_SWAP => exact hmono uses_opSwap
  | OP_TUCK => exact hmono uses_opTuck
  | OP_SIZE => exact hmono (uses_opSize hQ)
  | OP_EQUAL => exact uses_opEqual hQ false
  | OP_EQUALVERIFY => exact uses_opEqual hQ true
  | OP_1ADD => exact hmono (uses_opUnary hQ fun bn _ => by omega)
  | OP_1SUB => exact hmono (uses_opUnary hQ fun bn _ => by omega)
  | OP_NEGATE => exact hmono (uses_opUnary hQ fun bn _ => by omega)
  | OP_ABS => exact hmono (uses_opUnary hQ fun bn _ => by split <;> omega)
  | OP_NOT => exact hmono (uses_opUnary hQ fun _ _ => natAbs_ofBool_lt _)
  | OP_0NOTEQUAL => exact hmono (uses_opUnary hQ fun _ _ => natAbs_ofBool_lt _)
  | OP_ADD => exact hmono (uses_opBinary hQ fun bn1 bn2 _ _ => by omega)
  | OP_SUB => exact hmono (uses_opBinary hQ fun bn1 bn2 _ _ => by omega)
  | OP_BOOLAND => exact hmono (uses_opBinary hQ fun _ _ _ _ => natAbs_ofBool_lt _)
  | OP_BOOLOR => exact hmono (uses_opBinary hQ fun _ _ _ _ => natAbs_ofBool_lt _)
  | OP_NUMEQUAL => exact hmono (uses_opBinary hQ fun _ _ _ _ => natAbs_ofBool_lt _)
  | OP_NUMEQUALVERIFY => exact uses_opNumEqualVerify hQ
  | OP_NUMNOTEQUAL => exact hmono (uses_opBinary hQ fun _ _ _ _ => natAbs_ofBool_lt _)
  | OP_LESSTHAN => exact hmono (uses_opBinary hQ fun _ _ _ _ => natAbs_ofBool_lt _)
  | OP_GREATERTHAN => exact hmono (uses_opBinary hQ fun _ _ _ _ => natAbs_ofBool_lt _)
  | OP_LESSTHANOREQUAL => exact hmono (uses_opBinary hQ fun _ _ _ _ => natAbs_ofBool_lt _)
  | OP_GREATERTHANOREQUAL => exact hmono (uses_opBinary hQ fun _ _ _ _ => natAbs_ofBool_lt _)
  | OP_MIN => exact hmono (uses_opBinary hQ fun bn1 bn2 _ _ => by split <;> omega)
  | OP_MAX => exact hmono (uses_opBinary hQ fun bn1 bn2 _ _ => by split <;> omega)
  | OP_WITHIN => exact hmono (uses_opWithin hQ)
  | OP_RIPEMD160 => exact hmono (uses_opHash hQ P.RIPEMD160 (by decide))
  | OP_SHA1 => exact hmono (uses_opHash hQ P.SHA1 (by decide))
  | OP_SHA256 => exact hmono (uses_opHash hQ P.SHA256 (by decide))
  | OP_HASH160 => exact hmono (uses_opHash hQ P.hash160 (by decide))
  | OP_HASH256 => exact hmono (uses_opHash hQ P.hash256 (by decide))
  | OP_CODESEPARATOR => exact uses_modify (fun _ => rfl) fun s => ⟨rfl, .refl s, Nat.le_refl _, id⟩
  | OP_CHECKSIG => exact uses_opCheckSig hQ (hS (.inl rfl)) false
  | OP_CHECKSIGVERIFY => exact uses_opCheckSig hQ (hS (.inr (.inl rfl))) true
  | OP_CHECKMULTISIG => exact uses_opCheckMultiSig hQ (hS (.inr (.inr (.inl rfl)))) false
  | OP_CHECKMULTISIGVERIFY => exact uses_opCheckMultiSig hQ (hS (.inr (.inr (.inr rfl)))) true
  | disabled => exact absurd rfl hop
  | unknown => exact uses_throw not_fault_refused

end

end Machine

/-! ## What is logged -/

/-- An event within the bounds. -/
def Event.Bounded : Event → Prop
  | executed opcode => Opcode.ofNat opcode ≠ .disabled
  | constant vch => vch.length ≤ MAX_SCRIPT_ELEMENT_SIZE
  | result vch => vch.length ≤ 33
  | checkSig _ _ _ => True

/-- An operation that is counted. -/
def Event.isCounted : Event → Bool
  | executed opcode => CScript.OP_16 < opcode
  | _ => false

/-- The events of an opcode itself. -/
def Event.Quiet (event : Event) : Prop := event.Bounded ∧ event.isCounted = false

/-- How many operations were executed that are counted. -/
def counted (log : List Event) : Nat := log.countP Event.isCounted

namespace Machine

variable {P : ScriptParams} {ctx : SigContext} {s s' t : Machine} {opcode : Nat} {vch : Valtype} {pc : CScript}

theorem small_quiet : Small Event.Quiet := ⟨fun _ h => ⟨h, rfl⟩, fun _ h => ⟨h, rfl⟩⟩

theorem signs_quiet : Signs Event.Quiet := fun _ _ _ => ⟨trivial, rfl⟩

/-- What an opcode counts for. -/
def weight (opcode : Nat) : Nat := if CScript.OP_16 < opcode then 1 else 0

/-- The log goes on with events within the bounds, with at most so many
operations that are counted. -/
structure Adds (w : Nat) (s s' : Machine) : Prop where
  bounded : (∀ event ∈ s.log, event.Bounded) → ∀ event ∈ s'.log, event.Bounded
  counted : counted s'.log ≤ counted s.log + w

theorem Noted.adds (h : Noted Event.Quiet s s') : Adds 0 s s' := by
  obtain ⟨events, hlog, hquiet⟩ := h
  refine ⟨?_, ?_⟩
  · intro hs event hevent
    rw [hlog] at hevent
    rcases List.mem_append.mp hevent with hevent | hevent
    · exact hs event hevent
    · exact (hquiet event hevent).1
  · have hzero : events.countP Event.isCounted = 0 := by
      refine List.countP_eq_zero.mpr fun event hevent => ?_
      rw [(hquiet event hevent).2]
      decide
    rw [counted, hlog, List.countP_append, hzero]
    exact Nat.le_refl _

/-- The machine after an opcode is noted. -/
def noted (opcode : Nat) (s : Machine) : Machine := { s with log := s.log ++ [.executed opcode] }

theorem adds_noted (hop : Opcode.ofNat opcode ≠ .disabled) : Adds (weight opcode) s (noted opcode s) := by
  refine ⟨?_, ?_⟩
  · intro hs event hevent
    rcases List.mem_append.mp hevent with hevent | hevent
    · exact hs event hevent
    · rw [List.mem_singleton.mp hevent]
      exact hop
  · have hone : [Event.executed opcode].countP Event.isCounted ≤ weight opcode := by
      simp only [List.countP_singleton, Event.isCounted, weight, decide_eq_true_eq]
      split <;> omega
    rw [counted, counted, noted, List.countP_append]
    omega

theorem Adds.trans {v w : Nat} (h : Adds v s t) (h' : Adds w t s') : Adds (v + w) s s' where
  bounded := fun hs => h'.bounded (h.bounded hs)
  counted := by
    have hv := h.counted
    have hw := h'.counted
    omega

theorem Adds.mono {v w : Nat} (h : Adds v s s') (hvw : v ≤ w) : Adds w s s' :=
  ⟨h.bounded, Nat.le_trans h.counted (Nat.add_le_add_left hvw _)⟩

/-- What a dispatch does: it does not move the script, keeps the counter
below its limit, and does not fault. -/
theorem dispatch_spec (fExec : Bool) (hvch : vch.length ≤ MAX_SCRIPT_ELEMENT_SIZE) (hop : Opcode.ofNat opcode ≠ .disabled)
    (s : Machine) :
    match dispatch P ctx fExec opcode vch s with
    | .ok _ s' => s'.pc = s.pc ∧ s.nOpCount ≤ s'.nOpCount ∧ (s.nOpCount ≤ 201 → s'.nOpCount ≤ 201) ∧
        Adds (weight opcode) s s'
    | .error e s' => e ≠ .outOfRange ∧ Adds (weight opcode) s s' := by
  unfold dispatch
  by_cases hpush : fExec ∧ opcode ≤ CScript.OP_PUSHDATA4
  · rw [if_pos hpush]
    have hrun := uses_pushConstant small_quiet hvch s (Nat.zero_le _)
    cases hpc : pushConstant vch s with
    | ok a t =>
      rw [hpc] at hrun
      have hgoing := hrun.2.2
      exact ⟨hgoing.pc, hgoing.grows, hgoing.limit, hgoing.log.adds.mono (Nat.zero_le _)⟩
    | error e t =>
      rw [hpc] at hrun
      exact ⟨hrun.1, Noted.adds hrun.2 |>.mono (Nat.zero_le _)⟩
  · rw [if_neg hpush]
    by_cases hexec : fExec ∨ (OP_IF ≤ opcode ∧ opcode ≤ OP_ENDIF)
    · rw [if_pos hexec]
      have hnote : (do note (.executed opcode); execOp P ctx fExec (.ofNat opcode)) s =
          execOp P ctx fExec (.ofNat opcode) (noted opcode s) := rfl
      rw [hnote]
      have hrun := @uses_execOp _ P ctx small_quiet (.ofNat opcode) fExec (fun _ => signs_quiet) hop
        (fun n hn => Opcode.ofNat_number hn) (noted opcode s) (Nat.zero_le _)
      cases hop' : execOp P ctx fExec (.ofNat opcode) (noted opcode s) with
      | ok a t =>
        rw [hop'] at hrun
        have hgoing := hrun.2.2
        exact ⟨hgoing.pc, hgoing.grows, hgoing.limit, (adds_noted hop).trans hgoing.log.adds⟩
      | error e t =>
        rw [hop'] at hrun
        exact ⟨hrun.1, (adds_noted hop).trans (Noted.adds hrun.2)⟩
    · rw [if_neg hexec]
      exact ⟨rfl, Nat.le_refl _, id, ⟨id, Nat.le_add_right _ _⟩⟩

/-! ## Instructions -/

/-- The machine after an instruction is read and counted. -/
def entered (s : Machine) (opcode : Nat) (pc : CScript) : Machine :=
  { s with pc := pc, nOpCount := s.nOpCount + weight opcode }

/-- One turn, with its guards. -/
theorem evalStep_run (h : CScript.getOp s.pc = some (opcode, vch, pc)) : evalStep P ctx s =
    if MAX_SCRIPT_ELEMENT_SIZE < vch.length then .error .refused { s with pc := pc }
    else if CScript.OP_16 < opcode ∧ 201 < s.nOpCount + 1 then .error .refused (entered s opcode pc)
    else if Opcode.ofNat opcode = .disabled then .error .refused (entered s opcode pc)
    else
      match dispatch P ctx s.fExec opcode vch (entered s opcode pc) with
      | .error e s' => .error e s'
      | .ok _ s' => if 1000 < s'.stack.length + s'.altstack.length then .error .refused s' else .ok () s' := by
  unfold evalStep
  simp only [bind_run, get_run, h, set_run, rejectIf_run]
  by_cases hsize : MAX_SCRIPT_ELEMENT_SIZE < vch.length
  · simp only [if_pos hsize]
  · simp only [if_neg hsize]
    by_cases hcounted : CScript.OP_16 < opcode
    · have hentered : entered s opcode pc = { s with pc := pc, nOpCount := s.nOpCount + 1 } := by
        simp only [entered, weight, if_pos hcounted]
      simp only [hcounted, if_true, bind_run, count_run, rejectIf_run, true_and, hentered]
      by_cases hlimit : 201 < s.nOpCount + 1
      · simp only [if_pos hlimit]
      · simp only [if_neg hlimit, get_run]
        by_cases hdisabled : Opcode.ofNat opcode = .disabled
        · simp only [if_pos hdisabled]
        · simp only [if_neg hdisabled]
          cases dispatch P ctx s.fExec opcode vch { s with pc := pc, nOpCount := s.nOpCount + 1 } with
          | ok a t => rfl
          | error e t => rfl
    · have hentered : entered s opcode pc = { s with pc := pc } := by
        simp only [entered, weight, if_neg hcounted, Nat.add_zero]
      simp only [bind_run, rejectIf_run, hcounted, false_and, if_false, hentered]
      by_cases hdisabled : Opcode.ofNat opcode = .disabled
      · simp only [if_pos hdisabled]
      · simp only [if_neg hdisabled]
        cases dispatch P ctx s.fExec opcode vch { s with pc := pc } with
        | ok a t => rfl
        | error e t => rfl

/-- The machine between two instructions. -/
structure Within (s : Machine) : Prop where
  size : s.stack.length + s.altstack.length ≤ 1000
  operations : s.nOpCount ≤ 201
  bounded : ∀ event ∈ s.log, event.Bounded
  executed : counted s.log ≤ s.nOpCount

/-- A log of events within the bounds, with at most 201 operations that are
counted. -/
structure LogWithin (log : List Event) : Prop where
  bounded : ∀ event ∈ log, event.Bounded
  operations : counted log ≤ 201

theorem Within.log (h : Within s) : LogWithin s.log := ⟨h.bounded, Nat.le_trans h.executed h.operations⟩

/-- An instruction takes a byte at least. -/
theorem length_getOp_lt {script : CScript} (h : CScript.getOp script = some (opcode, vch, pc)) :
    pc.length < script.length := by
  cases script with
  | nil => cases h
  | cons b script =>
    simp only [CScript.getOp] at h
    split_ifs at h
    all_goals
      obtain ⟨-, -, rfl⟩ := Prod.mk.inj (Option.some.inj h) |>.imp id Prod.mk.inj
      simp only [List.length_drop, List.length_cons]
      omega

/-- What becomes of a machine within the bounds in one turn. -/
theorem Within.turn (hs : Within s) :
    match evalStep P ctx s with
    | .ok _ s' => Within s' ∧ s'.pc.length < s.pc.length
    | .error e s' => e ≠ .outOfRange ∧ LogWithin s'.log := by
  cases hop : CScript.getOp s.pc with
  | none =>
    have hrun : evalStep P ctx s = .error .refused s := by
      simp only [evalStep, bind_run, get_run, hop]
      rfl
    rw [hrun]
    exact ⟨by decide, hs.log⟩
  | some instruction =>
    obtain ⟨opcode, vch, pc⟩ := instruction
    have hrefused : (EvalStop.refused : EvalStop) ≠ .outOfRange := by decide
    rw [evalStep_run hop]
    split_ifs with hsize hlimit hdisabled
    · exact ⟨hrefused, hs.log⟩
    · exact ⟨hrefused, hs.log⟩
    · exact ⟨hrefused, hs.log⟩
    · have hexecuted := hs.executed
      have hoperations := hs.operations
      have hweight : s.nOpCount + weight opcode ≤ 201 := by
        unfold weight
        split <;> omega
      have hdispatch := @dispatch_spec P ctx opcode vch s.fExec (Nat.le_of_not_lt hsize) hdisabled (entered s opcode pc)
      cases hrun : dispatch P ctx s.fExec opcode vch (entered s opcode pc) with
      | ok a t =>
        rw [hrun] at hdispatch
        obtain ⟨hpc, hgrows, hkeeps, hadds⟩ := hdispatch
        have hcounted : counted t.log ≤ counted s.log + weight opcode := hadds.counted
        have hcount : s.nOpCount + weight opcode ≤ t.nOpCount := hgrows
        simp only
        split_ifs with htall
        · exact ⟨hrefused, hadds.bounded hs.bounded, by omega⟩
        · refine ⟨⟨Nat.le_of_not_lt htall, hkeeps hweight, hadds.bounded hs.bounded, by omega⟩, ?_⟩
          have hpc' : t.pc = pc := hpc
          rw [hpc']
          exact length_getOp_lt hop
      | error e t =>
        rw [hrun] at hdispatch
        obtain ⟨hne, hadds⟩ := hdispatch
        have hcounted : counted t.log ≤ counted s.log + weight opcode := hadds.counted
        exact ⟨hne, hadds.bounded hs.bounded, by omega⟩

/-! ## Runs -/

variable (P ctx) in
/-- The machines between the instructions of a run. -/
inductive Reached (s : Machine) : Machine → Prop
  | start : Reached s s
  | step {t u : Machine} (h : Reached s t) (hstep : evalStep P ctx t = .ok () u) : Reached s u

theorem Within.reached (hs : Within s) (h : Reached P ctx s t) : Within t := by
  induction h with
  | start => exact hs
  | step _ hstep ih =>
    have hturn := @Within.turn P ctx _ ih
    rw [hstep] at hturn
    exact hturn.1

theorem Reached.head {u : Machine} (hstep : evalStep P ctx s = .ok () t) (h : Reached P ctx t u) : Reached P ctx s u := by
  induction h with
  | start => exact .step .start hstep
  | step _ hstep' ih => exact .step ih hstep'

/-- The loop comes to the end of the script, or stops in an instruction. -/
theorem evalLoop_cases (hs : Within s) {fuel : Nat} (hfuel : s.pc.length ≤ fuel) :
    (∃ t, evalLoop P ctx fuel s = .ok () t ∧ Reached P ctx s t ∧ t.pc = []) ∨
      ∃ e t u, evalLoop P ctx fuel s = .error e u ∧ Reached P ctx s t ∧ evalStep P ctx t = .error e u := by
  induction fuel generalizing s with
  | zero => exact .inl ⟨s, rfl, .start, List.length_eq_zero_iff.mp (Nat.le_zero.mp hfuel)⟩
  | succ fuel ih =>
    simp only [evalLoop, bind_run, get_run]
    by_cases hpc : s.pc = []
    · rw [if_pos hpc]
      exact .inl ⟨s, rfl, .start, hpc⟩
    · rw [if_neg hpc, bind_run]
      have hturn := @Within.turn P ctx s hs
      cases hstep : evalStep P ctx s with
      | ok a t =>
        rw [hstep] at hturn
        obtain ⟨u, hrun, hreached, hend⟩ | ⟨e, u, v, hrun, hreached, hstop⟩ := ih hturn.1 (by omega)
        · exact .inl ⟨u, hrun, hreached.head hstep, hend⟩
        · exact .inr ⟨e, u, v, hrun, hreached.head hstep, hstop⟩
      | error e t => exact .inr ⟨e, s, t, rfl, .start, hstep⟩

theorem within_start {script : CScript} {stack : List Valtype} (h : stack.length ≤ 1000) : Within (start script stack) :=
  ⟨h, Nat.zero_le _, fun _ h => (nomatch h), Nat.zero_le _⟩

end Machine

open Machine

/-- What bounds a run of `EvalScript`: the machine between instructions, the
instruction it stops in, and the end, which is that of the script or a stop. -/
structure RunsWithin (P : ScriptParams) (ctx : SigContext) (stack : List Valtype) (script : CScript) : Prop where
  size : ∀ s, Reached P ctx (start script stack) s → s.stack.length + s.altstack.length ≤ 1000
  operations : ∀ s, Reached P ctx (start script stack) s → s.nOpCount ≤ 201
  inRange : ∀ s s', Reached P ctx (start script stack) s → evalStep P ctx s ≠ .error .outOfRange s'
  log : ∀ s, Reached P ctx (start script stack) s → LogWithin (endState (evalStep P ctx s)).log
  verdict : (∃ s, Reached P ctx (start script stack) s ∧ s.pc = [] ∧
      evalScript P ctx stack script = (decide (script.length ≤ 10000) && s.vfExec.isEmpty, s)) ∨
    ∃ s, evalScript P ctx stack script = (false, s) ∧ LogWithin s.log

/-- **`EvalScript` keeps within its bounds**: no access to a stack is out of
range, both stacks together stay at 1000 elements, at most 201 operations are
counted, what is pushed stays small, no opcode that is switched off is
executed, and the loop ends with a verdict. -/
theorem evalScript_within (P : ScriptParams) (ctx : SigContext) {stack : List Valtype} (hstack : stack.length ≤ 1000)
    (script : CScript) : RunsWithin P ctx stack script := by
  have hstart : Within (start script stack) := within_start hstack
  have hlog : ∀ s, Reached P ctx (start script stack) s → LogWithin (endState (evalStep P ctx s)).log := by
    intro s hs
    have hturn := @Within.turn P ctx s (hstart.reached hs)
    cases hstep : evalStep P ctx s with
    | ok a t =>
      rw [hstep] at hturn
      exact hturn.1.log
    | error e t =>
      rw [hstep] at hturn
      exact hturn.2
  refine ⟨fun s hs => (hstart.reached hs).size, fun s hs => (hstart.reached hs).operations, ?_, hlog, ?_⟩
  · intro s s' hs hstep
    have hturn := @Within.turn P ctx s (hstart.reached hs)
    rw [hstep] at hturn
    exact hturn.1 rfl
  · unfold evalScript
    by_cases hlong : 10000 < script.length
    · rw [if_pos hlong]
      exact .inr ⟨_, rfl, hstart.log⟩
    · rw [if_neg hlong]
      obtain ⟨t, hrun, hreached, hend⟩ | ⟨e, t, u, hrun, hreached, hstop⟩ :=
        @evalLoop_cases P ctx _ hstart script.length (Nat.le_refl _)
      · refine .inl ⟨t, hreached, hend, ?_⟩
        rw [hrun, decide_eq_true (Nat.le_of_not_lt hlong), Bool.true_and]
      · refine .inr ⟨u, ?_, ?_⟩
        · rw [hrun]
        · have hwithin := hlog t hreached
          rw [hstop] at hwithin
          exact hwithin

namespace Sample

def scriptParams : ScriptParams where
  RIPEMD160 := fun _ => List.Vector.replicate 20 0
  SHA1 := fun _ => List.Vector.replicate 20 0
  SHA256 := fun _ => List.Vector.replicate 32 0
  verify := fun _ _ _ => true

def sigContext : SigContext := ⟨⟨1, 0, [⟨⟨7, 0⟩, [], 0⟩], [⟨1, []⟩], 0⟩, 0, 0⟩

/-- A signature, a public key, `OP_CHECKSIG`. -/
def checkSigScript : CScript :=
  CScript.push [0x30, 6, 2, 1, 1, 2, 1, 1, 1] ++ CScript.push (2 :: List.replicate 32 1) ++ [0xac]

/-- The run of that script comes to its end with a true top. -/
theorem evalScript_within_sample : RunsWithin scriptParams sigContext [] checkSigScript ∧
    (evalScript scriptParams sigContext [] checkSigScript).1 = true ∧
    (evalScript scriptParams sigContext [] checkSigScript).2.stack = [vchTrue] :=
  ⟨evalScript_within scriptParams sigContext (by decide) checkSigScript, by decide +kernel, by decide +kernel⟩

end Sample

end Pinkcoin
