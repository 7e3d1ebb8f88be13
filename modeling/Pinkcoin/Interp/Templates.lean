/-
Runs of the standard scripts. The machine is seen without its log, an
instruction as a turn from one view to the next. A script that only pushes
leaves what it pushes; each of the others leaves the verdict of its check.
-/
import Pinkcoin.Lib.Greedy
import Pinkcoin.Smsg.Message
import Pinkcoin.Solver
import Pinkcoin.Interp.SigOps

namespace Pinkcoin

open StateError Greedy
open CScript (getOp push findAndDelete deleteLoop leBytes leNat length_leBytes lastPush isPayToScriptHash OP_PUSHDATA1
  OP_PUSHDATA4 OP_1 OP_16)

/-! ## Operations of a script -/

/-- The operations of a script that can be read to its end. -/
inductive Ops : CScript → List (Nat × Valtype) → Prop
  | nil : Ops [] []
  | cons {script pc : CScript} {opcode : Nat} {vch : Valtype} {ops : List (Nat × Valtype)}
      (h : getOp script = some (opcode, vch, pc)) (hops : Ops pc ops) : Ops script ((opcode, vch) :: ops)

variable {script pc pc' : CScript} {opcode : Nat} {vch : Valtype} {ops : List (Nat × Valtype)}

theorem Ops.tail (h : Ops script ((opcode, vch) :: ops)) : ∃ pc, getOp script = some (opcode, vch, pc) ∧ Ops pc ops := by
  cases h with
  | cons hop hops => exact ⟨_, hop, hops⟩

theorem Ops.eq_nil (h : Ops script []) : script = [] := by
  cases h with
  | nil => rfl

/-- What is read off first and what is left make up the script. -/
theorem getOp_suffix (h : getOp script = some (opcode, vch, pc)) : pc <:+ script := by
  cases script with
  | nil => cases h
  | cons b script =>
    simp only [getOp] at h
    split_ifs at h
    all_goals
      obtain ⟨-, -, rfl⟩ := Prod.mk.inj (Option.some.inj h) |>.imp id Prod.mk.inj
      first
        | exact ((List.drop_suffix _ _).trans (List.drop_suffix _ _)).trans (List.suffix_cons b script)
        | exact List.suffix_cons b script

/-- A push of some hundred bytes is read back. -/
theorem getOp_push {b rest : List UInt8} (h : b.length ≤ MAX_SCRIPT_ELEMENT_SIZE) :
    ∃ opcode ≤ OP_PUSHDATA4, getOp (push b ++ rest) = some (opcode, b, rest) := by
  simp only [MAX_SCRIPT_ELEMENT_SIZE] at h
  exact CScript.getOp_push_append (by omega)

/-- `PushAll`. -/
def pushAll (values : List Valtype) : CScript := values.flatMap push

theorem ops_pushAll {values : List Valtype} (h : ∀ v ∈ values, v.length ≤ MAX_SCRIPT_ELEMENT_SIZE) :
    ∃ ops, Ops (pushAll values) ops ∧ (∀ op ∈ ops, op.1 ≤ OP_PUSHDATA4) ∧ ops.map Prod.snd = values := by
  induction values with
  | nil => exact ⟨[], .nil, fun _ h => (nomatch h), rfl⟩
  | cons v values ih =>
    obtain ⟨hv, hvalues⟩ := List.forall_mem_cons.mp h
    obtain ⟨ops, hops, hpush, hmap⟩ := ih hvalues
    obtain ⟨opcode, hopcode, hget⟩ := @getOp_push v (pushAll values) hv
    refine ⟨(opcode, v) :: ops, .cons ?_ hops, List.forall_mem_cons.mpr ⟨hopcode, hpush⟩, ?_⟩
    · rw [pushAll, List.flatMap_cons]
      exact hget
    · rw [List.map_cons, hmap]

/-! ## Deleting a signature -/

/-- The push of a signature is a byte with its length, and the signature. -/
theorem push_sig {vchSig : Valtype} (h : vchSig.length < OP_PUSHDATA1) :
    push vchSig = UInt8.ofNat vchSig.length :: vchSig := if_pos h

/-- A script none of whose operations has the signature as its data is left
alone. -/
theorem findAndDelete_of_ops {vchSig : Valtype} (hsig : vchSig.length < OP_PUSHDATA1) (hops : Ops script ops)
    (h : ∀ op ∈ ops, op.2 ≠ vchSig) : findAndDelete script (push vchSig) = script := by
  have hloop : ∀ fuel, deleteLoop (push vchSig) fuel script = script := by
    intro fuel
    induction hops generalizing fuel with
    | nil =>
      cases fuel with
      | zero => rfl
      | succ fuel =>
        have hpre : ¬ push vchSig <+: [] := by
          rw [push_sig hsig]
          simp
        rw [deleteLoop, if_neg hpre]
        rfl
    | @cons script pc opcode vch ops hop hops ih =>
      obtain ⟨hne, hrest⟩ := List.forall_mem_cons.mp h
      cases fuel with
      | zero => rfl
      | succ fuel =>
        have hpre : ¬ push vchSig <+: script := by
          rintro ⟨rest, rfl⟩
          have hsmall : vchSig.length ≤ MAX_SCRIPT_ELEMENT_SIZE := by
            simp only [OP_PUSHDATA1, MAX_SCRIPT_ELEMENT_SIZE] at hsig ⊢
            omega
          obtain ⟨opcode', -, hget⟩ := @getOp_push vchSig rest hsmall
          rw [hget] at hop
          cases hop
          exact hne rfl
        rw [deleteLoop, if_neg hpre, hop]
        simp only
        rw [ih hrest fuel]
        obtain ⟨l, rfl⟩ := getOp_suffix hop
        simp
  unfold findAndDelete
  split
  next => rfl
  next => exact hloop _

/-! ## Turns -/

namespace Machine

/-- The machine apart from its log: in no branch, with nothing on the other
stack. -/
structure View (s : Machine) (pc code : CScript) (stack : List Valtype) (n : Nat) : Prop where
  pc : s.pc = pc
  code : s.pbegincodehash = code
  stack : s.stack = stack
  altstack : s.altstack = []
  vfExec : s.vfExec = []
  nOpCount : s.nOpCount ≤ n

variable {P : ScriptParams} {ctx : SigContext} {s t : Machine} {code : CScript} {stack stack' : List Valtype} {n m : Nat}

theorem View.fExec (hv : View s pc code stack n) : s.fExec = true := by
  rw [Machine.fExec, hv.vfExec]
  rfl

theorem View.entered (hv : View s pc code stack n) : View (entered s opcode pc') pc' code stack (n + weight opcode) :=
  ⟨rfl, hv.code, hv.stack, hv.altstack, hv.vfExec, Nat.add_le_add_right hv.nOpCount _⟩

/-- A turn whose guards pass. -/
theorem turn_of_dispatch (hv : View s pc code stack n) (hop : getOp pc = some (opcode, vch, pc'))
    (hvch : vch.length ≤ MAX_SCRIPT_ELEMENT_SIZE) (hcount : n + weight opcode ≤ 201)
    (hdisabled : Opcode.ofNat opcode ≠ .disabled) (hstack : stack'.length ≤ 1000)
    (hrun : ∃ t, dispatch P ctx true opcode vch (Machine.entered s opcode pc') = .ok () t ∧ View t pc' code stack' m) :
    ∃ t, evalStep P ctx s = .ok () t ∧ View t pc' code stack' m := by
  obtain ⟨t, hdispatch, ht⟩ := hrun
  refine ⟨t, ?_, ht⟩
  have hget : getOp s.pc = some (opcode, vch, pc') := by rw [hv.pc, hop]
  have hlimit : ¬ (OP_16 < opcode ∧ 201 < s.nOpCount + 1) := by
    intro hlimit
    have hn := hv.nOpCount
    rw [weight, if_pos hlimit.1] at hcount
    omega
  have htall : ¬ 1000 < t.stack.length + t.altstack.length := by
    rw [ht.stack, ht.altstack, List.length_nil]
    omega
  rw [evalStep_run hget, if_neg (Nat.not_lt.mpr hvch), if_neg hlimit, if_neg hdisabled, hv.fExec, hdispatch]
  exact if_neg htall

theorem ofNat_unknown (h : opcode ≤ OP_PUSHDATA4) : Opcode.ofNat opcode = .unknown := by
  have hbytes : ∀ p ∈ opcodes, OP_PUSHDATA4 < p.1 := by decide
  have hrange : ¬ (OP_1NEGATE ≤ opcode ∧ opcode ≤ OP_16 ∧ opcode ≠ OP_RESERVED) := by
    simp only [OP_1NEGATE, OP_PUSHDATA4] at h ⊢
    omega
  have hnone : opcodes.lookup opcode = none := by
    rw [List.lookup_eq_none_iff]
    intro p hp
    have hlt := hbytes p hp
    simp only [bne_iff_ne]
    omega
  rw [Opcode.ofNat, if_neg hrange, hnone]
  rfl

/-- A constant is pushed. -/
theorem turn_push (hv : View s pc code stack n) (hop : getOp pc = some (opcode, vch, pc')) (hpush : opcode ≤ OP_PUSHDATA4)
    (hvch : vch.length ≤ MAX_SCRIPT_ELEMENT_SIZE) (hcount : n ≤ 201) (hstack : stack.length < 1000) :
    ∃ t, evalStep P ctx s = .ok () t ∧ View t pc' code (vch :: stack) n := by
  have hfree : weight opcode = 0 := by
    refine if_neg ?_
    simp only [OP_PUSHDATA4, OP_16] at hpush ⊢
    omega
  have hentered := @View.entered pc pc' opcode s code stack n hv
  rw [hfree, Nat.add_zero] at hentered
  refine turn_of_dispatch hv hop hvch (by omega) (by simp [ofNat_unknown hpush]) hstack ?_
  rw [dispatch, if_pos ⟨rfl, hpush⟩]
  refine ⟨_, rfl, rfl, hentered.code, ?_, hentered.altstack, hentered.vfExec, hentered.nOpCount⟩
  exact congrArg (vch :: ·) hentered.stack

/-- An opcode is executed. -/
theorem turn_exec (hv : View s pc code stack n) (hop : getOp pc = some (opcode, [], pc')) (hlow : OP_PUSHDATA4 < opcode)
    (hcount : n + weight opcode ≤ 201) (hdisabled : Opcode.ofNat opcode ≠ .disabled) (hstack : stack'.length ≤ 1000)
    (hrun : ∀ u, View u pc' code stack (n + weight opcode) →
      ∃ t, execOp P ctx true (.ofNat opcode) u = .ok () t ∧ View t pc' code stack' m) :
    ∃ t, evalStep P ctx s = .ok () t ∧ View t pc' code stack' m := by
  refine turn_of_dispatch hv hop (Nat.zero_le _) hcount hdisabled hstack ?_
  have hpush : ¬ ((true : Bool) = true ∧ opcode ≤ OP_PUSHDATA4) := fun h => Nat.not_le.mpr hlow h.2
  have hentered := @View.entered pc pc' opcode s code stack n hv
  rw [dispatch, if_neg hpush, if_pos (.inl rfl)]
  exact hrun (noted opcode (Machine.entered s opcode pc'))
    ⟨hentered.pc, hentered.code, hentered.stack, hentered.altstack, hentered.vfExec, hentered.nOpCount⟩

/-- A number is pushed. -/
theorem turn_number (hv : View s pc code stack n) (hop : getOp pc = some (opcode, [], pc')) (h₁ : OP_1 ≤ opcode)
    (h₂ : opcode ≤ OP_16) (hcount : n ≤ 201) (hstack : stack.length < 1000) :
    ∃ t, evalStep P ctx s = .ok () t ∧ View t pc' code (getvch ((opcode - (OP_1 - 1) : Nat) : Int) :: stack) n := by
  have hfree : weight opcode = 0 := if_neg (Nat.not_lt.mpr h₂)
  have hnumber := ofNat_of_number h₁ h₂
  refine turn_exec hv hop ?_ (by omega) (by simp [hnumber]) hstack ?_
  · simp only [OP_1, OP_PUSHDATA4] at h₁ ⊢
    omega
  · intro u hu
    rw [hfree, Nat.add_zero] at hu
    rw [hnumber]
    refine ⟨_, rfl, hu.pc, hu.code, ?_, hu.altstack, hu.vfExec, hu.nOpCount⟩
    exact congrArg (getvch ((opcode - (OP_1 - 1) : Nat) : Int) :: ·) hu.stack

/-! ## Runs to the end -/

variable (P ctx) in
/-- From the view the loop comes to a result of some kind. -/
def Leads (pc code : CScript) (stack : List Valtype) (n : Nat)
    (Q : EStateM.Result EvalStop Machine Unit → Prop) : Prop :=
  ∀ s fuel, View s pc code stack n → pc.length ≤ fuel → Q (evalLoop P ctx fuel s)

variable (P ctx) in
/-- From the view the machine runs to the end of the script, with that stack. -/
def Halts (pc code : CScript) (stack : List Valtype) (n : Nat) (stack' : List Valtype) : Prop :=
  ∀ s fuel, View s pc code stack n → pc.length ≤ fuel →
    ∃ t m, evalLoop P ctx fuel s = .ok () t ∧ View t [] code stack' m

theorem halts_nil : Halts P ctx [] code stack n stack := by
  intro s fuel hv _
  refine ⟨s, n, ?_, hv⟩
  cases fuel with
  | zero => rfl
  | succ fuel =>
    simp only [evalLoop, bind_run, get_run]
    rw [if_pos hv.pc]
    rfl

/-- A turn of the loop, where something is left of the script. -/
theorem evalLoop_turn (hv : View s pc code stack n) (hop : getOp pc = some (opcode, vch, pc')) (fuel : Nat) :
    evalLoop P ctx (fuel + 1) s = (do evalStep P ctx; evalLoop P ctx fuel : EvalM Unit) s := by
  have hshort := length_getOp_lt hop
  have hpc : s.pc ≠ [] := by
    rw [hv.pc]
    intro hnil
    rw [hnil] at hshort
    exact Nat.not_lt_zero _ hshort
  simp only [evalLoop, bind_run, get_run]
  rw [if_neg hpc, bind_run]

/-- The loop goes on as it does after a turn. -/
theorem leads_turn {Q : EStateM.Result EvalStop Machine Unit → Prop} {stack₁ : List Valtype} {n₁ : Nat}
    (hop : getOp pc = some (opcode, vch, pc'))
    (hturn : ∀ s, View s pc code stack n → ∃ t, evalStep P ctx s = .ok () t ∧ View t pc' code stack₁ n₁)
    (hrest : Leads P ctx pc' code stack₁ n₁ Q) : Leads P ctx pc code stack n Q := by
  intro s fuel hv hfuel
  have hshort := length_getOp_lt hop
  obtain ⟨t, hstep, ht⟩ := hturn s hv
  cases fuel with
  | zero => omega
  | succ fuel =>
    rw [evalLoop_turn hv hop, bind_run, hstep]
    exact hrest t fuel ht (by omega)

theorem halts_turn {stack₁ : List Valtype} {n₁ : Nat} (hop : getOp pc = some (opcode, vch, pc'))
    (hturn : ∀ s, View s pc code stack n → ∃ t, evalStep P ctx s = .ok () t ∧ View t pc' code stack₁ n₁)
    (hrest : Halts P ctx pc' code stack₁ n₁ stack') : Halts P ctx pc code stack n stack' :=
  leads_turn (Q := fun r => ∃ t m, r = .ok () t ∧ View t [] code stack' m) hop hturn hrest

theorem evalScript_halts (h : Halts P ctx script script stack 0 stack') (hlen : script.length ≤ 10000) :
    ∃ s, evalScript P ctx stack script = (true, s) ∧ s.stack = stack' := by
  obtain ⟨t, m, hrun, ht⟩ := h (start script stack) script.length ⟨rfl, rfl, rfl, rfl, rfl, Nat.le_refl 0⟩ (Nat.le_refl _)
  refine ⟨t, ?_, ht.stack⟩
  rw [evalScript, if_neg (Nat.not_lt.mpr hlen), hrun]
  simp only [ht.vfExec]
  rfl

/-- An opcode is executed, and the script goes on. -/
theorem halts_exec {stack₁ : List Valtype} (hop : getOp pc = some (opcode, [], pc')) (hlow : OP_PUSHDATA4 < opcode)
    (hcount : n + weight opcode ≤ 201) (hdisabled : Opcode.ofNat opcode ≠ .disabled) (hstack : stack₁.length ≤ 1000)
    (hrun : ∀ u, View u pc' code stack (n + weight opcode) →
      ∃ t, execOp P ctx true (.ofNat opcode) u = .ok () t ∧ View t pc' code stack₁ m)
    (hrest : Halts P ctx pc' code stack₁ m stack') : Halts P ctx pc code stack n stack' :=
  halts_turn hop (fun _ hv => turn_exec hv hop hlow hcount hdisabled hstack hrun) hrest

/-- Operations that push leave what they push. -/
theorem leads_pushes {Q : EStateM.Result EvalStop Machine Unit → Prop} {ops' : List (Nat × Valtype)}
    (hops : Ops pc (ops ++ ops')) (hpush : ∀ op ∈ ops, op.1 ≤ OP_PUSHDATA4)
    (hsmall : ∀ op ∈ ops, op.2.length ≤ MAX_SCRIPT_ELEMENT_SIZE) (hstack : stack.length + ops.length ≤ 1000)
    (hcount : n ≤ 201)
    (hrest : ∀ pc', Ops pc' ops' → Leads P ctx pc' code ((ops.map Prod.snd).reverse ++ stack) n Q) :
    Leads P ctx pc code stack n Q := by
  induction ops generalizing pc stack with
  | nil => exact hrest pc hops
  | cons op ops ih =>
    obtain ⟨opcode, vch⟩ := op
    obtain ⟨hopcode, hpush⟩ := List.forall_mem_cons.mp hpush
    obtain ⟨hvch, hsmall⟩ := List.forall_mem_cons.mp hsmall
    obtain ⟨pc', hop, hops⟩ := Ops.tail hops
    rw [List.length_cons] at hstack
    refine leads_turn hop (fun s hv => turn_push hv hop hopcode hvch hcount (by omega)) ?_
    refine ih hops hpush hsmall (by rw [List.length_cons]; omega) fun pc'' hops'' => ?_
    have hafter := hrest pc'' hops''
    rwa [List.map_cons, List.reverse_cons, List.append_assoc, List.singleton_append] at hafter

theorem halts_pushes {ops' : List (Nat × Valtype)} (hops : Ops pc (ops ++ ops')) (hpush : ∀ op ∈ ops, op.1 ≤ OP_PUSHDATA4)
    (hsmall : ∀ op ∈ ops, op.2.length ≤ MAX_SCRIPT_ELEMENT_SIZE) (hstack : stack.length + ops.length ≤ 1000)
    (hcount : n ≤ 201)
    (hrest : ∀ pc', Ops pc' ops' → Halts P ctx pc' code ((ops.map Prod.snd).reverse ++ stack) n stack') :
    Halts P ctx pc code stack n stack' :=
  leads_pushes (Q := fun r => ∃ t m, r = .ok () t ∧ View t [] code stack' m) hops hpush hsmall hstack hcount hrest

/-- A script that only pushes leaves what it pushes. -/
theorem halts_pushAll {values : List Valtype} (hsmall : ∀ v ∈ values, v.length ≤ MAX_SCRIPT_ELEMENT_SIZE)
    (hstack : values.length ≤ 1000) : Halts P ctx (pushAll values) code [] 0 values.reverse := by
  obtain ⟨ops, hops, hpush, rfl⟩ := ops_pushAll hsmall
  have hops' : Ops (pushAll (ops.map Prod.snd)) (ops ++ []) := by
    rw [List.append_nil]
    exact hops
  rw [List.length_map] at hstack
  refine halts_pushes hops' hpush (fun op hop => hsmall op.2 (List.mem_map_of_mem hop)) (by simpa using hstack)
    (Nat.zero_le _) fun pc' hnil => ?_
  rw [hnil.eq_nil, List.append_nil]
  exact halts_nil

/-! ## Opcodes -/

theorem needs_run {k : Nat} (h : k ≤ s.stack.length) : needs k s = .ok () s := by
  simp only [needs, bind_run, get_run, rejectIf_run]
  rw [if_neg (Nat.not_lt.mpr h)]

theorem stacktop_run {i : Nat} (h : s.stack[i]? = some vch) : stacktop (i + 1) s = .ok vch s := by
  simp only [stacktop, bind_run, get_run, Nat.add_sub_cancel, h]
  rw [if_neg (Nat.succ_ne_zero i)]
  rfl

theorem popstack_run (h : s.stack = vch :: stack) : popstack s = .ok () { s with stack := stack } := by
  simp only [popstack, bind_run, get_run, h, set_run]

theorem popMany_run {k : Nat} (h : k ≤ s.stack.length) : popMany k s = .ok () { s with stack := s.stack.drop k } := by
  induction k generalizing s with
  | zero => rfl
  | succ k ih =>
    cases hstack : s.stack with
    | nil =>
      rw [hstack] at h
      exact absurd h (Nat.not_succ_le_zero k)
    | cons vch stack =>
      rw [hstack, List.length_cons] at h
      rw [popMany, bind_run, popstack_run hstack]
      exact ih (Nat.le_of_succ_le_succ h)

variable (P ctx) in
/-- What a check of a signature comes to. -/
def valid (code : CScript) (vchSig vchPubKey : Valtype) : Bool :=
  isCanonicalSignature vchSig && isCanonicalPubKey vchPubKey && checkSig P ctx vchSig vchPubKey code

/-- `vchTrue` or `vchFalse`. -/
def ofVerdict (b : Bool) : Valtype := if b then vchTrue else vchFalse

theorem checkOne_run (vchSig vchPubKey : Valtype) (s : Machine) :
    ∃ log, checkOne P ctx vchSig vchPubKey code s = .ok (valid P ctx code vchSig vchPubKey) { s with log := log } := by
  unfold checkOne valid
  cases hcanonical : isCanonicalSignature vchSig && isCanonicalPubKey vchPubKey with
  | false => exact ⟨s.log, rfl⟩
  | true => exact ⟨_, rfl⟩

/-- The two on the top are a public key and a signature for it. -/
theorem exec_checkSig {vchSig vchPubKey : Valtype} (hv : View s pc code (vchPubKey :: vchSig :: stack) n)
    (hdelete : findAndDelete code (CScript.push vchSig) = code) :
    ∃ t, execOp P ctx true .OP_CHECKSIG s = .ok () t ∧
      View t pc code (ofVerdict (valid P ctx code vchSig vchPubKey) :: stack) n := by
  obtain ⟨spc, scode, sstack, saltstack, svfExec, snOpCount, slog⟩ := s
  obtain ⟨rfl, rfl, rfl, rfl, rfl, hn⟩ := hv
  obtain ⟨log, hcheck⟩ := @checkOne_run P ctx scode vchSig vchPubKey
    ⟨spc, scode, vchPubKey :: vchSig :: stack, [], [], snOpCount, slog⟩
  have hneeds : 2 ≤ (vchPubKey :: vchSig :: stack).length := by simp
  refine ⟨⟨spc, scode, ofVerdict (valid P ctx scode vchSig vchPubKey) :: stack, [], [], snOpCount,
    log ++ [.result (ofVerdict (valid P ctx scode vchSig vchPubKey))]⟩, ?_, rfl, rfl, rfl, rfl, rfl, hn⟩
  rw [execOp, opCheckSig, bind_run, needs_run hneeds]
  simp only [bind_run, @stacktop_run vchSig ⟨spc, scode, vchPubKey :: vchSig :: stack, [], [], snOpCount, slog⟩ 1 rfl,
    @stacktop_run vchPubKey ⟨spc, scode, vchPubKey :: vchSig :: stack, [], [], snOpCount, slog⟩ 0 rfl, get_run, hdelete,
    hcheck]
  rfl

/-- Elements in a row, from a place of the stack on. -/
theorem row_head {l values : List Valtype} {v : Valtype} {i : Nat} (h : v :: values <+: l.drop i) :
    l[i]? = some v ∧ values <+: l.drop (i + 1) := by
  obtain ⟨rest, hrest⟩ := h
  have hcons : l.drop i = v :: (values ++ rest) := hrest.symm
  refine ⟨?_, rest, ?_⟩
  · rw [← List.head?_drop, hcons]
    rfl
  · rw [← List.tail_drop, hcons]
    rfl

theorem dropSignatures_run {sigs : List Valtype} {isig : Nat} (hsigs : sigs <+: s.stack.drop isig)
    (hdelete : ∀ vchSig ∈ sigs, findAndDelete code (CScript.push vchSig) = code) :
    dropSignatures sigs.length (isig + 1) code s = .ok code s := by
  induction sigs generalizing isig with
  | nil => rfl
  | cons vchSig sigs ih =>
    obtain ⟨hhead, htail⟩ := row_head hsigs
    obtain ⟨hfirst, hrest⟩ := List.forall_mem_cons.mp hdelete
    rw [List.length_cons, dropSignatures, bind_run, stacktop_run hhead]
    simp only
    rw [hfirst]
    exact ih htail hrest

/-- The loop matches the signatures with the keys. -/
theorem checkMultiSigLoop_run {keys sigs : List Valtype} {isig ikey : Nat} (hsigs : sigs <+: s.stack.drop isig)
    (hkeys : keys <+: s.stack.drop ikey) :
    ∃ log, checkMultiSigLoop P ctx code keys.length sigs.length (isig + 1) (ikey + 1) s =
      .ok (greedy (valid P ctx code) keys sigs) { s with log := log } := by
  induction keys generalizing sigs isig ikey s with
  | nil =>
    cases sigs with
    | nil => exact ⟨s.log, rfl⟩
    | cons vchSig sigs => exact ⟨s.log, rfl⟩
  | cons vchPubKey keys ih =>
    cases sigs with
    | nil => exact ⟨s.log, rfl⟩
    | cons vchSig sigs =>
      obtain ⟨hsig, hsigs'⟩ := row_head hsigs
      obtain ⟨hkey, hkeys'⟩ := row_head hkeys
      obtain ⟨log, hcheck⟩ := @checkOne_run P ctx code vchSig vchPubKey s
      simp only [List.length_cons, checkMultiSigLoop, bind_run, stacktop_run hsig, stacktop_run hkey, hcheck]
      cases hvalid : valid P ctx code vchSig vchPubKey with
      | true =>
        have hgreedy : greedy (valid P ctx code) (vchPubKey :: keys) (vchSig :: sigs) =
            greedy (valid P ctx code) keys sigs := if_pos hvalid
        rw [hgreedy]
        simp only [if_true]
        by_cases hshort : keys.length < sigs.length
        · rw [if_pos hshort, greedy_short hshort]
          exact ⟨log, rfl⟩
        · rw [if_neg hshort]
          exact @ih { s with log := log } sigs (isig + 1) (ikey + 1) hsigs' hkeys'
      | false =>
        have hgreedy : greedy (valid P ctx code) (vchPubKey :: keys) (vchSig :: sigs) =
            greedy (valid P ctx code) keys (vchSig :: sigs) := if_neg (by simp [hvalid])
        rw [hgreedy]
        simp only [Bool.false_eq_true, if_false]
        by_cases hshort : keys.length < sigs.length + 1
        · rw [if_pos hshort, greedy_short (by simpa using hshort)]
          exact ⟨log, rfl⟩
        · rw [if_neg hshort]
          exact @ih { s with log := log } (vchSig :: sigs) isig (ikey + 1) hsigs hkeys'

theorem exec_dup (hv : View s pc code (vch :: stack) n) :
    ∃ t, execOp P ctx true .OP_DUP s = .ok () t ∧ View t pc code (vch :: vch :: stack) n := by
  obtain ⟨spc, scode, sstack, saltstack, svfExec, snOpCount, slog⟩ := s
  obtain ⟨rfl, rfl, rfl, rfl, rfl, hn⟩ := hv
  exact ⟨_, rfl, rfl, rfl, rfl, rfl, rfl, hn⟩

theorem exec_hash160 (hv : View s pc code (vch :: stack) n) :
    ∃ t, execOp P ctx true .OP_HASH160 s = .ok () t ∧ View t pc code ((P.hash160 vch).toList :: stack) n := by
  obtain ⟨spc, scode, sstack, saltstack, svfExec, snOpCount, slog⟩ := s
  obtain ⟨rfl, rfl, rfl, rfl, rfl, hn⟩ := hv
  exact ⟨_, rfl, rfl, rfl, rfl, rfl, rfl, hn⟩

theorem exec_equal {vch1 vch2 : Valtype} (hv : View s pc code (vch2 :: vch1 :: stack) n) :
    ∃ t, execOp P ctx true .OP_EQUAL s = .ok () t ∧ View t pc code (ofVerdict (vch1 = vch2) :: stack) n := by
  obtain ⟨spc, scode, sstack, saltstack, svfExec, snOpCount, slog⟩ := s
  obtain ⟨rfl, rfl, rfl, rfl, rfl, hn⟩ := hv
  exact ⟨_, rfl, rfl, rfl, rfl, rfl, rfl, hn⟩

theorem exec_equalVerify (hv : View s pc code (vch :: vch :: stack) n) :
    ∃ t, execOp P ctx true .OP_EQUALVERIFY s = .ok () t ∧ View t pc code stack n := by
  obtain ⟨spc, scode, sstack, saltstack, svfExec, snOpCount, slog⟩ := s
  obtain ⟨rfl, rfl, rfl, rfl, rfl, hn⟩ := hv
  have hverdict : decide (vch = vch) = true := decide_eq_true rfl
  refine ⟨⟨spc, scode, stack, [], [], snOpCount, slog ++ [.result vchTrue]⟩, ?_, rfl, rfl, rfl, rfl, rfl, hn⟩
  have hrun : execOp P ctx true .OP_EQUALVERIFY ⟨spc, scode, vch :: vch :: stack, [], [], snOpCount, slog⟩ =
      (do
        pushResult (if decide (vch = vch) then vchTrue else vchFalse)
        verifyTop (decide (vch = vch))) ⟨spc, scode, stack, [], [], snOpCount, slog⟩ := rfl
  rw [hrun, hverdict]
  rfl

theorem readCount_run {i k : Nat} {nMax : Int} (h : s.stack[i]? = some (getvch k)) (hk : k ≤ 16) (hmax : (k : Int) ≤ nMax) :
    readCount (i + 1) nMax s = .ok k s := by
  have hsmall : ∀ k ∈ List.range 17, (getvch (k : Nat)).length ≤ nMaxNumSize ∧
      getint (setvch (getvch (k : Nat))) = k := by decide +kernel
  obtain ⟨hlength, hvalue⟩ := hsmall k (List.mem_range.mpr (Nat.lt_succ_of_le hk))
  have hneeds : i + 1 ≤ s.stack.length := (List.getElem?_eq_some_iff.mp h).1
  have hcast : castToBigNum (getvch k) s = .ok (setvch (getvch k)) s := by
    simp only [castToBigNum, bind_run, rejectIf_run]
    rw [if_neg (Nat.not_lt.mpr hlength)]
    rfl
  have hrange : ¬ ((k : Int) < 0 ∨ nMax < (k : Int)) := by omega
  simp only [readCount, bind_run, needs_run hneeds, stacktop_run h, hcast, hvalue, rejectIf_run]
  rw [if_neg hrange]
  rfl

/-- On the stack are the number of keys, the keys, the number of signatures,
the signatures and one more element, which is dropped too. -/
theorem exec_checkMultiSig {keys sigs : List Valtype} {dummy : Valtype}
    (hv : View s pc code (getvch keys.length :: (keys ++ getvch sigs.length :: (sigs ++ dummy :: stack))) n)
    (hkeys : keys.length ≤ 16) (hsigs : sigs.length ≤ keys.length) (hcount : n + keys.length ≤ 201)
    (hdelete : ∀ vchSig ∈ sigs, findAndDelete code (CScript.push vchSig) = code) :
    ∃ t, execOp P ctx true .OP_CHECKMULTISIG s = .ok () t ∧
      View t pc code (ofVerdict (greedy (valid P ctx code) keys sigs) :: stack) (n + keys.length) := by
  obtain ⟨spc, scode, sstack, saltstack, svfExec, snOpCount, slog⟩ := s
  obtain ⟨rfl, rfl, rfl, rfl, rfl, hn⟩ := hv
  simp only at hn
  -- the stack from the top, by what is found where
  have hnSigs : (getvch keys.length :: (keys ++ getvch sigs.length :: (sigs ++ dummy :: stack)))[1 + keys.length]? =
      some (getvch sigs.length) := by
    rw [Nat.add_comm, List.getElem?_cons_succ, List.getElem?_append_right (Nat.le_refl _), Nat.sub_self]
    rfl
  have hkeysAt : keys <+: (getvch keys.length :: (keys ++ getvch sigs.length :: (sigs ++ dummy :: stack))).drop 1 :=
    List.prefix_append _ _
  have hsigsAt : sigs <+:
      (getvch keys.length :: (keys ++ getvch sigs.length :: (sigs ++ dummy :: stack))).drop (2 + keys.length) := by
    have hdrop : (getvch keys.length :: (keys ++ getvch sigs.length :: (sigs ++ dummy :: stack))).drop (2 + keys.length) =
        sigs ++ dummy :: stack := by
      rw [Nat.add_comm, List.drop_succ_cons, List.drop_append, Nat.add_sub_cancel_left,
        List.drop_eq_nil_of_le (Nat.le_succ _)]
      rfl
    rw [hdrop]
    exact List.prefix_append _ _
  have hlength : (getvch keys.length :: (keys ++ getvch sigs.length :: (sigs ++ dummy :: stack))).length =
      3 + keys.length + sigs.length + stack.length := by
    simp
    omega
  have hrest : (getvch keys.length :: (keys ++ getvch sigs.length :: (sigs ++ dummy :: stack))).drop
      (3 + keys.length + sigs.length) = stack := by
    rw [show 3 + keys.length + sigs.length = (keys.length + (sigs.length + 1 + 1)) + 1 by omega, List.drop_succ_cons,
      List.drop_append, List.drop_eq_nil_of_le (by omega), Nat.add_sub_cancel_left, List.drop_succ_cons, List.drop_append,
      List.drop_eq_nil_of_le (by omega), Nat.add_sub_cancel_left]
    rfl
  generalize hstack : getvch keys.length :: (keys ++ getvch sigs.length :: (sigs ++ dummy :: stack)) = full at *
  have hfirst : full[0]? = some (getvch keys.length) := by rw [← hstack]; rfl
  obtain ⟨log, hloop⟩ := @checkMultiSigLoop_run P ctx ⟨spc, scode, full, [], [], snOpCount + keys.length, slog⟩ scode keys
    sigs (2 + keys.length) 1 hsigsAt hkeysAt
  refine ⟨⟨spc, scode, ofVerdict (greedy (valid P ctx scode) keys sigs) :: stack, [], [], snOpCount + keys.length,
    log ++ [.result (ofVerdict (greedy (valid P ctx scode) keys sigs))]⟩, ?_, rfl, rfl, rfl, rfl, rfl,
    Nat.add_le_add_right hn _⟩
  have hread := @readCount_run ⟨spc, scode, full, [], [], snOpCount, slog⟩ 0 keys.length 20 hfirst hkeys (by omega)
  have hcounted : count keys.length ⟨spc, scode, full, [], [], snOpCount, slog⟩ =
      .ok () ⟨spc, scode, full, [], [], snOpCount + keys.length, slog⟩ := by
    rw [count_run]
    exact if_neg (by simp only; omega)
  have hread' := @readCount_run ⟨spc, scode, full, [], [], snOpCount + keys.length, slog⟩ (1 + keys.length) sigs.length
    keys.length hnSigs (by omega) (by omega)
  have hneeds := @needs_run ⟨spc, scode, full, [], [], snOpCount + keys.length, slog⟩ (3 + keys.length + sigs.length)
    (by simp only; omega)
  have hdrop := @dropSignatures_run ⟨spc, scode, full, [], [], snOpCount + keys.length, slog⟩ scode sigs (2 + keys.length)
    hsigsAt hdelete
  have hpop := @popMany_run ⟨spc, scode, full, [], [], snOpCount + keys.length, log⟩ (3 + keys.length + sigs.length)
    (by simp only; omega)
  have hplace : 1 + keys.length + 1 = 2 + keys.length := by omega
  have hplace' : 2 + keys.length + 1 = 3 + keys.length := by omega
  rw [Nat.zero_add] at hread
  rw [hplace] at hread'
  rw [hplace'] at hloop hdrop
  simp only [execOp, opCheckMultiSig, bind_run, hread, hcounted, hread', hneeds, get_run, hdrop, hloop, hpop, hrest]
  rfl

/-! ## Templates -/

theorem castToBool_ofVerdict (b : Bool) : castToBool (ofVerdict b) = b := by
  cases b <;> decide

/-- What carries data is a push. -/
theorem le_of_data (h : getOp script = some (opcode, vch, pc)) (hvch : vch ≠ []) : opcode ≤ OP_PUSHDATA4 := by
  cases script with
  | nil => cases h
  | cons b script =>
    simp only [getOp] at h
    split_ifs at h
    all_goals
      obtain ⟨rfl, hdata⟩ := Prod.mk.inj (Option.some.inj h)
      first
        | assumption
        | exact absurd (Prod.mk.inj hdata).1.symm hvch

/-- A key and `OP_CHECKSIG`. -/
theorem halts_pubKey {vchSig vchPubKey : Valtype} (hops : Ops script [(opcode, vchPubKey), (CScript.OP_CHECKSIG, [])])
    (hkey : vchPubKey ≠ []) (hsmall : vchPubKey.length ≤ MAX_SCRIPT_ELEMENT_SIZE) (hstack : stack.length < 999)
    (hdelete : findAndDelete script (CScript.push vchSig) = script) :
    Halts P ctx script script (vchSig :: stack) 0 (ofVerdict (valid P ctx script vchSig vchPubKey) :: stack) := by
  obtain ⟨pc₁, hop₁, hops₁⟩ := hops.tail
  obtain ⟨pc₂, hop₂, hops₂⟩ := hops₁.tail
  obtain rfl := hops₂.eq_nil
  refine halts_turn hop₁ (fun s hv => turn_push hv hop₁ (le_of_data hop₁ hkey) hsmall (Nat.zero_le _) ?_) ?_
  · rw [List.length_cons]
    omega
  · refine halts_exec hop₂ (by decide) (by decide) (by decide) ?_ (fun u hu => exec_checkSig hu hdelete) halts_nil
    rw [List.length_cons]
    omega

/-- The hash of a key is compared, and the key checked. -/
theorem halts_pubKeyHash {vchSig vchPubKey : Valtype} (hops : Ops script [(CScript.OP_DUP, []), (CScript.OP_HASH160, []),
      (opcode, (P.hash160 vchPubKey).toList), (CScript.OP_EQUALVERIFY, []), (CScript.OP_CHECKSIG, [])])
    (hstack : stack.length < 990) (hdelete : findAndDelete script (CScript.push vchSig) = script) :
    Halts P ctx script script (vchPubKey :: vchSig :: stack) 0
      (ofVerdict (valid P ctx script vchSig vchPubKey) :: stack) := by
  obtain ⟨pc₁, hop₁, hops₁⟩ := hops.tail
  obtain ⟨pc₂, hop₂, hops₂⟩ := hops₁.tail
  obtain ⟨pc₃, hop₃, hops₃⟩ := hops₂.tail
  obtain ⟨pc₄, hop₄, hops₄⟩ := hops₃.tail
  obtain ⟨pc₅, hop₅, hops₅⟩ := hops₄.tail
  obtain rfl := hops₅.eq_nil
  have hlength : (P.hash160 vchPubKey).toList.length = 20 := List.Vector.toList_length _
  have hhash : (P.hash160 vchPubKey).toList ≠ [] := by
    intro hnil
    rw [hnil] at hlength
    cases hlength
  refine halts_exec hop₁ (by decide) (by decide) (by decide) ?_ (fun u hu => exec_dup hu) ?_
  · simp only [List.length_cons]
    omega
  refine halts_exec hop₂ (by decide) (by decide) (by decide) ?_ (fun u hu => exec_hash160 hu) ?_
  · simp only [List.length_cons]
    omega
  refine halts_turn hop₃ (fun s hv => turn_push hv hop₃ (le_of_data hop₃ hhash) ?_ (by decide) ?_) ?_
  · rw [hlength]
    decide
  · simp only [List.length_cons]
    omega
  refine halts_exec hop₄ (by decide) (by decide) (by decide) ?_ (fun u hu => exec_equalVerify hu) ?_
  · simp only [List.length_cons]
    omega
  refine halts_exec hop₅ (by decide) (by decide) (by decide) ?_ (fun u hu => exec_checkSig hu hdelete) halts_nil
  simp only [List.length_cons]
  omega

/-- The hash of the redeem script is compared. -/
theorem halts_scriptHash {hash : Valtype} (hops : Ops script [(CScript.OP_HASH160, []), (opcode, hash),
      (CScript.OP_EQUAL, [])]) (hlength : hash.length = 20) (hstack : stack.length < 990) :
    Halts P ctx script script (vch :: stack) 0 (ofVerdict ((P.hash160 vch).toList = hash) :: stack) := by
  obtain ⟨pc₁, hop₁, hops₁⟩ := hops.tail
  obtain ⟨pc₂, hop₂, hops₂⟩ := hops₁.tail
  obtain ⟨pc₃, hop₃, hops₃⟩ := hops₂.tail
  obtain rfl := hops₃.eq_nil
  have hhash : hash ≠ [] := by
    intro hnil
    rw [hnil] at hlength
    cases hlength
  refine halts_exec hop₁ (by decide) (by decide) (by decide) ?_ (fun u hu => exec_hash160 hu) ?_
  · simp only [List.length_cons]
    omega
  refine halts_turn hop₂ (fun s hv => turn_push hv hop₂ (le_of_data hop₂ hhash) ?_ (by decide) ?_) ?_
  · rw [hlength]
    decide
  · simp only [List.length_cons]
    omega
  refine halts_exec hop₃ (by decide) (by decide) (by decide) ?_ (fun u hu => exec_equal hu) halts_nil
  simp only [List.length_cons]
  omega

/-- The signatures on the stack are matched with the keys in the script, both
from the last on. -/
theorem halts_multisig {keys : List (Nat × Valtype)} {sigs : List Valtype} {dummy : Valtype}
    (hops : Ops script ((sigs.length + (OP_1 - 1), []) :: (keys ++
      [(keys.length + (OP_1 - 1), []), (CScript.OP_CHECKMULTISIG, [])])))
    (hkeys : ∀ key ∈ keys, key.2 ≠ [] ∧ key.2.length ≤ MAX_SCRIPT_ELEMENT_SIZE) (hsigs : 1 ≤ sigs.length)
    (hle : sigs.length ≤ keys.length) (hmax : keys.length ≤ 16) (hstack : stack.length < 900)
    (hpush : ∀ key ∈ keys, key.1 ≤ OP_PUSHDATA4)
    (hdelete : ∀ vchSig ∈ sigs, findAndDelete script (CScript.push vchSig) = script) :
    Halts P ctx script script (sigs ++ dummy :: stack) 0
      (ofVerdict (greedy (valid P ctx script) (keys.map Prod.snd).reverse sigs) :: stack) := by
  obtain ⟨pc₁, hop₁, hops₁⟩ := hops.tail
  have hnumber : ∀ k : Nat, k + (OP_1 - 1) - (OP_1 - 1) = k := fun k => Nat.add_sub_cancel k _
  have hopcode : ∀ k : Nat, 1 ≤ k → k ≤ 16 → OP_1 ≤ k + (OP_1 - 1) ∧ k + (OP_1 - 1) ≤ OP_16 := by
    intro k h₁ h₂
    simp only [OP_1, OP_16]
    omega
  obtain ⟨hm₁, hm₂⟩ := hopcode sigs.length hsigs (by omega)
  obtain ⟨hn₁, hn₂⟩ := hopcode keys.length (by omega) hmax
  refine halts_turn hop₁ (fun s hv => turn_number hv hop₁ hm₁ hm₂ (Nat.zero_le _) ?_) ?_
  · simp only [List.length_append, List.length_cons]
    omega
  rw [hnumber]
  refine halts_pushes hops₁ hpush (fun key hkey => (hkeys key hkey).2) ?_ (Nat.zero_le _) fun pc₂ hops₂ => ?_
  · simp only [List.length_append, List.length_cons]
    omega
  obtain ⟨pc₃, hop₃, hops₃⟩ := hops₂.tail
  obtain ⟨pc₄, hop₄, hops₄⟩ := hops₃.tail
  obtain rfl := hops₄.eq_nil
  have hlength : (keys.map Prod.snd).reverse.length = keys.length := by simp
  refine halts_turn hop₃ (fun s hv => turn_number hv hop₃ hn₁ hn₂ (Nat.zero_le _) ?_) ?_
  · simp only [List.length_append, List.length_cons, hlength]
    omega
  rw [hnumber]
  have hweight : 0 + weight CScript.OP_CHECKMULTISIG + (keys.map Prod.snd).reverse.length ≤ 201 := by
    have hone : weight CScript.OP_CHECKMULTISIG = 1 := by decide
    omega
  rw [← hlength]
  refine halts_exec hop₄ (by decide) (by decide) (by decide) ?_
    (fun u hu => exec_checkMultiSig hu (by omega) (by omega) hweight hdelete) halts_nil
  simp only [List.length_cons]
  omega

end Machine

end Pinkcoin
