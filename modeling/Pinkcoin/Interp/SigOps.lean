/-
What a script counts for and what it costs. The count goes over the script
from byte to byte and looks at the opcode before a `CHECKMULTISIG`; a run
takes branches, and reads the number of keys from the stack. The calls of
`CheckSig` in a run are never more than were counted.
-/
import Pinkcoin.Lib.Costs
import Pinkcoin.Interp.Bounds

namespace Pinkcoin

open StateError Cost
open CScript (getOp sigOpLoop getSigOpCount getSigOpCountFor lastPush isPayToScriptHash OP_PUSHDATA4 OP_1 OP_16
  OP_INVALIDOPCODE)

/-! ## The count -/

/-- What an opcode counts for after another. -/
def sigOps (fAccurate : Bool) (lastOpcode opcode : Nat) : Nat :=
  if opcode = CScript.OP_CHECKSIG ∨ opcode = CScript.OP_CHECKSIGVERIFY then 1
  else if opcode = CScript.OP_CHECKMULTISIG ∨ opcode = CScript.OP_CHECKMULTISIGVERIFY then
    if fAccurate ∧ OP_1 ≤ lastOpcode ∧ lastOpcode ≤ OP_16 then lastOpcode - (OP_1 - 1) else 20
  else 0

variable {fAccurate : Bool} {fuel lastOpcode opcode n : Nat} {pc pc' script : CScript} {vch : Valtype}

theorem sigOpLoop_some (h : getOp pc = some (opcode, vch, pc')) :
    sigOpLoop fAccurate (fuel + 1) lastOpcode pc n =
      sigOpLoop fAccurate fuel opcode pc' (n + sigOps fAccurate lastOpcode opcode) := by
  simp only [sigOpLoop, h]
  rfl

theorem sigOpLoop_none (h : getOp pc = none) : sigOpLoop fAccurate (fuel + 1) lastOpcode pc n = n := by
  simp only [sigOpLoop, h]

/-- The count so far is added to. -/
theorem sigOpLoop_add (m : Nat) :
    sigOpLoop fAccurate fuel lastOpcode pc (m + n) = m + sigOpLoop fAccurate fuel lastOpcode pc n := by
  induction fuel generalizing lastOpcode pc n with
  | zero => rfl
  | succ fuel ih =>
    cases hop : getOp pc with
    | none => rw [sigOpLoop_none hop, sigOpLoop_none hop]
    | some instruction =>
      obtain ⟨opcode, vch, pc'⟩ := instruction
      rw [sigOpLoop_some hop, sigOpLoop_some hop, Nat.add_assoc, ih]

theorem sigOps_le_twenty : sigOps fAccurate lastOpcode opcode ≤ 20 := by
  unfold sigOps
  split
  next => decide
  next =>
    split
    next =>
      split
      next hlast =>
        simp only [OP_1, OP_16] at hlast ⊢
        omega
      next => exact Nat.le_refl 20
    next => exact Nat.zero_le 20

theorem sigOps_accurate_le : sigOps true lastOpcode opcode ≤ sigOps false lastOpcode opcode := by
  have htwenty := @sigOps_le_twenty true lastOpcode opcode
  unfold sigOps at htwenty ⊢
  split
  next => exact Nat.le_refl 1
  next hone =>
    rw [if_neg hone] at htwenty
    split
    next hmany =>
      rw [if_pos hmany] at htwenty
      simpa using htwenty
    next => exact Nat.le_refl 0

/-- The accurate count is the smaller one. -/
theorem sigOpLoop_accurate_le {m : Nat} (h : m ≤ n) :
    sigOpLoop true fuel lastOpcode pc m ≤ sigOpLoop false fuel lastOpcode pc n := by
  induction fuel generalizing lastOpcode pc m n with
  | zero => exact h
  | succ fuel ih =>
    cases hop : getOp pc with
    | none =>
      rw [sigOpLoop_none hop, sigOpLoop_none hop]
      exact h
    | some instruction =>
      obtain ⟨opcode, vch, pc'⟩ := instruction
      rw [sigOpLoop_some hop, sigOpLoop_some hop]
      exact ih (Nat.add_le_add h sigOps_accurate_le)

theorem sigOpLoop_le : sigOpLoop fAccurate fuel lastOpcode pc n ≤ n + 20 * fuel := by
  induction fuel generalizing lastOpcode pc n with
  | zero => exact Nat.le_refl n
  | succ fuel ih =>
    cases hop : getOp pc with
    | none =>
      rw [sigOpLoop_none hop]
      exact Nat.le_add_right n _
    | some instruction =>
      obtain ⟨opcode, vch, pc'⟩ := instruction
      rw [sigOpLoop_some hop]
      have hrest := @ih opcode (n + sigOps fAccurate lastOpcode opcode) pc'
      have htwenty := @sigOps_le_twenty fAccurate lastOpcode opcode
      omega

/-- A script of up to 200 megabytes does not overflow the `unsigned int` the
source counts in. -/
theorem getSigOpCount_lt (h : script.length ≤ 200000000) : getSigOpCount script fAccurate < 2 ^ 32 := by
  have hle := @sigOpLoop_le fAccurate script.length OP_INVALIDOPCODE 0 script
  unfold getSigOpCount
  omega

/-! ## The cost -/

def Event.isCheckSig : Event → Bool
  | checkSig _ _ _ => true
  | _ => false

/-- How many times `CheckSig` was called. -/
def checks (log : List Event) : Nat := log.countP Event.isCheckSig

namespace Machine

/-- The calls of `CheckSig` so far. -/
def checked (s : Machine) : Nat := checks s.log

variable {P : ScriptParams} {ctx : SigContext} {s s' t : Machine} {scriptCode : CScript}

theorem free_stacktop (i : Nat) : Costs checked 0 (stacktop i) := by
  refine costs_get fun s => ?_
  split
  next vch _ => exact costs_ite (fun _ => costs_throw _) fun _ => costs_pure vch
  next => exact costs_throw _

theorem free_needs (k : Nat) : Costs checked 0 (needs k) := costs_get fun _ => costs_rejectIf _ _

theorem free_popstack : Costs checked 0 popstack := by
  intro s
  cases hstack : s.stack with
  | nil =>
    have hrun : popstack s = .error .outOfRange s := by
      simp only [popstack, bind_run, get_run, hstack]
      rfl
    rw [hrun]
    exact Nat.le_refl _
  | cons vch stack =>
    have hrun : popstack s = .ok () { s with stack := stack } := by
      simp only [popstack, bind_run, get_run, hstack, set_run]
    rw [hrun]
    exact Nat.le_refl _

theorem checks_append_of_not {log : List Event} {event : Event} (h : event.isCheckSig = false) :
    checks (log ++ [event]) = checks log := by
  simp [checks, h]

theorem free_pushResult (vch : Valtype) : Costs checked 0 (pushResult vch) := by
  refine costs_after (costs_modify fun s => ?_) fun _ => costs_modify fun s => Nat.le_refl _
  exact Nat.le_of_eq (checks_append_of_not rfl)

theorem free_pushConstant (vch : Valtype) : Costs checked 0 (pushConstant vch) := by
  refine costs_after (costs_modify fun s => ?_) fun _ => costs_modify fun s => Nat.le_refl _
  exact Nat.le_of_eq (checks_append_of_not rfl)

theorem free_verifyTop (fValue : Bool) : Costs checked 0 (verifyTop fValue) :=
  costs_ite (fun _ => free_popstack) fun _ => costs_throw _

theorem free_castToBigNum (vch : Valtype) : Costs checked 0 (castToBigNum vch) :=
  costs_after (costs_rejectIf _ _) fun _ => costs_pure _

theorem free_count (k : Nat) : Costs checked 0 (count k) :=
  costs_after (costs_modify fun _ => Nat.le_refl _) fun _ => costs_get fun _ => costs_rejectIf _ _

theorem free_readCount (i : Nat) (nMax : Int) : Costs checked 0 (readCount i nMax) := by
  refine costs_after (free_needs i) fun _ => ?_
  refine costs_after (free_stacktop i) fun vch => ?_
  refine costs_after (free_castToBigNum vch) fun bn => ?_
  exact costs_after (costs_rejectIf _ _) fun _ => costs_pure _

theorem free_dropSignatures (k isig : Nat) (scriptCode : CScript) :
    Costs checked 0 (dropSignatures k isig scriptCode) := by
  induction k generalizing isig scriptCode with
  | zero => exact costs_pure _
  | succ k ih => exact costs_after (free_stacktop isig) fun vchSig => ih _ _

theorem free_popMany (k : Nat) : Costs checked 0 (popMany k) := by
  induction k with
  | zero => exact costs_pure ()
  | succ k ih => exact costs_after free_popstack fun _ => ih

theorem costs_checkOne (vchSig vchPubKey : Valtype) : Costs checked 1 (checkOne P ctx vchSig vchPubKey scriptCode) := by
  refine costs_ite (fun _ => ?_) fun _ => costs_pure false
  refine costs_bind (b := 1) (c := 0) (costs_modify fun s => ?_) fun _ => costs_pure _
  simp [checked, checks, Event.isCheckSig]

/-- What is left after a check: the result, and a true top dropped. -/
theorem free_finish (fSuccess fVerify : Bool) : Costs checked 0 (do
    pushResult (if fSuccess then vchTrue else vchFalse)
    if fVerify then verifyTop fSuccess) := by
  refine costs_after (free_pushResult _) fun _ => ?_
  exact costs_ite (fun _ => free_verifyTop fSuccess) fun _ => costs_pure ()

theorem costs_opCheckSig (fVerify : Bool) : Costs checked 1 (opCheckSig P ctx fVerify) := by
  refine costs_after (free_needs 2) fun _ => ?_
  refine costs_after (free_stacktop 2) fun vchSig => ?_
  refine costs_after (free_stacktop 1) fun vchPubKey => ?_
  refine costs_get fun s => ?_
  refine costs_bind (b := 1) (c := 0) (costs_checkOne vchSig vchPubKey) fun fSuccess => ?_
  refine costs_after free_popstack fun _ => ?_
  exact costs_after free_popstack fun _ => free_finish fSuccess fVerify

/-- Every turn of the loop takes a key. -/
theorem costs_checkMultiSigLoop (nKeysCount nSigsCount isig ikey : Nat) :
    Costs checked nKeysCount (checkMultiSigLoop P ctx scriptCode nKeysCount nSigsCount isig ikey) := by
  induction nKeysCount generalizing nSigsCount isig ikey with
  | zero =>
    cases nSigsCount with
    | zero => exact costs_pure true
    | succ nSigsCount => exact costs_pure false
  | succ nKeysCount ih =>
    cases nSigsCount with
    | zero => exact costs_pure true
    | succ nSigsCount =>
      refine costs_after (free_stacktop isig) fun vchSig => ?_
      refine costs_after (free_stacktop ikey) fun vchPubKey => ?_
      rw [Nat.add_comm]
      refine costs_bind (costs_checkOne vchSig vchPubKey) fun fOk => ?_
      exact costs_ite (fun _ => costs_pure false) fun _ => ih _ _ _

/-! ## The number of keys -/

theorem getint_getvch {n : Nat} (h : n ≤ 16) : (getint (setvch (getvch n))).toNat = n := by
  have hall : ∀ n ∈ List.range 17, (getint (setvch (getvch (n : Nat)))).toNat = n := by decide +kernel
  exact hall n (List.mem_range.mpr (Nat.lt_succ_of_le h))

theorem stacktop_ok {i : Nat} (h : stacktop i s = .ok vch t) : t = s ∧ s.stack[i - 1]? = some vch := by
  simp only [stacktop, bind_run, get_run] at h
  cases htop : s.stack[i - 1]? with
  | none =>
    rw [htop] at h
    cases h
  | some vch' =>
    by_cases hi : i = 0
    · simp only [htop, if_pos hi] at h
      cases h
    · simp only [htop, if_neg hi] at h
      cases h
      exact ⟨rfl, rfl⟩

theorem needs_ok {k : Nat} (h : needs k s = .ok () t) : t = s := by
  obtain ⟨u, s₁, hget, h⟩ := bind_ok.mp h
  obtain ⟨rfl, rfl⟩ := get_ok.mp hget
  exact (rejectIf_ok.mp h).2

/-- The number of keys is at most 20, and the one that was pushed. -/
theorem readCount_keys {k : Nat} (h : readCount 1 20 s = .ok k t) :
    k ≤ 20 ∧ ∀ n : Nat, n ≤ 16 → s.stack.head? = some (getvch n) → k = n := by
  obtain ⟨_, s₁, hneeds, h⟩ := bind_ok.mp h
  obtain ⟨vch, s₂, htop, h⟩ := bind_ok.mp h
  obtain ⟨bn, s₃, hcast, h⟩ := bind_ok.mp h
  obtain ⟨_, s₄, hrange, h⟩ := bind_ok.mp h
  obtain ⟨hk, -⟩ := pure_ok.mp h
  obtain ⟨hrange, -⟩ := rejectIf_ok.mp hrange
  obtain ⟨_, s₅, -, hcast⟩ := bind_ok.mp hcast
  obtain ⟨hbn, -⟩ := pure_ok.mp hcast
  obtain rfl := needs_ok hneeds
  obtain ⟨-, hvch⟩ := stacktop_ok htop
  refine ⟨by omega, ?_⟩
  intro n hn htop'
  rw [List.head?_eq_getElem?, hvch] at htop'
  obtain rfl := Option.some.inj htop'
  rw [← hk, ← hbn, getint_getvch hn]

/-- The keys are counted before they are tried. -/
theorem costs_opCheckMultiSig {n : Nat} (fVerify : Bool) (h : ∀ k t, readCount 1 20 s = .ok k t → k ≤ n) :
    checked (endState (opCheckMultiSig P ctx fVerify s)) ≤ checked s + n := by
  have hread := free_readCount 1 20 s
  unfold opCheckMultiSig
  rw [bind_run]
  cases hrun : readCount 1 20 s with
  | error e t =>
    rw [hrun, endState_error] at hread
    simp only [endState_error]
    omega
  | ok k t =>
    rw [hrun, endState_ok] at hread
    have hk := h k t hrun
    have hrest : Costs checked k (do
        count k
        let nSigsCount ← readCount (2 + k) k
        let i := 3 + k + nSigsCount
        needs i
        let s ← get
        let scriptCode ← dropSignatures nSigsCount (3 + k) s.pbegincodehash
        let fSuccess ← checkMultiSigLoop P ctx scriptCode k nSigsCount (3 + k) 2
        popMany i
        pushResult (if fSuccess then vchTrue else vchFalse)
        if fVerify then verifyTop fSuccess) := by
      refine costs_after (free_count k) fun _ => ?_
      refine costs_after (free_readCount _ _) fun nSigsCount => ?_
      refine costs_after (free_needs _) fun _ => ?_
      refine costs_get fun u => ?_
      refine costs_after (free_dropSignatures _ _ _) fun scriptCode => ?_
      refine costs_bind (b := k) (c := 0) (costs_checkMultiSigLoop _ _ _ _) fun fSuccess => ?_
      exact costs_after (free_popMany _) fun _ => free_finish fSuccess fVerify
    have hcost := hrest t
    simp only at hcost ⊢
    omega

end Machine

/-! ## Opcodes that call `CheckSig` -/

/-- The bytes of the opcodes that call `CheckSig`. -/
theorem Opcode.ofNat_signs {opcode : Nat} (h : (Opcode.ofNat opcode).Signs) :
    opcode = CScript.OP_CHECKSIG ∧ Opcode.ofNat opcode = .OP_CHECKSIG ∨
      opcode = CScript.OP_CHECKSIGVERIFY ∧ Opcode.ofNat opcode = .OP_CHECKSIGVERIFY ∨
      opcode = CScript.OP_CHECKMULTISIG ∧ Opcode.ofNat opcode = .OP_CHECKMULTISIG ∨
      opcode = CScript.OP_CHECKMULTISIGVERIFY ∧ Opcode.ofNat opcode = .OP_CHECKMULTISIGVERIFY := by
  have hbytes : ∀ p ∈ opcodes, (p.2 = .OP_CHECKSIG → p.1 = CScript.OP_CHECKSIG) ∧
      (p.2 = .OP_CHECKSIGVERIFY → p.1 = CScript.OP_CHECKSIGVERIFY) ∧
      (p.2 = .OP_CHECKMULTISIG → p.1 = CScript.OP_CHECKMULTISIG) ∧
      (p.2 = .OP_CHECKMULTISIGVERIFY → p.1 = CScript.OP_CHECKMULTISIGVERIFY) := by decide
  unfold Opcode.ofNat at h ⊢
  split at h
  next => simp [Opcode.Signs] at h
  next hrange =>
    rw [if_neg hrange]
    cases hlook : opcodes.lookup opcode with
    | none =>
      rw [hlook] at h
      simp [Opcode.Signs] at h
    | some op =>
      rw [hlook, Option.getD_some] at h
      obtain ⟨l, _, hsplit, -⟩ := List.lookup_eq_some_iff.mp hlook
      have hmem : (opcode, op) ∈ opcodes := by
        rw [hsplit]
        simp
      obtain ⟨hone, honeVerify, hmany, hmanyVerify⟩ := hbytes (opcode, op) hmem
      rcases h with h | h | h | h
      · exact .inl ⟨hone h, h⟩
      · exact .inr (.inl ⟨honeVerify h, h⟩)
      · exact .inr (.inr (.inl ⟨hmany h, h⟩))
      · exact .inr (.inr (.inr ⟨hmanyVerify h, h⟩))

namespace Machine

variable {P : ScriptParams} {ctx : SigContext} {s s' t : Machine}

/-- An event that is no call of `CheckSig`. -/
def Unsigned (event : Event) : Prop := event.isCheckSig = false

theorem Noted.checked_eq (h : Noted Unsigned s t) : checked t = checked s := by
  obtain ⟨events, hlog, hunsigned⟩ := h
  have hzero : events.countP Event.isCheckSig = 0 := by
    refine List.countP_eq_zero.mpr fun event hevent => ?_
    rw [hunsigned event hevent]
    decide
  rw [checked, checks, hlog, List.countP_append, hzero]
  rfl

/-- The other opcodes call it not once. -/
theorem free_execOp {op : Opcode} (fExec : Bool) (hop : op ≠ .disabled) (hsigns : ¬ op.Signs)
    (hnumber : ∀ n, op = .number n → n.natAbs ≤ 16) : Costs checked 0 (execOp P ctx fExec op) := by
  intro s
  have hsmall : Small Unsigned := ⟨fun _ _ => rfl, fun _ _ => rfl⟩
  have hrun := @uses_execOp _ P ctx hsmall op fExec (fun h => absurd h hsigns) hop hnumber s (Nat.zero_le _)
  cases hexec : execOp P ctx fExec op s with
  | ok a t =>
    rw [hexec] at hrun
    have hnoted : Noted Unsigned s t := hrun.2.2.log
    exact Nat.le_of_eq hnoted.checked_eq
  | error e t =>
    rw [hexec] at hrun
    have hnoted : Noted Unsigned s t := hrun.2
    exact Nat.le_of_eq hnoted.checked_eq

/-! ## Instructions -/

/-- After a number, where the branch is taken, it is the top of the stack. -/
def Top (lastOpcode : Nat) (s : Machine) : Prop :=
  OP_1 ≤ lastOpcode → lastOpcode ≤ OP_16 → s.fExec = true →
    s.stack.head? = some (getvch ((lastOpcode - (OP_1 - 1) : Nat) : Int))

theorem ofNat_of_number (h₁ : OP_1 ≤ opcode) (h₂ : opcode ≤ OP_16) :
    Opcode.ofNat opcode = .number ((opcode - (OP_1 - 1) : Nat) : Int) := by
  simp only [OP_1, OP_16] at h₁ h₂
  have hcast : (opcode : Int) - (((0x51 : Nat) : Int) - 1) = ((opcode - (0x51 - 1) : Nat) : Int) := by omega
  have hrange : OP_1NEGATE ≤ opcode ∧ opcode ≤ OP_16 ∧ opcode ≠ OP_RESERVED := by
    simp only [OP_1NEGATE, OP_16, OP_RESERVED]
    omega
  rw [Opcode.ofNat, if_pos hrange, OP_1, hcast]

/-- The keys of a `CHECKMULTISIG` are those it was counted for. -/
theorem keys_le_sigOps (hlast : Top lastOpcode s) (hexec : s.fExec = true)
    (hop : opcode = CScript.OP_CHECKMULTISIG ∨ opcode = CScript.OP_CHECKMULTISIGVERIFY) {k : Nat}
    (h : readCount 1 20 s = .ok k t) : k ≤ sigOps true lastOpcode opcode := by
  obtain ⟨htwenty, htop⟩ := readCount_keys h
  have hone : ¬ (opcode = CScript.OP_CHECKSIG ∨ opcode = CScript.OP_CHECKSIGVERIFY) := by
    simp only [CScript.OP_CHECKMULTISIG, CScript.OP_CHECKMULTISIGVERIFY, CScript.OP_CHECKSIG,
      CScript.OP_CHECKSIGVERIFY] at hop ⊢
    omega
  rw [sigOps, if_neg hone, if_pos hop]
  split
  next hnumber =>
    refine Nat.le_of_eq (htop _ ?_ (hlast hnumber.2.1 hnumber.2.2 hexec))
    have hle := hnumber.2.2
    simp only [OP_1, OP_16] at hle ⊢
    omega
  next => exact htwenty

/-- **An opcode costs what it counts for.** -/
theorem execOp_checked (hop : Opcode.ofNat opcode ≠ .disabled) (hlast : Top lastOpcode s) {fExec : Bool}
    (hexec : (Opcode.ofNat opcode).Signs → s.fExec = true) :
    checked (endState (execOp P ctx fExec (.ofNat opcode) s)) ≤ checked s + sigOps true lastOpcode opcode := by
  by_cases hsigns : (Opcode.ofNat opcode).Signs
  · have hbranch := hexec hsigns
    rcases Opcode.ofNat_signs hsigns with ⟨hbyte, hop⟩ | ⟨hbyte, hop⟩ | ⟨hbyte, hop⟩ | ⟨hbyte, hop⟩
    · have hone : sigOps true lastOpcode opcode = 1 := if_pos (.inl hbyte)
      rw [hop, hone]
      exact costs_opCheckSig false s
    · have hone : sigOps true lastOpcode opcode = 1 := if_pos (.inr hbyte)
      rw [hop, hone]
      exact costs_opCheckSig true s
    · rw [hop]
      exact costs_opCheckMultiSig false fun k t hkeys => keys_le_sigOps hlast hbranch (.inl hbyte) hkeys
    · rw [hop]
      exact costs_opCheckMultiSig true fun k t hkeys => keys_le_sigOps hlast hbranch (.inr hbyte) hkeys
  · have hfree := @free_execOp P ctx (.ofNat opcode) fExec hop hsigns (fun n hn => Opcode.ofNat_number hn) s
    exact Nat.le_trans hfree (Nat.le_add_right _ _)

theorem checked_noted (s : Machine) : checked (noted opcode s) = checked s := checks_append_of_not rfl

/-- An opcode that signs is no branch, so that it is executed in a branch that
is taken only. -/
theorem fExec_of_signs {fExec : Bool} (h : fExec = true ∨ (OP_IF ≤ opcode ∧ opcode ≤ OP_ENDIF))
    (hsigns : (Opcode.ofNat opcode).Signs) : fExec = true := by
  rcases h with h | h
  · exact h
  · have hbyte : 0xac ≤ opcode := by
      rcases Opcode.ofNat_signs hsigns with ⟨rfl, -⟩ | ⟨rfl, -⟩ | ⟨rfl, -⟩ | ⟨rfl, -⟩ <;> decide
    have hend := h.2
    simp only [OP_ENDIF] at hend
    omega

theorem dispatch_checked (hop : Opcode.ofNat opcode ≠ .disabled) (hlast : Top lastOpcode s) :
    checked (endState (dispatch P ctx s.fExec opcode vch s)) ≤ checked s + sigOps true lastOpcode opcode := by
  unfold dispatch
  by_cases hpush : s.fExec ∧ opcode ≤ OP_PUSHDATA4
  · rw [if_pos hpush]
    exact Nat.le_trans (free_pushConstant vch s) (Nat.le_add_right _ _)
  · rw [if_neg hpush]
    by_cases hexec : s.fExec ∨ (OP_IF ≤ opcode ∧ opcode ≤ OP_ENDIF)
    · have hnoted := @checked_noted opcode s
      rw [if_pos hexec, ← hnoted]
      have hlast' : Top lastOpcode (noted opcode s) := hlast
      exact execOp_checked hop hlast' (fExec_of_signs hexec)
    · rw [if_neg hexec]
      exact Nat.le_add_right _ _

/-- A number is pushed where the branch is taken. -/
theorem dispatch_top (h : dispatch P ctx s.fExec opcode vch s = .ok () t) : Top opcode t := by
  intro h₁ h₂ hexec
  have hpush : ¬ (s.fExec ∧ opcode ≤ OP_PUSHDATA4) := by
    simp only [OP_1, OP_PUSHDATA4] at h₁ ⊢
    omega
  have hbranch : ¬ (OP_IF ≤ opcode ∧ opcode ≤ OP_ENDIF) := by
    simp only [OP_16, OP_IF] at h₂ ⊢
    omega
  rw [dispatch, if_neg hpush] at h
  by_cases hs : s.fExec
  · rw [if_pos (.inl hs), ofNat_of_number h₁ h₂] at h
    cases h
    rfl
  · rw [if_neg (by simp [hs, hbranch])] at h
    cases h
    exact absurd hexec hs

theorem evalStep_checked (h : getOp s.pc = some (opcode, vch, pc)) (hlast : Top lastOpcode s) :
    checked (endState (evalStep P ctx s)) ≤ checked s + sigOps true lastOpcode opcode := by
  rw [evalStep_run h]
  split_ifs with hsize hlimit hdisabled
  · exact Nat.le_add_right _ _
  · exact Nat.le_add_right _ _
  · exact Nat.le_add_right _ _
  · have hlast' : Top lastOpcode (entered s opcode pc) := hlast
    have hcost := @dispatch_checked _ _ vch P ctx _ hdisabled hlast'
    change checked (endState (dispatch P ctx s.fExec opcode vch (entered s opcode pc))) ≤ checked s + _ at hcost
    cases hrun : dispatch P ctx s.fExec opcode vch (entered s opcode pc) with
    | error e t =>
      rw [hrun, endState_error] at hcost
      exact hcost
    | ok a t =>
      rw [hrun, endState_ok] at hcost
      simp only
      split_ifs
      · exact hcost
      · exact hcost

theorem evalStep_next (h : getOp s.pc = some (opcode, vch, pc)) (hstep : evalStep P ctx s = .ok () t) :
    dispatch P ctx s.fExec opcode vch (entered s opcode pc) = .ok () t ∧ t.pc = pc := by
  rw [evalStep_run h] at hstep
  split_ifs at hstep with hsize hlimit hdisabled
  have hspec := @dispatch_spec P ctx opcode vch s.fExec (Nat.le_of_not_lt hsize) hdisabled (entered s opcode pc)
  cases hrun : dispatch P ctx s.fExec opcode vch (entered s opcode pc) with
  | error e u =>
    rw [hrun] at hstep
    cases hstep
  | ok a u =>
    rw [hrun] at hstep hspec
    simp only at hstep
    split_ifs at hstep
    cases hstep
    exact ⟨rfl, hspec.1⟩

/-- **The run and the count side by side**: from an instruction on, what is
still called is at most what is still counted. -/
theorem evalLoop_checked (hlast : Top lastOpcode s) :
    checked (endState (evalLoop P ctx fuel s)) ≤ checked s + sigOpLoop true fuel lastOpcode s.pc 0 := by
  induction fuel generalizing lastOpcode s with
  | zero => exact Nat.le_refl _
  | succ fuel ih =>
    simp only [evalLoop, bind_run, get_run]
    by_cases hpc : s.pc = []
    · rw [if_pos hpc]
      exact Nat.le_add_right _ _
    · rw [if_neg hpc, bind_run]
      cases hop : getOp s.pc with
      | none =>
        have hrun : evalStep P ctx s = .error .refused s := by
          simp only [evalStep, bind_run, get_run, hop]
          rfl
        rw [hrun]
        exact Nat.le_add_right _ _
      | some instruction =>
        obtain ⟨opcode, vch, pc⟩ := instruction
        have hcost := @evalStep_checked _ _ _ _ P ctx _ hop hlast
        rw [sigOpLoop_some hop, Nat.add_comm 0, sigOpLoop_add]
        cases hstep : evalStep P ctx s with
        | error e t =>
          rw [hstep, endState_error] at hcost
          simp only [endState_error]
          omega
        | ok a t =>
          rw [hstep, endState_ok] at hcost
          obtain ⟨hdispatch, hnext⟩ := evalStep_next hop hstep
          have htop : Top opcode t := @dispatch_top _ vch P ctx (entered s opcode pc) t hdispatch
          have hrest := ih htop
          rw [hnext] at hrest
          simp only
          omega

theorem top_start {stack : List Valtype} : Top OP_INVALIDOPCODE (start script stack) := by
  intro _ h
  simp [OP_INVALIDOPCODE, OP_16] at h

end Machine

open Machine

variable {P : ScriptParams} {ctx : SigContext} {stack : List Valtype}

theorem evalScript_checks : checks (evalScript P ctx stack script).2.log ≤ getSigOpCount script true := by
  unfold evalScript
  split
  next => exact Nat.zero_le _
  next =>
    have hrun := @evalLoop_checked script.length OP_INVALIDOPCODE P ctx _ (@top_start script stack)
    have hstart : checked (start script stack) = 0 := rfl
    rw [hstart, Nat.zero_add] at hrun
    split
    next a t hloop =>
      rw [hloop] at hrun
      exact hrun
    next e t hloop =>
      rw [hloop] at hrun
      exact hrun

/-! ## Redeem scripts -/

/-- A number pushed by an opcode is a script without any operation that is
counted. -/
theorem getSigOpCount_number {n : Int} (h₁ : -1 ≤ n) (h₂ : n ≤ 16) : getSigOpCount (getvch n) true = 0 := by
  have hall : ∀ k ∈ List.range 18, getSigOpCount (getvch ((k : Int) - 1)) true = 0 := by decide +kernel
  have hk := hall (n + 1).toNat (List.mem_range.mpr (by omega))
  have hcast : (((n + 1).toNat : Nat) : Int) - 1 = n := by omega
  rwa [hcast] at hk

/-- The top of the stack counts for no more than the data. -/
def Covered (s : Machine) (data : Valtype) : Prop :=
  ∀ top, s.stack.head? = some top → getSigOpCount top true ≤ getSigOpCount data true

/-- An instruction that pushes leaves on the top what is read off the script,
or a number. -/
theorem evalStep_push {s t : Machine} (h : getOp s.pc = some (opcode, vch, pc)) (hop : opcode ≤ OP_16)
    (hexec : s.vfExec = []) (hstep : evalStep P ctx s = .ok () t) : t.vfExec = [] ∧ Covered t vch := by
  obtain ⟨hrun, -⟩ := evalStep_next h hstep
  have hfExec : s.fExec = true := by
    rw [Machine.fExec, hexec]
    rfl
  rw [hfExec] at hrun
  by_cases hconstant : opcode ≤ OP_PUSHDATA4
  · rw [dispatch, if_pos ⟨rfl, hconstant⟩] at hrun
    cases hrun
    refine ⟨hexec, ?_⟩
    intro top htop
    cases htop
    exact Nat.le_refl _
  · rw [dispatch, if_neg (fun h => hconstant h.2), if_pos (.inl rfl)] at hrun
    by_cases hreserved : opcode = OP_RESERVED
    · subst hreserved
      have hunknown : Opcode.ofNat OP_RESERVED = .unknown := by decide
      rw [hunknown] at hrun
      cases hrun
    · have hrange : OP_1NEGATE ≤ opcode ∧ opcode ≤ OP_16 ∧ opcode ≠ OP_RESERVED := by
        refine ⟨?_, hop, hreserved⟩
        simp only [OP_PUSHDATA4, OP_1NEGATE] at hconstant ⊢
        omega
      rw [Opcode.ofNat, if_pos hrange] at hrun
      cases hrun
      refine ⟨hexec, ?_⟩
      intro top htop
      cases htop
      have hbounds := hrange
      simp only [OP_1NEGATE, OP_16] at hbounds
      rw [getSigOpCount_number (by simp only [OP_1]; omega) (by simp only [OP_1]; omega)]
      exact Nat.zero_le _

/-- Through a script that only pushes, the top of the stack is covered by what
was pushed last. -/
theorem evalLoop_push {s t : Machine} {data last : Valtype} (hpush : lastPush fuel s.pc data = some last)
    (hexec : s.vfExec = []) (hdata : Covered s data) (hrun : evalLoop P ctx fuel s = .ok () t) : Covered t last := by
  induction fuel generalizing s data with
  | zero =>
    cases hpc : s.pc with
    | nil =>
      rw [hpc] at hpush
      cases hpush
      cases hrun
      exact hdata
    | cons b pc =>
      rw [hpc] at hpush
      cases hpush
  | succ fuel ih =>
    simp only [evalLoop, Machine.bind_run, Machine.get_run] at hrun
    cases hpc : s.pc with
    | nil =>
      rw [hpc] at hpush
      cases hpush
      rw [if_pos hpc] at hrun
      cases hrun
      exact hdata
    | cons b rest =>
      rw [if_neg (by simp [hpc]), Machine.bind_run] at hrun
      rw [hpc, lastPush, ← hpc] at hpush
      cases hop : getOp s.pc with
      | none =>
        rw [hop] at hpush
        cases hpush
      | some instruction =>
        obtain ⟨opcode, vch, pc⟩ := instruction
        rw [hop] at hpush
        simp only at hpush
        split_ifs at hpush with hle
        cases hstep : evalStep P ctx s with
        | error e u =>
          rw [hstep] at hrun
          cases hrun
        | ok a u =>
          rw [hstep] at hrun
          obtain ⟨hexec', hcovered⟩ := evalStep_push hop (Nat.le_of_not_lt hle) hexec hstep
          rw [← (evalStep_next hop hstep).2] at hpush
          exact ih hpush hexec' hcovered hrun

theorem evalScript_true (h : (evalScript P ctx stack script).1 = true) :
    evalLoop P ctx script.length (start script stack) = .ok () (evalScript P ctx stack script).2 := by
  unfold evalScript at h ⊢
  split_ifs at h ⊢ with hlong
  cases hrun : evalLoop P ctx script.length (start script stack) with
  | ok a t => rfl
  | error e t =>
    rw [hrun] at h
    cases h

/-- The redeem script is run at last, for a script that only pushes. -/
theorem verifyScript_redeem {scriptSig scriptPubKey : CScript} {m : Machine}
    (h : (verifyScript P ctx scriptSig scriptPubKey).2[2]? = some m) :
    (evalScript P ctx [] scriptSig).1 = true ∧ isPayToScriptHash scriptPubKey ∧ isPushOnly scriptSig = true ∧
      m = (evalRedeem P ctx (evalScript P ctx [] scriptSig).2.stack).2 := by
  unfold verifyScript at h
  simp only at h
  split_ifs at h with hsig hpubkey hhash hpush
  · cases h
  · cases h
  · cases h
  · cases h
    exact ⟨by simpa using hsig, hhash, by simpa using hpush, rfl⟩
  · cases h

theorem redeem_checks {scriptSig scriptPubKey : CScript} {m : Machine}
    (h : (verifyScript P ctx scriptSig scriptPubKey).2[2]? = some m) :
    checks m.log ≤ getSigOpCountFor scriptPubKey scriptSig := by
  obtain ⟨hsig, hhash, hpush, rfl⟩ := verifyScript_redeem h
  obtain ⟨last, hlast⟩ := Option.isSome_iff_exists.mp hpush
  have hstart : Covered (start scriptSig []) [] := by
    intro top htop
    cases htop
  have hcovered := evalLoop_push hlast rfl hstart (evalScript_true hsig)
  rw [getSigOpCountFor, if_neg (not_not_intro hhash), hlast]
  unfold evalRedeem
  cases hstack : (evalScript P ctx [] scriptSig).2.stack with
  | nil => exact Nat.zero_le _
  | cons pubKeySerialized stackCopy =>
    exact Nat.le_trans evalScript_checks (hcovered pubKeySerialized (by rw [hstack]; rfl))

/-- What the counts of signature operations promise of the runs: of one run of
`EvalScript`, and of the redeem script in `VerifyScript`. The source counts in
an `unsigned int`, which is enough for every script that fits in a message. -/
structure SigOpsBound (P : ScriptParams) (ctx : SigContext) : Prop where
  run : ∀ stack script, checks (evalScript P ctx stack script).2.log ≤ getSigOpCount script true
  accurate : ∀ script, getSigOpCount script true ≤ getSigOpCount script false
  redeem : ∀ scriptSig scriptPubKey, isPayToScriptHash scriptPubKey → isPushOnly scriptSig = true →
    ∀ m, (verifyScript P ctx scriptSig scriptPubKey).2[2]? = some m →
      checks m.log ≤ getSigOpCountFor scriptPubKey scriptSig
  unsigned : ∀ script fAccurate, script.length ≤ 200000000 → getSigOpCount script fAccurate < 2 ^ 32

/-- **The counts of signature operations bound the work.** -/
theorem sigOps_bound (P : ScriptParams) (ctx : SigContext) : SigOpsBound P ctx where
  run := fun _ _ => evalScript_checks
  accurate := fun _ => sigOpLoop_accurate_le (Nat.le_refl 0)
  redeem := fun _ _ _ _ _ h => redeem_checks h
  unsigned := fun _ _ h => getSigOpCount_lt h

/-- One key, one signature, one call. -/
theorem Sample.sigOps_bound_sample : SigOpsBound scriptParams sigContext ∧
    checks (evalScript scriptParams sigContext [] checkSigScript).2.log = 1 ∧ getSigOpCount checkSigScript true = 1 :=
  ⟨sigOps_bound scriptParams sigContext, by decide +kernel, by decide +kernel⟩

end Pinkcoin
