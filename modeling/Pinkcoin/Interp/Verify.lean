/-
Runs of `VerifyScript` on what was pushed: the verdict of a script is that of
its run, and that of a payment to a script the one of the redeem script.
-/
import Pinkcoin.Interp.Standard

namespace Pinkcoin

open Machine hiding push
open CScript (push isPayToScriptHash getOp OP_PUSHDATA4 OP_16)

variable {P : ScriptParams} {ctx : SigContext} {script scriptPubKey pc : CScript} {ops : List (Nat × Valtype)}
  {values : List Valtype}

/-! ## Lengths -/

theorem length_getOp_le {opcode : Nat} {vch : Valtype} (h : getOp script = some (opcode, vch, pc)) :
    script.length ≤ 5 + vch.length + pc.length := by
  cases script with
  | nil => cases h
  | cons b script =>
    simp only [getOp] at h
    split_ifs at h
    all_goals
      obtain ⟨-, rfl, rfl⟩ := Prod.mk.inj (Option.some.inj h) |>.imp id Prod.mk.inj
      simp only [List.length_drop, List.length_cons, List.length_take, List.length_nil] at *
      omega

theorem Ops.length_le {n : Nat} (h : Ops script ops) (hdata : ∀ op ∈ ops, op.2.length ≤ n) :
    script.length ≤ ops.length * (5 + n) := by
  induction h with
  | nil => exact Nat.zero_le _
  | @cons script pc opcode vch ops hop hops ih =>
    obtain ⟨hvch, hrest⟩ := List.forall_mem_cons.mp hdata
    have hle := length_getOp_le hop
    have hpc := ih hrest
    simp only at hvch
    rw [List.length_cons, Nat.succ_mul]
    omega

theorem length_push_le (vch : Valtype) : (push vch).length ≤ 5 + vch.length := by
  unfold push
  split_ifs <;> simp [CScript.length_leBytes] <;> omega

theorem length_pushAll_le {n : Nat} (h : ∀ v ∈ values, v.length ≤ n) :
    (pushAll values).length ≤ values.length * (5 + n) := by
  induction values with
  | nil => exact Nat.zero_le _
  | cons v values ih =>
    obtain ⟨hv, hrest⟩ := List.forall_mem_cons.mp h
    have hpush := length_push_le v
    have hvalues := ih hrest
    rw [pushAll, List.flatMap_cons, List.length_append, List.length_cons, Nat.succ_mul]
    rw [pushAll] at hvalues
    omega

theorem pushAll_append (values values' : List Valtype) : pushAll (values ++ values') = pushAll values ++ pushAll values' :=
  List.flatMap_append

theorem pushAll_singleton (v : Valtype) : pushAll [v] = push v := List.append_nil (push v)

/-! ## VerifyScript -/

/-- What is pushed can be pushed, and the script is not too long. -/
structure Pushable (values : List Valtype) : Prop where
  small : ∀ v ∈ values, v.length ≤ MAX_SCRIPT_ELEMENT_SIZE
  few : values.length ≤ 19

theorem evalScript_pushAll (h : Pushable values) :
    ∃ s, evalScript P ctx [] (pushAll values) = (true, s) ∧ s.stack = values.reverse := by
  have hlength := length_pushAll_le h.small
  have hfew := h.few
  refine evalScript_halts (halts_pushAll h.small (by omega)) ?_
  simp only [MAX_SCRIPT_ELEMENT_SIZE] at hlength
  omega

theorem isPushOnly_pushAll (h : ∀ v ∈ values, v.length ≤ MAX_SCRIPT_ELEMENT_SIZE) : isPushOnly (pushAll values) = true := by
  obtain ⟨ops, hops, hpush, -⟩ := ops_pushAll h
  have hlast : ∀ {script : CScript} {ops : List (Nat × Valtype)}, Ops script ops → (∀ op ∈ ops, op.1 ≤ OP_PUSHDATA4) →
      ∀ fuel data, script.length ≤ fuel → (CScript.lastPush fuel script data).isSome = true := by
    intro script ops hops
    induction hops with
    | nil =>
      intro _ fuel data _
      cases fuel <;> rfl
    | @cons script pc opcode vch ops hop hops ih =>
      intro hpush fuel data hfuel
      obtain ⟨hopcode, hrest⟩ := List.forall_mem_cons.mp hpush
      have hshort := length_getOp_lt hop
      cases script with
      | nil => cases hop
      | cons b script =>
        cases fuel with
        | zero => omega
        | succ fuel =>
          have hle : ¬ OP_16 < opcode := by
            simp only [OP_16, OP_PUSHDATA4] at hopcode ⊢
            omega
          rw [CScript.lastPush, hop]
          simp only [if_neg hle]
          exact ih hrest fuel vch (by omega)
  exact hlast hops hpush _ [] (Nat.le_refl _)

/-- A script that is no payment to a script: its run decides. -/
theorem verifyScript_bare {b : Bool} (hvalues : Pushable values) (hbare : ¬ isPayToScriptHash scriptPubKey)
    (hlength : scriptPubKey.length ≤ 10000)
    (hrun : Halts P ctx scriptPubKey scriptPubKey values.reverse 0 [ofVerdict b]) :
    (verifyScript P ctx (pushAll values) scriptPubKey).1 = b := by
  obtain ⟨s₁, hsig, hstack₁⟩ := @evalScript_pushAll P ctx values hvalues
  obtain ⟨s₂, hpubkey, hstack₂⟩ := evalScript_halts hrun hlength
  simp only [verifyScript, hsig, hstack₁, hpubkey, hstack₂, List.head?_cons, Option.map_some, Option.getD_some,
    castToBool_ofVerdict, Bool.true_eq_false, if_false, false_or, if_neg hbare]
  cases b <;> rfl

/-- A payment to a script: the run of the redeem script decides. -/
theorem verifyScript_redeem_run {b : Bool} {redeem : CScript} (hvalues : Pushable (values ++ [redeem]))
    (hhash : isPayToScriptHash scriptPubKey) (hredeem : (P.hash160 redeem).toList = (scriptPubKey.drop 2).take 20)
    (hrun : Halts P ctx redeem redeem values.reverse 0 [ofVerdict b]) :
    (verifyScript P ctx (pushAll (values ++ [redeem])) scriptPubKey).1 = b := by
  obtain ⟨s₁, hsig, hstack₁⟩ := @evalScript_pushAll P ctx (values ++ [redeem]) hvalues
  obtain ⟨hlength, hops⟩ := ops_payToScriptHash hhash
  have hfew := hvalues.few
  rw [List.length_append, List.length_singleton] at hfew
  rw [List.reverse_append, List.reverse_singleton, List.singleton_append] at hstack₁
  have hcompare := @halts_scriptHash scriptPubKey 20 redeem P ctx values.reverse _ hops hlength
    (by rw [List.length_reverse]; omega)
  obtain ⟨s₂, hpubkey, hstack₂⟩ := evalScript_halts hcompare (by rw [hhash.1]; decide)
  have hsmall := hvalues.small redeem (List.mem_append_right _ List.mem_cons_self)
  obtain ⟨s₃, hlast, hstack₃⟩ := evalScript_halts hrun (Nat.le_trans hsmall (by decide))
  simp only [verifyScript, hsig, hstack₁, hpubkey, hstack₂, hredeem, decide_true, List.head?_cons, Option.map_some,
    Option.getD_some, castToBool_ofVerdict, Bool.true_eq_false, if_false, or_self, if_pos hhash,
    isPushOnly_pushAll hvalues.small, evalRedeem, hlast, hstack₃, Bool.true_and]

end Pinkcoin
