/-
What `Solver` says of a script it knows: the operations the script is made
of, with the keys, the hash or the numbers that were found.
-/
import Pinkcoin.Interp.Templates

namespace Pinkcoin

open CScript

variable {script pc : CScript} {opcode : Nat} {vch : Valtype} {vSolutions found : List (List UInt8)}
  {template : List Nat}

/-! ## Templates -/

theorem getOp_of_nil (h : matchTemplate [] pc vSolutions = some found) : pc = [] ∧ found = vSolutions := by
  cases pc with
  | nil =>
    cases h
    exact ⟨rfl, rfl⟩
  | cons b pc => cases h

/-- One operation is matched, and the rest with the rest. -/
theorem matchTemplate_cons {opcode2 : Nat} (hne : opcode2 ≠ OP_PUBKEYS)
    (h : matchTemplate (opcode2 :: template) script vSolutions = some found) :
    ∃ opcode1 vch1 pc vSolutions', getOp script = some (opcode1, vch1, pc) ∧
      matchOp opcode2 opcode1 vch1 vSolutions = some vSolutions' ∧ matchTemplate template pc vSolutions' = some found := by
  rw [matchTemplate] at h
  cases hop : getOp script with
  | none =>
    rw [hop] at h
    cases h
  | some op1 =>
    obtain ⟨opcode1, vch1, pc⟩ := op1
    rw [hop] at h
    simp only [if_neg hne] at h
    obtain ⟨vSolutions', hmatch, hrest⟩ := Option.bind_eq_some_iff.mp h
    exact ⟨opcode1, vch1, pc, vSolutions', rfl, hmatch, hrest⟩

theorem matchOp_pubKey {vSolutions' : List (List UInt8)} (h : matchOp OP_PUBKEY opcode vch vSolutions = some vSolutions') :
    33 ≤ vch.length ∧ vch.length ≤ 120 ∧ vSolutions' = vSolutions ++ [vch] := by
  rw [matchOp, if_pos rfl] at h
  split at h
  next => cases h
  next hsize =>
    cases h
    exact ⟨by omega, by omega, rfl⟩

theorem matchOp_pubKeyHash {vSolutions' : List (List UInt8)}
    (h : matchOp OP_PUBKEYHASH opcode vch vSolutions = some vSolutions') :
    vch.length = 20 ∧ vSolutions' = vSolutions ++ [vch] := by
  rw [matchOp, if_neg (by decide), if_pos rfl] at h
  split at h
  next => cases h
  next hsize =>
    cases h
    exact ⟨by omega, rfl⟩

theorem matchOp_smallInteger {vSolutions' : List (List UInt8)}
    (h : matchOp OP_SMALLINTEGER opcode vch vSolutions = some vSolutions') :
    (opcode = OP_0 ∨ OP_1 ≤ opcode ∧ opcode ≤ OP_16) ∧
      vSolutions' = vSolutions ++ [[UInt8.ofNat (decodeOP_N opcode)]] := by
  rw [matchOp, if_neg (by decide), if_neg (by decide), if_pos rfl] at h
  split at h
  next hrange =>
    cases h
    exact ⟨hrange, rfl⟩
  next => cases h

/-- Other opcodes stand for themselves. -/
theorem matchOp_opcode {opcode2 : Nat} {vSolutions' : List (List UInt8)} (hlow : opcode2 < OP_SMALLDATA)
    (h : matchOp opcode2 opcode vch vSolutions = some vSolutions') :
    opcode = opcode2 ∧ vch = [] ∧ vSolutions' = vSolutions := by
  simp only [OP_SMALLDATA] at hlow
  have h₁ : opcode2 ≠ OP_PUBKEY := by simp only [OP_PUBKEY]; omega
  have h₂ : opcode2 ≠ OP_PUBKEYHASH := by simp only [OP_PUBKEYHASH]; omega
  have h₃ : opcode2 ≠ OP_SMALLINTEGER := by simp only [OP_SMALLINTEGER]; omega
  have h₄ : opcode2 ≠ OP_SMALLDATA := by simp only [OP_SMALLDATA]; omega
  rw [matchOp, if_neg h₁, if_neg h₂, if_neg h₃, if_neg h₄] at h
  split at h
  next => cases h
  next hsame =>
    cases h
    obtain ⟨hopcode, hvch⟩ := not_or.mp hsame
    exact ⟨not_not.mp hopcode, not_not.mp hvch, rfl⟩

/-- The keys that are taken, up to the operation the inner loop stops at. -/
theorem takePubKeys_ops {fuel : Nat} {op1 op1' : Nat × List UInt8 × CScript} {vSolutions' : List (List UInt8)}
    (hop : getOp script = some op1) (h : takePubKeys fuel op1 vSolutions = (op1', vSolutions')) :
    ∃ keys : List (Nat × Valtype), vSolutions' = vSolutions ++ keys.map Prod.snd ∧
      (∀ key ∈ keys, 33 ≤ key.2.length ∧ key.2.length ≤ 120 ∧ key.1 ≤ OP_PUSHDATA4) ∧
      (op1'.1 = OP_INVALIDOPCODE ∨ (∃ pc, getOp pc = some op1') ∧
        ∀ ops, Ops op1'.2.2 ops → Ops script (keys ++ (op1'.1, op1'.2.1) :: ops)) := by
  induction fuel generalizing script op1 vSolutions with
  | zero =>
    cases h
    exact ⟨[], (List.append_nil _).symm, fun _ h => (nomatch h), .inr ⟨⟨script, hop⟩, fun ops hops => .cons hop hops⟩⟩
  | succ fuel ih =>
    obtain ⟨opcode1, vch1, pc1⟩ := op1
    rw [takePubKeys] at h
    by_cases hkey : 33 ≤ vch1.length ∧ vch1.length ≤ 120
    · rw [if_pos hkey] at h
      have hpush : opcode1 ≤ OP_PUSHDATA4 := by
        refine Machine.le_of_data hop ?_
        rintro rfl
        exact absurd hkey.1 (by decide)
      cases hnext : getOp pc1 with
      | none =>
        rw [hnext] at h
        cases h
        refine ⟨[(opcode1, vch1)], rfl, ?_, .inl rfl⟩
        intro key hmem
        rw [List.mem_singleton.mp hmem]
        exact ⟨hkey.1, hkey.2, hpush⟩
      | some op2 =>
        rw [hnext] at h
        obtain ⟨keys, rfl, hkeys, hrest⟩ := ih hnext h
        refine ⟨(opcode1, vch1) :: keys, by simp, List.forall_mem_cons.mpr ⟨⟨hkey.1, hkey.2, hpush⟩, hkeys⟩, ?_⟩
        rcases hrest with hinvalid | ⟨hread, hrest⟩
        · exact .inl hinvalid
        · exact .inr ⟨hread, fun ops hops => .cons hop (hrest ops hops)⟩
    · rw [if_neg hkey] at h
      cases h
      exact ⟨[], (List.append_nil _).symm, fun _ h => (nomatch h), .inr ⟨⟨script, hop⟩, fun ops hops => .cons hop hops⟩⟩

/-! ## The types -/

/-- The answer comes from one of the templates. -/
theorem scanTemplates_some {templates : List (TxnOutType × List Nat)} {whichType : TxnOutType}
    (h : scanTemplates script templates = (true, whichType, found)) :
    ∃ template, (whichType, template) ∈ templates ∧ matchTemplate template script [] = some found ∧
      (whichType = .TX_MULTISIG → multisigOk found) := by
  induction templates with
  | nil => cases h
  | cons entry templates ih =>
    obtain ⟨typeRet, template⟩ := entry
    rw [scanTemplates] at h
    cases hmatch : matchTemplate template script [] with
    | none =>
      rw [hmatch] at h
      obtain ⟨template', hmem, hrest⟩ := ih h
      exact ⟨template', List.mem_cons_of_mem _ hmem, hrest⟩
    | some vSolutions =>
      rw [hmatch] at h
      obtain ⟨hok, hrest⟩ := Prod.mk.inj h
      obtain ⟨rfl, rfl⟩ := Prod.mk.inj hrest
      exact ⟨template, List.mem_cons_self, hmatch, of_decide_eq_true hok⟩

theorem solver_template {whichType : TxnOutType} (h : solver script = (true, whichType, found))
    (hne : whichType ≠ .TX_SCRIPTHASH) : ¬ isPayToScriptHash script ∧
      ∃ template, (whichType, template) ∈ mTemplates ∧ matchTemplate template script [] = some found ∧
        (whichType = .TX_MULTISIG → multisigOk found) := by
  unfold solver at h
  split at h
  next =>
    cases h
    exact absurd rfl hne
  next hhash => exact ⟨hhash, scanTemplates_some h⟩

/-- A payment to a key. -/
theorem solver_pubKey (h : solver script = (true, .TX_PUBKEY, found)) :
    ∃ opcode vchPubKey, found = [vchPubKey] ∧ 33 ≤ vchPubKey.length ∧ vchPubKey.length ≤ 120 ∧
      Ops script [(opcode, vchPubKey), (OP_CHECKSIG, [])] := by
  obtain ⟨-, template, hmem, hmatch, -⟩ := solver_template h (by decide)
  have htemplate : template = [OP_PUBKEY, OP_CHECKSIG] := by simpa [mTemplates] using hmem
  subst htemplate
  obtain ⟨opcode₁, vch₁, pc₁, v₁, hop₁, hfirst, hrest⟩ := matchTemplate_cons (by decide) hmatch
  obtain ⟨opcode₂, vch₂, pc₂, v₂, hop₂, hsecond, hrest⟩ := matchTemplate_cons (by decide) hrest
  obtain ⟨hlow, hhigh, rfl⟩ := matchOp_pubKey hfirst
  obtain ⟨rfl, rfl, rfl⟩ := matchOp_opcode (by decide) hsecond
  obtain ⟨rfl, rfl⟩ := getOp_of_nil hrest
  exact ⟨opcode₁, vch₁, rfl, hlow, hhigh, .cons hop₁ (.cons hop₂ .nil)⟩

/-- A payment to the hash of a key. -/
theorem solver_pubKeyHash (h : solver script = (true, .TX_PUBKEYHASH, found)) :
    ∃ opcode hash, found = [hash] ∧ hash.length = 20 ∧ Ops script [(OP_DUP, []), (OP_HASH160, []), (opcode, hash),
      (OP_EQUALVERIFY, []), (OP_CHECKSIG, [])] := by
  obtain ⟨-, template, hmem, hmatch, -⟩ := solver_template h (by decide)
  have htemplate : template = [OP_DUP, OP_HASH160, OP_PUBKEYHASH, OP_EQUALVERIFY, OP_CHECKSIG] := by
    simpa [mTemplates] using hmem
  subst htemplate
  obtain ⟨opcode₁, vch₁, pc₁, v₁, hop₁, hmatch₁, hrest⟩ := matchTemplate_cons (by decide) hmatch
  obtain ⟨opcode₂, vch₂, pc₂, v₂, hop₂, hmatch₂, hrest⟩ := matchTemplate_cons (by decide) hrest
  obtain ⟨opcode₃, vch₃, pc₃, v₃, hop₃, hmatch₃, hrest⟩ := matchTemplate_cons (by decide) hrest
  obtain ⟨opcode₄, vch₄, pc₄, v₄, hop₄, hmatch₄, hrest⟩ := matchTemplate_cons (by decide) hrest
  obtain ⟨opcode₅, vch₅, pc₅, v₅, hop₅, hmatch₅, hrest⟩ := matchTemplate_cons (by decide) hrest
  obtain ⟨rfl, rfl, rfl⟩ := matchOp_opcode (by decide) hmatch₁
  obtain ⟨rfl, rfl, rfl⟩ := matchOp_opcode (by decide) hmatch₂
  obtain ⟨hlength, rfl⟩ := matchOp_pubKeyHash hmatch₃
  obtain ⟨rfl, rfl, rfl⟩ := matchOp_opcode (by decide) hmatch₄
  obtain ⟨rfl, rfl, rfl⟩ := matchOp_opcode (by decide) hmatch₅
  obtain ⟨rfl, rfl⟩ := getOp_of_nil hrest
  exact ⟨opcode₃, vch₃, rfl, hlength, .cons hop₁ (.cons hop₂ (.cons hop₃ (.cons hop₄ (.cons hop₅ .nil))))⟩

/-- An opcode that is no push carries no data. -/
theorem data_nil (h : getOp script = some (opcode, vch, pc)) (hop : OP_PUSHDATA4 < opcode) : vch = [] := by
  by_contra hne
  exact absurd (Machine.le_of_data h hne) (Nat.not_le.mpr hop)

/-- A small number that is not zero is an opcode of its own. -/
theorem opcode_of_decode {k : Nat} (hrange : opcode = OP_0 ∨ OP_1 ≤ opcode ∧ opcode ≤ OP_16)
    (hk : (UInt8.ofNat (decodeOP_N opcode)).toNat = k) (hpos : 1 ≤ k) :
    k ≤ 16 ∧ opcode = k + (OP_1 - 1) ∧ UInt8.ofNat (decodeOP_N opcode) = UInt8.ofNat k := by
  rcases hrange with rfl | ⟨hlow, hhigh⟩
  · rw [← hk] at hpos
    exact absurd hpos (by decide)
  · simp only [OP_1, OP_16] at hlow hhigh
    have hne : opcode ≠ OP_0 := by
      simp only [OP_0]
      omega
    have hdecode : decodeOP_N opcode = opcode - 0x50 := if_neg hne
    have hmod : (UInt8.ofNat (opcode - 0x50)).toNat = opcode - 0x50 := by
      rw [UInt8.toNat_ofNat']
      exact Nat.mod_eq_of_lt (by omega)
    rw [hdecode, hmod] at hk
    refine ⟨by omega, ?_, by rw [hdecode, hk]⟩
    simp only [OP_1]
    omega

theorem opcode_eq {b : UInt8} (h : getOp (b :: script) = some (opcode, vch, pc)) : opcode = b.toNat := by
  simp only [getOp] at h
  split_ifs at h
  all_goals exact (Prod.mk.inj (Option.some.inj h)).1.symm

/-- An opcode that stands for a small number carries no data. -/
theorem data_of_small (h : getOp script = some (opcode, vch, pc))
    (hsmall : opcode = OP_0 ∨ OP_1 ≤ opcode ∧ opcode ≤ OP_16) : vch = [] := by
  rcases hsmall with rfl | ⟨hlow, -⟩
  · cases script with
    | nil => cases h
    | cons b script =>
      obtain rfl : b = 0 := UInt8.toNat_inj.mp (opcode_eq h).symm
      have hzero : getOp (0 :: script) = some (OP_0, [], script) := by simp [getOp, OP_0, OP_PUSHDATA1, OP_PUSHDATA4]
      rw [hzero] at h
      exact (Prod.mk.inj (Prod.mk.inj (Option.some.inj h)).2).1.symm
  · exact data_nil h (Nat.lt_of_lt_of_le (by decide) hlow)

/-- The multisig template takes only scripts of that form. -/
theorem matchTemplate_multisig
    (h : matchTemplate [OP_SMALLINTEGER, OP_PUBKEYS, OP_SMALLINTEGER, OP_CHECKMULTISIG] script [] = some found) :
    ∃ (a : Nat) (keys : List (Nat × Valtype)) (b : Nat), (a = OP_0 ∨ OP_1 ≤ a ∧ a ≤ OP_16) ∧
      (b = OP_0 ∨ OP_1 ≤ b ∧ b ≤ OP_16) ∧
      (∀ key ∈ keys, 33 ≤ key.2.length ∧ key.2.length ≤ 120 ∧ key.1 ≤ OP_PUSHDATA4) ∧
      found = [UInt8.ofNat (decodeOP_N a)] :: (keys.map Prod.snd ++ [[UInt8.ofNat (decodeOP_N b)]]) ∧
      Ops script ((a, []) :: (keys ++ [(b, []), (OP_CHECKMULTISIG, [])])) := by
  obtain ⟨opcode₁, vch₁, pc₁, v₁, hop₁, hmatch₁, hrest⟩ := matchTemplate_cons (by decide) h
  obtain ⟨hrange₁, rfl⟩ := matchOp_smallInteger hmatch₁
  rw [matchTemplate] at hrest
  cases hop₂ : getOp pc₁ with
  | none =>
    rw [hop₂] at hrest
    cases hrest
  | some op1 =>
    rw [hop₂] at hrest
    simp only [if_true] at hrest
    cases htake : takePubKeys (pc₁.length + 1) op1 ([] ++ [[UInt8.ofNat (decodeOP_N opcode₁)]]) with
    | mk op2 v₂ =>
      obtain ⟨opcode₃, vch₃, pc₃⟩ := op2
      rw [htake] at hrest
      obtain ⟨v₃, hmatch₃, hrest⟩ := Option.bind_eq_some_iff.mp hrest
      obtain ⟨opcode₄, vch₄, pc₄, v₄, hop₄, hmatch₄, hrest⟩ := matchTemplate_cons (by decide) hrest
      obtain ⟨hrange₃, rfl⟩ := matchOp_smallInteger hmatch₃
      obtain ⟨rfl, rfl, rfl⟩ := matchOp_opcode (by decide) hmatch₄
      obtain ⟨rfl, rfl⟩ := getOp_of_nil hrest
      obtain ⟨keys, rfl, hkeys, hread⟩ := takePubKeys_ops hop₂ htake
      simp only at hrange₃ hread
      have hvalid : opcode₃ ≠ OP_INVALIDOPCODE := by
        rintro rfl
        exact absurd hrange₃ (by decide)
      obtain ⟨⟨pc₂, hop₃⟩, hops⟩ := hread.resolve_left hvalid
      obtain rfl : vch₁ = [] := data_of_small hop₁ hrange₁
      obtain rfl : vch₃ = [] := data_of_small hop₃ hrange₃
      exact ⟨opcode₁, keys, opcode₃, hrange₁, hrange₃, hkeys, by simp, .cons hop₁ (hops _ (.cons hop₄ .nil))⟩

/-- So many of so many keys. -/
theorem solver_multisig (h : solver script = (true, .TX_MULTISIG, found)) :
    ∃ (m : Nat) (keys : List (Nat × Valtype)),
      found = [UInt8.ofNat m] :: (keys.map Prod.snd ++ [[UInt8.ofNat keys.length]]) ∧
      1 ≤ m ∧ m ≤ keys.length ∧ keys.length ≤ 16 ∧
      (∀ key ∈ keys, 33 ≤ key.2.length ∧ key.2.length ≤ 120 ∧ key.1 ≤ OP_PUSHDATA4) ∧
      Ops script ((m + (OP_1 - 1), []) :: (keys ++ [(keys.length + (OP_1 - 1), []), (OP_CHECKMULTISIG, [])])) := by
  obtain ⟨-, template, hmem, hmatch, hok⟩ := solver_template h (by decide)
  have htemplate : template = [OP_SMALLINTEGER, OP_PUBKEYS, OP_SMALLINTEGER, OP_CHECKMULTISIG] := by
    simpa [mTemplates] using hmem
  subst htemplate
  obtain ⟨a, keys, b, ha, hb, hkeys, rfl, hops⟩ := matchTemplate_multisig hmatch
  have hok := hok rfl
  simp only [multisigOk, List.headD_cons, List.getLastD_cons, List.getLastD_concat, List.length_cons,
    List.length_append, List.length_map, List.length_nil] at hok
  obtain ⟨hm, hn, hmn, hlength⟩ := hok
  obtain ⟨hm₁₆, hopcode₁, hbyte₁⟩ := opcode_of_decode ha rfl hm
  obtain ⟨hn₁₆, hopcode₃, hbyte₃⟩ := opcode_of_decode hb rfl hn
  have hcount : keys.length = (UInt8.ofNat (decodeOP_N b)).toNat := by omega
  rw [← hcount] at hmn hn₁₆ hopcode₃ hbyte₃
  refine ⟨_, keys, ?_, hm, hmn, hn₁₆, hkeys, ?_⟩
  · rw [← hbyte₁, ← hbyte₃]
  · rw [← hopcode₁, ← hopcode₃]
    exact hops

theorem solver_of_payToScriptHash (h : isPayToScriptHash script) :
    solver script = (true, .TX_SCRIPTHASH, [(script.drop 2).take 20]) := if_pos h

/-- The operations of a payment to the hash of a script. -/
theorem ops_payToScriptHash (h : isPayToScriptHash script) : ((script.drop 2).take 20).length = 20 ∧
    Ops script [(OP_HASH160, []), (20, (script.drop 2).take 20), (OP_EQUAL, [])] := by
  obtain ⟨hlength, hfirst, hsecond, hlast⟩ := h
  match script with
  | b₀ :: b₁ :: rest =>
    simp only [List.getElem?_cons_zero, List.getElem?_cons_succ, Option.some.injEq, List.length_cons] at *
    subst hfirst hsecond
    have hrest : rest.length = 21 := by omega
    have htake : (rest.take 20).length = 20 := by
      rw [List.length_take, hrest]
      rfl
    have hdrop : rest.drop 20 = [UInt8.ofNat OP_EQUAL] := by
      refine List.ext_getElem? fun i => ?_
      rw [List.getElem?_drop]
      cases i with
      | zero => exact hlast
      | succ i =>
        rw [List.getElem?_eq_none (by omega)]
        rfl
    have hpush : getOp (0x14 :: rest) = some (20, rest.take 20, rest.drop 20) := by
      have hbyte : (0x14 : UInt8).toNat = 20 := rfl
      simp [getOp, hbyte, OP_PUSHDATA4, OP_PUSHDATA1, hrest]
    refine ⟨htake, .cons rfl (.cons hpush ?_)⟩
    rw [hdrop]
    exact .cons rfl .nil

theorem solver_scriptHash (h : solver script = (true, .TX_SCRIPTHASH, found)) :
    isPayToScriptHash script ∧ found = [(script.drop 2).take 20] := by
  unfold solver at h
  split at h
  next hhash =>
    cases h
    exact ⟨hhash, rfl⟩
  next =>
    obtain ⟨template, hmem, -⟩ := scanTemplates_some h
    simp [mTemplates] at hmem

end Pinkcoin
