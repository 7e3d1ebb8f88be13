/-
The standard scripts. `Solver` finds the type and the solutions of every
script of a standard form, and says of no other script that it is standard,
but for the opcodes it lets stand in the place of data behind `OP_RETURN`.
-/
import Pinkcoin.Interp.Standard

namespace Pinkcoin

open CScript

variable {script pc : CScript} {opcode : Nat} {vch : Valtype} {vSolutions found : List (List UInt8)}
  {ops : List (Nat × Valtype)} {template : List Nat}

/-! ## The forms -/

/-- A public key that is pushed. -/
def isKeyPush (op : Nat × Valtype) : Prop := 33 ≤ op.2.length ∧ op.2.length ≤ 120 ∧ op.1 ≤ OP_PUSHDATA4

/-- Data behind `OP_RETURN`. -/
def isSmallPush (op : Nat × Valtype) : Prop := op.1 ≤ OP_PUSHDATA4 ∧ op.2.length ≤ MAX_OP_RETURN_RELAY

/-- The operations of a multisig script, whatever its counts are. -/
def multisigOps (a : Nat) (keys : List (Nat × Valtype)) (b : Nat) : List (Nat × Valtype) :=
  (a, []) :: (keys ++ [(b, []), (OP_CHECKMULTISIG, [])])

/-- **The standard forms**, with their type and what `Solver` finds in them. -/
inductive Standard (script : CScript) : TxnOutType → List Valtype → Prop
  | scriptHash (h : isPayToScriptHash script) : Standard script .TX_SCRIPTHASH [(script.drop 2).take 20]
  | pubKey {key : Nat × Valtype} (hkey : isKeyPush key) (hops : Ops script [key, (OP_CHECKSIG, [])]) :
    Standard script .TX_PUBKEY [key.2]
  | pubKeyHash {opcode : Nat} {hash : Valtype} (hlen : hash.length = 20)
    (hops : Ops script [(OP_DUP, []), (OP_HASH160, []), (opcode, hash), (OP_EQUALVERIFY, []), (OP_CHECKSIG, [])]) :
    Standard script .TX_PUBKEYHASH [hash]
  | multisig {m : Nat} {keys : List (Nat × Valtype)} (hm : 1 ≤ m) (hmn : m ≤ keys.length) (hn : keys.length ≤ 16)
    (hkeys : ∀ key ∈ keys, isKeyPush key)
    (hops : Ops script (multisigOps (m + (OP_1 - 1)) keys (keys.length + (OP_1 - 1)))) :
    Standard script .TX_MULTISIG ([UInt8.ofNat m] :: (keys.map Prod.snd ++ [[UInt8.ofNat keys.length]]))
  | nullData (hops : Ops script [(OP_RETURN, [])]) : Standard script .TX_NULL_DATA []
  | oneData {op : Nat × Valtype} (hop : isSmallPush op) (hops : Ops script [(OP_RETURN, []), op]) :
    Standard script .TX_NULL_DATA []
  | twoData {op op' : Nat × Valtype} (hop : isSmallPush op) (hop' : isSmallPush op')
    (hops : Ops script [(OP_RETURN, []), op, (OP_RETURN, []), op']) : Standard script .TX_NULL_DATA []

/-- An opcode that is no push stands where an `OP_RETURN` script has data. -/
def ReturnsOpcode (script : CScript) : Prop :=
  (∃ op, OP_PUSHDATA4 < op.1 ∧ Ops script [(OP_RETURN, []), op]) ∨
    ∃ op op', (OP_PUSHDATA4 < op.1 ∨ OP_PUSHDATA4 < op'.1) ∧ Ops script [(OP_RETURN, []), op, (OP_RETURN, []), op']

/-- A multisig script whose counts do not fit. -/
def Miscounted (script : CScript) : Prop :=
  ∃ a keys b, (a = OP_0 ∨ OP_1 ≤ a ∧ a ≤ OP_16) ∧ (b = OP_0 ∨ OP_1 ≤ b ∧ b ≤ OP_16) ∧ (∀ key ∈ keys, isKeyPush key) ∧
    Ops script (multisigOps a keys b) ∧
    ¬ (1 ≤ decodeOP_N a ∧ decodeOP_N a ≤ keys.length ∧ keys.length = decodeOP_N b)

/-! ## The templates of a form -/

/-- What is left after an operation is shorter. -/
theorem getOp_shorter (h : getOp script = some (opcode, vch, pc)) : pc.length < script.length := by
  cases script with
  | nil => cases h
  | cons b script =>
    simp only [getOp] at h
    split_ifs at h
    all_goals
      obtain ⟨-, hpc⟩ := Prod.mk.inj (Option.some.inj h)
      rw [← (Prod.mk.inj hpc).2, List.length_cons]
      first
        | omega
        | rw [List.length_drop, List.length_drop]; omega

theorem length_ops (h : Ops script ops) : ops.length ≤ script.length := by
  induction h with
  | nil => exact Nat.le_refl _
  | cons hop _ ih =>
    have := getOp_shorter hop
    rw [List.length_cons]
    omega

/-- One operation is compared with one place of a template. -/
theorem matchTemplate_getOp {opcode2 : Nat} (hne : opcode2 ≠ OP_PUBKEYS) (h : getOp script = some (opcode, vch, pc)) :
    matchTemplate (opcode2 :: template) script vSolutions =
      (matchOp opcode2 opcode vch vSolutions).bind (matchTemplate template pc) := by
  rw [matchTemplate, h]
  exact if_neg hne

/-- A script goes on where its template ends. -/
theorem matchTemplate_nil (h : getOp script = some (opcode, vch, pc)) : matchTemplate [] script vSolutions = none := by
  cases script with
  | nil => cases h
  | cons b script => rfl

theorem matchOp_key (h : isKeyPush (opcode, vch)) :
    matchOp OP_PUBKEY opcode vch vSolutions = some (vSolutions ++ [vch]) := by
  have h₁ : 33 ≤ vch.length := h.1
  have h₂ : vch.length ≤ 120 := h.2.1
  rw [matchOp, if_pos rfl, if_neg (by omega)]

theorem matchOp_small (h : vch.length ≤ MAX_OP_RETURN_RELAY) :
    matchOp OP_SMALLDATA opcode vch vSolutions = some vSolutions := by
  rw [matchOp, if_neg (by decide), if_neg (by decide), if_neg (by decide), if_pos rfl, if_neg (Nat.not_lt.mpr h)]

theorem matchOp_integer (h : opcode = OP_0 ∨ OP_1 ≤ opcode ∧ opcode ≤ OP_16) :
    matchOp OP_SMALLINTEGER opcode vch vSolutions = some (vSolutions ++ [[UInt8.ofNat (decodeOP_N opcode)]]) := by
  rw [matchOp, if_neg (by decide), if_neg (by decide), if_pos rfl, if_pos h]

/-- The keys are taken up to an operation that is no key. -/
theorem takePubKeys_eq (vSolutions : List Valtype) {keys : List (Nat × Valtype)} (hkeys : ∀ key ∈ keys, isKeyPush key)
    (hvch : vch.length < 33) {fuel : Nat} (hfuel : keys.length < fuel) {op1 : Nat × List UInt8 × CScript}
    (hop : getOp script = some op1) (hops : Ops script (keys ++ (opcode, vch) :: ops)) :
    ∃ pc, takePubKeys fuel op1 vSolutions = ((opcode, vch, pc), vSolutions ++ keys.map Prod.snd) ∧ Ops pc ops := by
  induction keys generalizing script fuel op1 vSolutions with
  | nil =>
    obtain ⟨pc, hread, hrest⟩ := Ops.tail hops
    obtain rfl := Option.some.inj (hop.symm.trans hread)
    obtain ⟨fuel, rfl⟩ : ∃ n, fuel = n + 1 := ⟨fuel - 1, by omega⟩
    refine ⟨pc, ?_, hrest⟩
    rw [takePubKeys, if_neg (by omega), List.map_nil, List.append_nil]
  | cons key keys ih =>
    obtain ⟨pc, hread, hrest⟩ := Ops.tail hops
    obtain rfl := Option.some.inj (hop.symm.trans hread)
    obtain ⟨fuel, rfl⟩ : ∃ n, fuel = n + 1 := ⟨fuel - 1, by omega⟩
    have hkey := hkeys key List.mem_cons_self
    obtain ⟨op2, hnext⟩ : ∃ op2, getOp pc = some op2 := by
      cases keys with
      | nil =>
        obtain ⟨pc', hread', -⟩ := Ops.tail hrest
        exact ⟨_, hread'⟩
      | cons key' keys =>
        obtain ⟨pc', hread', -⟩ := Ops.tail hrest
        exact ⟨_, hread'⟩
    obtain ⟨pc', htake, hrest'⟩ := ih (vSolutions ++ [key.2]) (fun k hk => hkeys k (List.mem_cons_of_mem _ hk))
      (Nat.lt_of_succ_lt_succ hfuel) hnext hrest
    refine ⟨pc', ?_, hrest'⟩
    rw [takePubKeys, if_pos ⟨hkey.1, hkey.2.1⟩, hnext]
    dsimp only
    rw [htake, List.append_assoc]
    rfl

/-! ## Scripts of a form are accepted -/

/-- A script that does not start with `OP_HASH160` goes to the templates. -/
theorem solver_of_ops (hops : Ops script ((opcode, vch) :: ops)) (hne : opcode ≠ OP_HASH160) :
    solver script = scanTemplates script mTemplates := by
  refine if_neg fun h => hne ?_
  obtain ⟨pc, hread, -⟩ := Ops.tail hops
  obtain ⟨pc', hread', -⟩ := Ops.tail (ops_payToScriptHash h).2
  exact (Prod.mk.inj (Option.some.inj (hread.symm.trans hread'))).1

/-- A template whose first place does not fit is left. -/
theorem scanTemplates_skip {opcode2 : Nat} (hne : opcode2 ≠ OP_PUBKEYS) (hops : Ops script ((opcode, vch) :: ops))
    (hno : matchOp opcode2 opcode vch [] = none) (type : TxnOutType) (rest : List (TxnOutType × List Nat)) :
    scanTemplates script ((type, opcode2 :: template) :: rest) = scanTemplates script rest := by
  obtain ⟨pc, hread, -⟩ := Ops.tail hops
  rw [scanTemplates, matchTemplate_getOp hne hread, hno]
  rfl

/-- A template that fits gives the result. -/
theorem scanTemplates_match {type : TxnOutType} (htype : type ≠ .TX_MULTISIG) {rest : List (TxnOutType × List Nat)}
    (h : matchTemplate template script [] = some found) :
    scanTemplates script ((type, template) :: rest) = (true, type, found) := by
  rw [scanTemplates, h]
  exact congrArg (·, type, found) (decide_eq_true fun h => absurd h htype)

theorem solver_pubKey_form {key : Nat × Valtype} (hkey : isKeyPush key) (hops : Ops script [key, (OP_CHECKSIG, [])]) :
    solver script = (true, .TX_PUBKEY, [key.2]) := by
  obtain ⟨pc₁, hop₁, hrest⟩ := Ops.tail hops
  obtain ⟨pc₂, hop₂, hrest⟩ := Ops.tail hrest
  obtain rfl := Ops.eq_nil hrest
  have hne : key.1 ≠ OP_HASH160 := fun h => absurd (h ▸ hkey.2.2) (by decide)
  rw [solver_of_ops hops hne]
  refine scanTemplates_match (by decide) ?_
  rw [matchTemplate_getOp (by decide) hop₁, matchOp_key hkey, Option.bind_some, matchTemplate_getOp (by decide) hop₂]
  rfl

theorem matchOp_exact {opcode2 : Nat} (hlow : opcode2 < OP_SMALLDATA) :
    matchOp opcode2 opcode2 [] vSolutions = some vSolutions := by
  simp only [OP_SMALLDATA] at hlow
  have h₁ : opcode2 ≠ OP_PUBKEY := by simp only [OP_PUBKEY]; omega
  have h₂ : opcode2 ≠ OP_PUBKEYHASH := by simp only [OP_PUBKEYHASH]; omega
  have h₃ : opcode2 ≠ OP_SMALLINTEGER := by simp only [OP_SMALLINTEGER]; omega
  have h₄ : opcode2 ≠ OP_SMALLDATA := by simp only [OP_SMALLDATA]; omega
  rw [matchOp, if_neg h₁, if_neg h₂, if_neg h₃, if_neg h₄, if_neg (by simp)]

theorem matchOp_hash (h : vch.length = 20) :
    matchOp OP_PUBKEYHASH opcode vch vSolutions = some (vSolutions ++ [vch]) := by
  rw [matchOp, if_neg (by decide), if_pos rfl, if_neg (not_not_intro h)]

theorem solver_pubKeyHash_form {hash : Valtype} (hlen : hash.length = 20)
    (hops : Ops script [(OP_DUP, []), (OP_HASH160, []), (opcode, hash), (OP_EQUALVERIFY, []), (OP_CHECKSIG, [])]) :
    solver script = (true, .TX_PUBKEYHASH, [hash]) := by
  rw [solver_of_ops hops (by decide)]
  rw [mTemplates, scanTemplates_skip (by decide) hops rfl]
  obtain ⟨pc₁, hop₁, hrest⟩ := Ops.tail hops
  obtain ⟨pc₂, hop₂, hrest⟩ := Ops.tail hrest
  obtain ⟨pc₃, hop₃, hrest⟩ := Ops.tail hrest
  obtain ⟨pc₄, hop₄, hrest⟩ := Ops.tail hrest
  obtain ⟨pc₅, hop₅, hrest⟩ := Ops.tail hrest
  obtain rfl := Ops.eq_nil hrest
  refine scanTemplates_match (by decide) ?_
  rw [matchTemplate_getOp (by decide) hop₁, matchOp_exact (by decide), Option.bind_some,
    matchTemplate_getOp (by decide) hop₂, matchOp_exact (by decide), Option.bind_some,
    matchTemplate_getOp (by decide) hop₃, matchOp_hash hlen, Option.bind_some,
    matchTemplate_getOp (by decide) hop₄, matchOp_exact (by decide), Option.bind_some,
    matchTemplate_getOp (by decide) hop₅, matchOp_exact (by decide), Option.bind_some]
  rfl

/-- The multisig template takes every script of that form, whatever its counts
are. -/
theorem matchTemplate_multisigOps {a b : Nat} {keys : List (Nat × Valtype)} (ha : a = OP_0 ∨ OP_1 ≤ a ∧ a ≤ OP_16)
    (hb : b = OP_0 ∨ OP_1 ≤ b ∧ b ≤ OP_16) (hkeys : ∀ key ∈ keys, isKeyPush key)
    (hops : Ops script (multisigOps a keys b)) :
    matchTemplate [OP_SMALLINTEGER, OP_PUBKEYS, OP_SMALLINTEGER, OP_CHECKMULTISIG] script [] =
      some ([UInt8.ofNat (decodeOP_N a)] :: (keys.map Prod.snd ++ [[UInt8.ofNat (decodeOP_N b)]])) := by
  obtain ⟨pc₁, hop₁, hrest⟩ := Ops.tail hops
  have hlen := length_ops hrest
  rw [List.length_append] at hlen
  obtain ⟨op1, hop₂⟩ : ∃ op1, getOp pc₁ = some op1 := by
    cases keys with
    | nil =>
      obtain ⟨pc, hread, -⟩ := Ops.tail hrest
      exact ⟨_, hread⟩
    | cons key keys =>
      obtain ⟨pc, hread, -⟩ := Ops.tail hrest
      exact ⟨_, hread⟩
  obtain ⟨pc₃, htake, hrest⟩ := takePubKeys_eq ([] ++ [[UInt8.ofNat (decodeOP_N a)]]) hkeys (by decide)
    (show keys.length < pc₁.length + 1 by omega) hop₂ hrest
  obtain ⟨pc₄, hop₄, hrest⟩ := Ops.tail hrest
  obtain rfl := Ops.eq_nil hrest
  rw [matchTemplate_getOp (by decide) hop₁, matchOp_integer ha, Option.bind_some, matchTemplate, hop₂]
  dsimp only
  rw [if_pos rfl, htake]
  dsimp only
  rw [matchOp_integer hb, Option.bind_some, matchTemplate_getOp (by decide) hop₄, matchOp_exact (by decide),
    Option.bind_some, matchTemplate]
  simp

theorem solver_multisig_form {m : Nat} {keys : List (Nat × Valtype)} (hm : 1 ≤ m) (hmn : m ≤ keys.length)
    (hn : keys.length ≤ 16) (hkeys : ∀ key ∈ keys, isKeyPush key)
    (hops : Ops script (multisigOps (m + (OP_1 - 1)) keys (keys.length + (OP_1 - 1)))) :
    solver script = (true, .TX_MULTISIG, [UInt8.ofNat m] :: (keys.map Prod.snd ++ [[UInt8.ofNat keys.length]])) := by
  have hcode : ∀ {k : Nat}, 1 ≤ k → k ≤ 16 → OP_1 ≤ k + (OP_1 - 1) ∧ k + (OP_1 - 1) ≤ OP_16 ∧
      decodeOP_N (k + (OP_1 - 1)) = k ∧ (UInt8.ofNat k).toNat = k := by
    intro k h₁ h₁₆
    have hone : OP_1 = 81 := rfl
    have hsixteen : OP_16 = 96 := rfl
    have hzero : OP_0 = 0 := rfl
    have hbyte : (UInt8.ofNat k).toNat = k := by
      rw [UInt8.toNat_ofNat']
      exact Nat.mod_eq_of_lt (by omega)
    refine ⟨by omega, by omega, ?_, hbyte⟩
    rw [decodeOP_N, if_neg (by omega)]
    omega
  obtain ⟨hmlow, hmhigh, hmdecode, hmbyte⟩ := hcode hm (by omega)
  obtain ⟨hnlow, hnhigh, hndecode, hnbyte⟩ := hcode (show 1 ≤ keys.length by omega) hn
  have hmatch := matchTemplate_multisigOps (.inr ⟨hmlow, hmhigh⟩) (.inr ⟨hnlow, hnhigh⟩) hkeys hops
  rw [hmdecode, hndecode] at hmatch
  have hne : m + (OP_1 - 1) ≠ OP_HASH160 := by
    have : OP_16 < OP_HASH160 := by decide
    omega
  have hdup : m + (OP_1 - 1) ≠ OP_DUP := by
    have : OP_16 < OP_DUP := by decide
    omega
  rw [solver_of_ops hops hne, mTemplates, scanTemplates_skip (by decide) hops rfl,
    scanTemplates_skip (by decide) hops (by
      rw [matchOp, if_neg (by decide), if_neg (by decide), if_neg (by decide), if_neg (by decide), if_pos (.inl hdup)]),
    scanTemplates, hmatch]
  refine congrArg (·, TxnOutType.TX_MULTISIG, _) (decide_eq_true fun _ => ?_)
  simp only [multisigOk, List.headD_cons, List.getLastD_cons, List.getLastD_concat, List.length_cons,
    List.length_append, List.length_map, List.length_nil, hmbyte, hnbyte]
  exact ⟨hm, by omega, hmn, trivial⟩

/-- A script that starts with `OP_RETURN` gets to the last templates. -/
theorem solver_of_return (hops : Ops script ((OP_RETURN, []) :: ops)) :
    solver script = scanTemplates script [(.TX_NULL_DATA, [OP_RETURN]), (.TX_NULL_DATA, [OP_RETURN, OP_SMALLDATA]),
      (.TX_NULL_DATA, [OP_RETURN, OP_SMALLDATA, OP_RETURN, OP_SMALLDATA])] := by
  rw [solver_of_ops hops (by decide), mTemplates, scanTemplates_skip (by decide) hops rfl,
    scanTemplates_skip (by decide) hops rfl, scanTemplates_skip (by decide) hops rfl]

/-- A template that is too short is left. -/
theorem scanTemplates_short {type : TxnOutType} {rest : List (TxnOutType × List Nat)}
    (h : matchTemplate template script [] = none) :
    scanTemplates script ((type, template) :: rest) = scanTemplates script rest := by
  rw [scanTemplates, h]

theorem solver_nullData_form (hops : Ops script [(OP_RETURN, [])]) : solver script = (true, .TX_NULL_DATA, []) := by
  obtain ⟨pc₁, hop₁, hrest⟩ := Ops.tail hops
  obtain rfl := Ops.eq_nil hrest
  rw [solver_of_return hops]
  refine scanTemplates_match (by decide) ?_
  rw [matchTemplate_getOp (by decide) hop₁, matchOp_exact (by decide), Option.bind_some]
  rfl

theorem solver_oneData_form {op : Nat × Valtype} (hop : isSmallPush op) (hops : Ops script [(OP_RETURN, []), op]) :
    solver script = (true, .TX_NULL_DATA, []) := by
  obtain ⟨pc₁, hop₁, hrest⟩ := Ops.tail hops
  obtain ⟨pc₂, hop₂, hrest⟩ := Ops.tail hrest
  obtain rfl := Ops.eq_nil hrest
  have hreturn : ∀ template, matchTemplate (OP_RETURN :: template) script [] = matchTemplate template pc₁ [] := by
    intro template
    rw [matchTemplate_getOp (by decide) hop₁, matchOp_exact (by decide), Option.bind_some]
  rw [solver_of_return hops, scanTemplates_short (by rw [hreturn, matchTemplate_nil hop₂])]
  refine scanTemplates_match (by decide) ?_
  rw [hreturn, matchTemplate_getOp (by decide) hop₂, matchOp_small hop.2, Option.bind_some]
  rfl

theorem solver_twoData_form {op op' : Nat × Valtype} (hop : isSmallPush op) (hop' : isSmallPush op')
    (hops : Ops script [(OP_RETURN, []), op, (OP_RETURN, []), op']) : solver script = (true, .TX_NULL_DATA, []) := by
  obtain ⟨pc₁, hop₁, hrest⟩ := Ops.tail hops
  obtain ⟨pc₂, hop₂, hrest⟩ := Ops.tail hrest
  obtain ⟨pc₃, hop₃, hrest⟩ := Ops.tail hrest
  obtain ⟨pc₄, hop₄, hrest⟩ := Ops.tail hrest
  obtain rfl := Ops.eq_nil hrest
  have hreturn : ∀ template, matchTemplate (OP_RETURN :: template) script [] = matchTemplate template pc₁ [] := by
    intro template
    rw [matchTemplate_getOp (by decide) hop₁, matchOp_exact (by decide), Option.bind_some]
  have hdata : ∀ template, matchTemplate (OP_SMALLDATA :: template) pc₁ [] = matchTemplate template pc₂ [] := by
    intro template
    rw [matchTemplate_getOp (by decide) hop₂, matchOp_small hop.2, Option.bind_some]
  rw [solver_of_return hops, scanTemplates_short (by rw [hreturn, matchTemplate_nil hop₂]),
    scanTemplates_short (by rw [hreturn, hdata, matchTemplate_nil hop₃])]
  refine scanTemplates_match (by decide) ?_
  rw [hreturn, hdata, matchTemplate_getOp (by decide) hop₃, matchOp_exact (by decide), Option.bind_some,
    matchTemplate_getOp (by decide) hop₄, matchOp_small hop'.2, Option.bind_some]
  rfl

/-- **Scripts of a standard form are accepted**, with their type and solutions. -/
theorem solver_of_standard {type : TxnOutType} (h : Standard script type found) :
    solver script = (true, type, found) := by
  cases h with
  | scriptHash h => exact solver_of_payToScriptHash h
  | pubKey hkey hops => exact solver_pubKey_form hkey hops
  | pubKeyHash hlen hops => exact solver_pubKeyHash_form hlen hops
  | multisig hm hmn hn hkeys hops => exact solver_multisig_form hm hmn hn hkeys hops
  | nullData hops => exact solver_nullData_form hops
  | oneData hop hops => exact solver_oneData_form hop hops
  | twoData hop hop' hops => exact solver_twoData_form hop hop' hops

/-! ## What is accepted is of a form -/

theorem matchOp_smallData {vSolutions' : List (List UInt8)}
    (h : matchOp OP_SMALLDATA opcode vch vSolutions = some vSolutions') :
    vch.length ≤ MAX_OP_RETURN_RELAY ∧ vSolutions' = vSolutions := by
  rw [matchOp, if_neg (by decide), if_neg (by decide), if_neg (by decide), if_pos rfl] at h
  split at h
  next => cases h
  next hsize =>
    cases h
    exact ⟨Nat.not_lt.mp hsize, rfl⟩

/-- What is found to carry data has the operations of such a script, but the
data can be an opcode. -/
theorem solver_nullData (h : solver script = (true, .TX_NULL_DATA, found)) : found = [] ∧
    (Ops script [(OP_RETURN, [])] ∨
      (∃ op, op.2.length ≤ MAX_OP_RETURN_RELAY ∧ Ops script [(OP_RETURN, []), op]) ∨
      ∃ op op', op.2.length ≤ MAX_OP_RETURN_RELAY ∧ op'.2.length ≤ MAX_OP_RETURN_RELAY ∧
        Ops script [(OP_RETURN, []), op, (OP_RETURN, []), op']) := by
  obtain ⟨-, template, hmem, hmatch, -⟩ := solver_template h (by decide)
  have htemplate : template = [OP_RETURN] ∨ template = [OP_RETURN, OP_SMALLDATA] ∨
      template = [OP_RETURN, OP_SMALLDATA, OP_RETURN, OP_SMALLDATA] := by
    simpa [mTemplates] using hmem
  rcases htemplate with rfl | rfl | rfl
  · obtain ⟨opcode₁, vch₁, pc₁, v₁, hop₁, hmatch₁, hrest⟩ := matchTemplate_cons (by decide) hmatch
    obtain ⟨rfl, rfl, rfl⟩ := matchOp_opcode (by decide) hmatch₁
    obtain ⟨rfl, rfl⟩ := getOp_of_nil hrest
    exact ⟨rfl, .inl (.cons hop₁ .nil)⟩
  · obtain ⟨opcode₁, vch₁, pc₁, v₁, hop₁, hmatch₁, hrest⟩ := matchTemplate_cons (by decide) hmatch
    obtain ⟨opcode₂, vch₂, pc₂, v₂, hop₂, hmatch₂, hrest⟩ := matchTemplate_cons (by decide) hrest
    obtain ⟨rfl, rfl, rfl⟩ := matchOp_opcode (by decide) hmatch₁
    obtain ⟨hsize, rfl⟩ := matchOp_smallData hmatch₂
    obtain ⟨rfl, rfl⟩ := getOp_of_nil hrest
    exact ⟨rfl, .inr (.inl ⟨(opcode₂, vch₂), hsize, .cons hop₁ (.cons hop₂ .nil)⟩)⟩
  · obtain ⟨opcode₁, vch₁, pc₁, v₁, hop₁, hmatch₁, hrest⟩ := matchTemplate_cons (by decide) hmatch
    obtain ⟨opcode₂, vch₂, pc₂, v₂, hop₂, hmatch₂, hrest⟩ := matchTemplate_cons (by decide) hrest
    obtain ⟨opcode₃, vch₃, pc₃, v₃, hop₃, hmatch₃, hrest⟩ := matchTemplate_cons (by decide) hrest
    obtain ⟨opcode₄, vch₄, pc₄, v₄, hop₄, hmatch₄, hrest⟩ := matchTemplate_cons (by decide) hrest
    obtain ⟨rfl, rfl, rfl⟩ := matchOp_opcode (by decide) hmatch₁
    obtain ⟨hsize, rfl⟩ := matchOp_smallData hmatch₂
    obtain ⟨rfl, rfl, rfl⟩ := matchOp_opcode (by decide) hmatch₃
    obtain ⟨hsize', rfl⟩ := matchOp_smallData hmatch₄
    obtain ⟨rfl, rfl⟩ := getOp_of_nil hrest
    exact ⟨rfl, .inr (.inr ⟨(opcode₂, vch₂), (opcode₄, vch₄), hsize, hsize',
      .cons hop₁ (.cons hop₂ (.cons hop₃ (.cons hop₄ .nil)))⟩)⟩

/-- **What is accepted is of a standard form**, or has an opcode behind
`OP_RETURN`. -/
theorem standard_of_solver {type : TxnOutType} (h : solver script = (true, type, found)) :
    Standard script type found ∨ ReturnsOpcode script := by
  cases type with
  | TX_NONSTANDARD =>
    obtain ⟨-, template, hmem, -⟩ := solver_template h (by decide)
    simp [mTemplates] at hmem
  | TX_PUBKEY =>
    obtain ⟨opcode, key, rfl, hlow, hhigh, hops⟩ := solver_pubKey h
    obtain ⟨pc, hop, -⟩ := Ops.tail hops
    have hpush : opcode ≤ OP_PUSHDATA4 := Machine.le_of_data hop (by rintro rfl; exact absurd hlow (by decide))
    exact .inl (@Standard.pubKey script (opcode, key) ⟨hlow, hhigh, hpush⟩ hops)
  | TX_PUBKEYHASH =>
    obtain ⟨opcode, hash, rfl, hlen, hops⟩ := solver_pubKeyHash h
    exact .inl (.pubKeyHash hlen hops)
  | TX_SCRIPTHASH =>
    obtain ⟨hhash, rfl⟩ := solver_scriptHash h
    exact .inl (.scriptHash hhash)
  | TX_MULTISIG =>
    obtain ⟨m, keys, rfl, hm, hmn, hn, hkeys, hops⟩ := solver_multisig h
    exact .inl (.multisig hm hmn hn hkeys hops)
  | TX_NULL_DATA =>
    obtain ⟨rfl, hops | ⟨op, hsize, hops⟩ | ⟨op, op', hsize, hsize', hops⟩⟩ := solver_nullData h
    · exact .inl (.nullData hops)
    · rcases Nat.lt_or_ge OP_PUSHDATA4 op.1 with hcode | hpush
      · exact .inr (.inl ⟨op, hcode, hops⟩)
      · exact .inl (.oneData ⟨hpush, hsize⟩ hops)
    · rcases Nat.lt_or_ge OP_PUSHDATA4 op.1 with hcode | hpush
      · exact .inr (.inr ⟨op, op', .inl hcode, hops⟩)
      · rcases Nat.lt_or_ge OP_PUSHDATA4 op'.1 with hcode | hpush'
        · exact .inr (.inr ⟨op, op', .inr hcode, hops⟩)
        · exact .inl (.twoData ⟨hpush, hsize⟩ ⟨hpush', hsize'⟩ hops)

/-! ## What is refused -/

/-- Where no template gives a result there are no solutions, unless the counts of
a multisig script do not fit. -/
theorem scanTemplates_false {templates : List (TxnOutType × List Nat)} {type : TxnOutType}
    (h : scanTemplates script templates = (false, type, found)) :
    type = .TX_NONSTANDARD ∧ found = [] ∨ ∃ template, (TxnOutType.TX_MULTISIG, template) ∈ templates ∧
      matchTemplate template script [] = some found ∧ ¬ multisigOk found := by
  induction templates with
  | nil =>
    cases h
    exact .inl ⟨rfl, rfl⟩
  | cons entry templates ih =>
    obtain ⟨typeRet, template⟩ := entry
    rw [scanTemplates] at h
    cases hmatch : matchTemplate template script [] with
    | none =>
      rw [hmatch] at h
      rcases ih h with hnone | ⟨template', hmem, hrest⟩
      · exact .inl hnone
      · exact .inr ⟨template', List.mem_cons_of_mem _ hmem, hrest⟩
    | some vSolutions =>
      rw [hmatch] at h
      obtain ⟨hok, hrest⟩ := Prod.mk.inj h
      obtain ⟨-, rfl⟩ := Prod.mk.inj hrest
      have hok := of_decide_eq_false hok
      rw [Classical.not_imp] at hok
      obtain ⟨rfl, hcount⟩ := hok
      exact .inr ⟨template, List.mem_cons_self, hmatch, hcount⟩

theorem decode_byte {a : Nat} (h : a = OP_0 ∨ OP_1 ≤ a ∧ a ≤ OP_16) :
    (UInt8.ofNat (decodeOP_N a)).toNat = decodeOP_N a := by
  have hzero : OP_0 = 0 := rfl
  have hone : OP_1 = 81 := rfl
  have hsixteen : OP_16 = 96 := rfl
  rw [UInt8.toNat_ofNat']
  refine Nat.mod_eq_of_lt ?_
  unfold decodeOP_N
  split <;> omega

/-- **What is refused** has no type and no solutions, unless it is a multisig
script whose counts do not fit. -/
theorem refused_of_solver {type : TxnOutType} (h : solver script = (false, type, found)) :
    type = .TX_NONSTANDARD ∧ found = [] ∨ Miscounted script := by
  unfold solver at h
  split at h
  next => cases h
  next =>
    rcases scanTemplates_false h with hnone | ⟨template, hmem, hmatch, hcount⟩
    · exact .inl hnone
    · have htemplate : template = [OP_SMALLINTEGER, OP_PUBKEYS, OP_SMALLINTEGER, OP_CHECKMULTISIG] := by
        simpa [mTemplates] using hmem
      subst htemplate
      obtain ⟨a, keys, b, ha, hb, hkeys, rfl, hops⟩ := matchTemplate_multisig hmatch
      refine .inr ⟨a, keys, b, ha, hb, hkeys, hops, fun hfits => hcount ?_⟩
      obtain ⟨hm, hmn, hn⟩ := hfits
      simp only [multisigOk, List.headD_cons, List.getLastD_cons, List.getLastD_concat, List.length_cons,
        List.length_append, List.length_map, List.length_nil, decode_byte ha, decode_byte hb]
      exact ⟨hm, by omega, by omega, by omega⟩

/-! ## Standard scripts -/

/-- **`Solver` knows the standard forms**: it accepts every script of such a form
and finds its type and solutions; what it accepts is of such a form, but for
opcodes behind `OP_RETURN`; and it finds nothing in what it refuses, but for
multisig scripts whose counts do not fit. -/
structure SolvesStandard (script : CScript) : Prop where
  accepts : ∀ type found, Standard script type found → solver script = (true, type, found)
  accepted : ∀ type found, solver script = (true, type, found) → Standard script type found ∨ ReturnsOpcode script
  refused : ∀ type found, solver script = (false, type, found) →
    type = .TX_NONSTANDARD ∧ found = [] ∨ Miscounted script

theorem solver_solves (script : CScript) : SolvesStandard script :=
  ⟨fun _ _ => solver_of_standard, fun _ _ => standard_of_solver, fun _ _ => refused_of_solver⟩

/-- No solutions are found behind `OP_RETURN`, where data are pushed. -/
theorem not_solved_data : Ops [0x6a, 0x01, 0x07] [(OP_RETURN, []), (1, [0x07])] ∧
    solver [0x6a, 0x01, 0x07] = (true, .TX_NULL_DATA, []) :=
  ⟨.cons rfl (.cons rfl .nil), by decide⟩

end Pinkcoin
