/-
Standard scripts: the templates `Solver` compares a script with, and the
address a script pays to. The template scan keeps what it has found so far
also where it gives up, for callers that do not look at its result.
-/
import Pinkcoin.Script
import Pinkcoin.Smsg.Address

namespace Pinkcoin

open CScript (getOp isPayToScriptHash)

/-! ## Templates -/

/-- `txnouttype`. -/
inductive TxnOutType
  | TX_NONSTANDARD
  | TX_PUBKEY
  | TX_PUBKEYHASH
  | TX_SCRIPTHASH
  | TX_MULTISIG
  | TX_NULL_DATA
  deriving DecidableEq, Repr

namespace CScript

def OP_0 : Nat := 0x00
def OP_RETURN : Nat := 0x6a
def OP_DUP : Nat := 0x76
def OP_EQUALVERIFY : Nat := 0x88
def OP_SMALLDATA : Nat := 0xf9
def OP_SMALLINTEGER : Nat := 0xfa
def OP_PUBKEYS : Nat := 0xfb
def OP_PUBKEYHASH : Nat := 0xfd
def OP_PUBKEY : Nat := 0xfe

/-- `DecodeOP_N`. -/
def decodeOP_N (opcode : Nat) : Nat := if opcode = OP_0 then 0 else opcode - (OP_1 - 1)

end CScript

open CScript

/-- The opcodes of a template. They carry no data. -/
def mTemplates : List (TxnOutType × List Nat) := [
  (.TX_PUBKEY, [OP_PUBKEY, OP_CHECKSIG]),
  (.TX_PUBKEYHASH, [OP_DUP, OP_HASH160, OP_PUBKEYHASH, OP_EQUALVERIFY, OP_CHECKSIG]),
  (.TX_MULTISIG, [OP_SMALLINTEGER, OP_PUBKEYS, OP_SMALLINTEGER, OP_CHECKMULTISIG]),
  (.TX_NULL_DATA, [OP_RETURN]),
  (.TX_NULL_DATA, [OP_RETURN, OP_SMALLDATA]),
  (.TX_NULL_DATA, [OP_RETURN, OP_SMALLDATA, OP_RETURN, OP_SMALLDATA])]

/-- `MAX_OP_RETURN_RELAY`. -/
def MAX_OP_RETURN_RELAY : Nat := 80

/-- The end of the loop body: whether an operation is what the template has
in its place, and what it adds to the solutions. -/
def matchOp (opcode2 opcode1 : Nat) (vch1 : List UInt8) (vSolutions : List (List UInt8)) : Option (List (List UInt8)) :=
  if opcode2 = OP_PUBKEY then if vch1.length < 33 ∨ 120 < vch1.length then none else some (vSolutions ++ [vch1])
  else if opcode2 = OP_PUBKEYHASH then if vch1.length ≠ 20 then none else some (vSolutions ++ [vch1])
  else if opcode2 = OP_SMALLINTEGER then
    if opcode1 = OP_0 ∨ (OP_1 ≤ opcode1 ∧ opcode1 ≤ OP_16) then
      some (vSolutions ++ [[UInt8.ofNat (decodeOP_N opcode1)]])
    else none
  else if opcode2 = OP_SMALLDATA then if MAX_OP_RETURN_RELAY < vch1.length then none else some vSolutions
  else if opcode1 ≠ opcode2 ∨ vch1 ≠ [] then none
  else some vSolutions

/-- The inner loop at `OP_PUBKEYS`: the keys that are pushed, and the operation
after them. Where none can be read the opcode is `OP_INVALIDOPCODE`. -/
def takePubKeys : Nat → Nat × List UInt8 × CScript → List (List UInt8) → (Nat × List UInt8 × CScript) × List (List UInt8)
  | 0, op1, vSolutions => (op1, vSolutions)
  | fuel + 1, (opcode1, vch1, pc1), vSolutions =>
    if 33 ≤ vch1.length ∧ vch1.length ≤ 120 then
      match getOp pc1 with
      | none => ((OP_INVALIDOPCODE, [], []), vSolutions ++ [vch1])
      | some op1 => takePubKeys fuel op1 (vSolutions ++ [vch1])
    else ((opcode1, vch1, pc1), vSolutions)

/-- The comparison with one template. -/
def matchTemplate : List Nat → CScript → List (List UInt8) → Option (List (List UInt8))
  | [], [], vSolutions => some vSolutions
  | [], _ :: _, _ => none
  | opcode2 :: template, pc1, vSolutions =>
    match getOp pc1 with
    | none => none
    | some op1 =>
      if opcode2 = OP_PUBKEYS then
        let ((opcode1, vch1, pc1), vSolutions) := takePubKeys (pc1.length + 1) op1 vSolutions
        match template with
        | [] => none
        | opcode2 :: template => (matchOp opcode2 opcode1 vch1 vSolutions).bind (matchTemplate template pc1)
      else (matchOp opcode2 op1.1 op1.2.1 vSolutions).bind (matchTemplate template op1.2.2)

/-- The additional checks of a multisig script: `m` of the `n` keys that are
there. -/
def multisigOk (vSolutions : List (List UInt8)) : Prop :=
  let m := ((vSolutions.headD []).headD 0).toNat
  let n := ((vSolutions.getLastD []).headD 0).toNat
  1 ≤ m ∧ 1 ≤ n ∧ m ≤ n ∧ vSolutions.length = n + 2

instance (vSolutions : List (List UInt8)) : Decidable (multisigOk vSolutions) :=
  inferInstanceAs (Decidable (_ ∧ _ ∧ _ ∧ _))

/-- The loop over the templates: the first one that fits. -/
def scanTemplates (scriptPubKey : CScript) : List (TxnOutType × List Nat) → Bool × TxnOutType × List (List UInt8)
  | [] => (false, .TX_NONSTANDARD, [])
  | (typeRet, template) :: rest =>
    match matchTemplate template scriptPubKey [] with
    | none => scanTemplates scriptPubKey rest
    | some vSolutions =>
      (decide (typeRet = .TX_MULTISIG → multisigOk vSolutions), typeRet, vSolutions)

/-- `Solver(scriptPubKey, typeRet, vSolutionsRet)`: its result, and the two
values it returns with it. -/
def solver (scriptPubKey : CScript) : Bool × TxnOutType × List (List UInt8) :=
  if isPayToScriptHash scriptPubKey then (true, .TX_SCRIPTHASH, [(scriptPubKey.drop 2).take 20])
  else scanTemplates scriptPubKey mTemplates

/-! ## Addresses -/

/-- `uint160` of a vector, which is zero for one of another size. -/
def uint160OfVch (vch : List UInt8) : Bytes 20 := if h : vch.length = 20 then ⟨vch, h⟩ else List.Vector.replicate 20 0

/-- `CTxDestination`, without stealth addresses, which no script pays to. -/
inductive CTxDestination
  | keyID (id : CKeyID)
  | scriptID (id : Bytes 20)
  deriving DecidableEq

/-- `ExtractDestination`. -/
def extractDestination (hash160 : List UInt8 → Bytes 20) (scriptPubKey : CScript) : Option CTxDestination :=
  match solver scriptPubKey with
  | (true, .TX_PUBKEY, vSolutions) => some (.keyID (hash160 (vSolutions.headD [])))
  | (true, .TX_PUBKEYHASH, vSolutions) => some (.keyID (uint160OfVch (vSolutions.headD [])))
  | (true, .TX_SCRIPTHASH, vSolutions) => some (.scriptID (uint160OfVch (vSolutions.headD [])))
  | _ => none

/-- The script of a payment to a key. -/
def payToKeyID (id : CKeyID) : CScript :=
  [OP_DUP, OP_HASH160].map UInt8.ofNat ++ push id.toList ++ [OP_EQUALVERIFY, OP_CHECKSIG].map UInt8.ofNat

/-! ## Reading a push -/

namespace CScript

/-- A push whose length is in the bytes after its opcode. -/
theorem getOp_pushData {opcode k : Nat} {b rest : List UInt8}
    (hop : opcode = OP_PUSHDATA1 ∧ k = 1 ∨ opcode = OP_PUSHDATA2 ∧ k = 2 ∨ opcode = OP_PUSHDATA4 ∧ k = 4)
    (h : b.length < 256 ^ k) : getOp (UInt8.ofNat opcode :: leBytes k b.length ++ b ++ rest) = some (opcode, b, rest) := by
  have hlen : leNat (leBytes k b.length) = b.length := by rw [leNat_leBytes, Nat.mod_eq_of_lt h]
  have htake : (leBytes k b.length ++ (b ++ rest)).take k = leBytes k b.length := List.take_left' (length_leBytes k _)
  have hdrop : (leBytes k b.length ++ (b ++ rest)).drop k = b ++ rest := List.drop_left' (length_leBytes k _)
  have hnot : ¬ k + (b.length + rest.length) < k := by omega
  rw [List.cons_append, List.cons_append, List.append_assoc]
  rcases hop with ⟨rfl, rfl⟩ | ⟨rfl, rfl⟩ | ⟨rfl, rfl⟩ <;>
    simp [getOp, OP_PUSHDATA1, OP_PUSHDATA2, OP_PUSHDATA4, length_leBytes, htake, hdrop, hlen, hnot]

/-- A push is read back. -/
theorem getOp_push_append {b rest : List UInt8} (h : b.length < 2 ^ 32) :
    ∃ opcode ≤ OP_PUSHDATA4, getOp (push b ++ rest) = some (opcode, b, rest) := by
  unfold push
  split_ifs with hdirect hone htwo
  · simp only [OP_PUSHDATA1] at hdirect
    have hbyte : (UInt8.ofNat b.length).toNat = b.length := by
      simp
      omega
    have hle : b.length ≤ 0x4e := by omega
    refine ⟨b.length, by simpa only [OP_PUSHDATA4] using hle, ?_⟩
    simp [getOp, hbyte, OP_PUSHDATA4, OP_PUSHDATA1, hdirect, hle]
  · exact ⟨OP_PUSHDATA1, by decide, getOp_pushData (.inl ⟨rfl, rfl⟩) (by omega)⟩
  · exact ⟨OP_PUSHDATA2, by decide, getOp_pushData (.inr (.inl ⟨rfl, rfl⟩)) (by omega)⟩
  · exact ⟨OP_PUSHDATA4, le_rfl, getOp_pushData (.inr (.inr ⟨rfl, rfl⟩)) (by omega)⟩

end CScript

end Pinkcoin
