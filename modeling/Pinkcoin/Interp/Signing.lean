/-
Signing: the key store, the scripts that are the wallet's own, signatures for
a standard script, and the merging of two partly signed scripts.
-/
import Pinkcoin.Interp.SigOps
import Pinkcoin.Solver
import Pinkcoin.Interp.Templates

namespace Pinkcoin

open CScript (push isPayToScriptHash OP_0)

/-! ## Keys -/

/-- `Hash` as a number. -/
def ScriptParams.hash (P : ScriptParams) (bytes : List UInt8) : Uint256 := CScript.leNat (P.hash256 bytes).toList

/-- The secret keys: `GetPubKey`, and `Sign`, whose outcome can differ from
call to call. -/
structure Signer (K : Type) where
  pubKey : K → Valtype
  sign : Nat → K → Uint256 → Option Valtype

/-- A hash type that `IsCanonicalSignature` admits. -/
def admitted (nHashType : BitVec 32) : Prop :=
  nHashType.toNat < 256 ∧ SIGHASH_ALL ≤ nHashType.toNat &&& 0x7f ∧ nHashType.toNat &&& 0x7f ≤ SIGHASH_SINGLE

instance (nHashType : BitVec 32) : Decidable (admitted nHashType) := inferInstanceAs (Decidable (_ ∧ _ ∧ _))

/-- A signature with its hash type. -/
def withType (vchSig : Valtype) (nHashType : BitVec 32) : Valtype := vchSig ++ [UInt8.ofNat nHashType.toNat]

/-- What the code relies on: `Sign` yields a canonical signature, which
`Verify` accepts. A signature is not the hash of a key, and no other bytes
have the hash of a key that is owned. -/
structure Signer.Sound {K : Type} (S : Signer K) (P : ScriptParams) : Prop where
  signs : ∀ call key hash, ∃ vchSig, S.sign call key hash = some vchSig
  accepted : ∀ call key hash vchSig, S.sign call key hash = some vchSig → P.verify (S.pubKey key) hash vchSig = true
  canonical : ∀ call key hash vchSig nHashType, S.sign call key hash = some vchSig → admitted nHashType →
    isCanonicalSignature (withType vchSig nHashType) = true
  canonicalKey : ∀ key, isCanonicalPubKey (S.pubKey key) = true
  notHash : ∀ call key key' hash vchSig nHashType, S.sign call key hash = some vchSig →
    withType vchSig nHashType ≠ (P.hash160 (S.pubKey key')).toList
  idOf : ∀ key vch, P.hash160 vch = P.hash160 (S.pubKey key) → vch = S.pubKey key

/-- `CBasicKeyStore`: every key is under the hash of its public key, every
script under its own, and none is longer than can be pushed. -/
structure CBasicKeyStore {K : Type} (P : ScriptParams) (S : Signer K) where
  mapKeys : List (Bytes 20 × K)
  mapScripts : List (Bytes 20 × CScript)
  key_id : ∀ p ∈ mapKeys, p.1 = P.hash160 (S.pubKey p.2)
  script_id : ∀ p ∈ mapScripts, p.1 = P.hash160 p.2 ∧ p.2.length ≤ MAX_SCRIPT_ELEMENT_SIZE

section

variable {K : Type} {P : ScriptParams} {S : Signer K}

namespace CBasicKeyStore

/-- A store without keys and scripts. -/
def empty : CBasicKeyStore P S := ⟨[], [], fun _ h => (nomatch h), fun _ h => (nomatch h)⟩

variable (keystore : CBasicKeyStore P S)

/-- `AddKey`. -/
def addKey (key : K) : CBasicKeyStore P S where
  mapKeys := (P.hash160 (S.pubKey key), key) :: keystore.mapKeys
  mapScripts := keystore.mapScripts
  key_id := List.forall_mem_cons.mpr ⟨rfl, keystore.key_id⟩
  script_id := keystore.script_id

/-- `AddCScript`. -/
def addCScript (redeemScript : CScript) : CBasicKeyStore P S :=
  if h : redeemScript.length ≤ MAX_SCRIPT_ELEMENT_SIZE then
    { mapKeys := keystore.mapKeys
      mapScripts := (P.hash160 redeemScript, redeemScript) :: keystore.mapScripts
      key_id := keystore.key_id
      script_id := List.forall_mem_cons.mpr ⟨⟨rfl, h⟩, keystore.script_id⟩ }
  else keystore

/-- `GetKey`. -/
def getKey (address : Bytes 20) : Option K := keystore.mapKeys.lookup address

/-- `HaveKey`. -/
def haveKey (address : Bytes 20) : Bool := (keystore.getKey address).isSome

/-- `GetCScript`. -/
def getCScript (hash : Bytes 20) : Option CScript := keystore.mapScripts.lookup hash

end CBasicKeyStore

/-! ## IsMine -/

variable (keystore : CBasicKeyStore P S)

/-- `HaveKeys`. -/
def haveKeys (pubkeys : List Valtype) : Nat := pubkeys.countP fun pubkey => keystore.haveKey (P.hash160 pubkey)

/-- The public keys among the solutions of a multisig script. -/
def multisigKeys (vSolutions : List Valtype) : List Valtype := (vSolutions.drop 1).dropLast

/-- `IsMine(keystore, scriptPubKey)`, which follows redeem scripts as deep as
they are nested. -/
def isMine : Nat → CScript → Bool
  | 0, _ => false
  | depth + 1, scriptPubKey =>
    match solver scriptPubKey with
    | (true, .TX_PUBKEY, vSolutions) => keystore.haveKey (P.hash160 (vSolutions.headD []))
    | (true, .TX_PUBKEYHASH, vSolutions) => keystore.haveKey (uint160OfVch (vSolutions.headD []))
    | (true, .TX_SCRIPTHASH, vSolutions) =>
      match keystore.getCScript (uint160OfVch (vSolutions.headD [])) with
      | none => false
      | some subscript => isMine depth subscript
    | (true, .TX_MULTISIG, vSolutions) => haveKeys keystore (multisigKeys vSolutions) = (multisigKeys vSolutions).length
    | _ => false

/-! ## Signatures -/

/-- `Sign1`: its result, and the script it adds to. -/
def sign1 (call : Nat) (address : Bytes 20) (hash : Uint256) (nHashType : BitVec 32) (scriptSigRet : CScript) :
    Bool × CScript :=
  match (keystore.getKey address).bind fun key => S.sign call key hash with
  | none => (false, scriptSigRet)
  | some vchSig => (true, scriptSigRet ++ push (withType vchSig nHashType))

/-- The loop of `SignN`. -/
def signNLoop (hash : Uint256) (nHashType : BitVec 32) (nRequired : Nat) :
    Nat → List Valtype → Nat → CScript → Nat × CScript
  | _, [], nSigned, scriptSigRet => (nSigned, scriptSigRet)
  | i, pubkey :: pubkeys, nSigned, scriptSigRet =>
    if nSigned < nRequired then
      let r := sign1 keystore i (P.hash160 pubkey) hash nHashType scriptSigRet
      signNLoop hash nHashType nRequired (i + 1) pubkeys (if r.1 then nSigned + 1 else nSigned) r.2
    else (nSigned, scriptSigRet)

/-- `SignN`. -/
def signN (multisigdata : List Valtype) (hash : Uint256) (nHashType : BitVec 32) (scriptSigRet : CScript) :
    Bool × CScript :=
  let nRequired := ((multisigdata.headD []).headD 0).toNat
  let r := signNLoop keystore hash nHashType nRequired 0 (multisigKeys multisigdata) 0 scriptSigRet
  (r.1 = nRequired, r.2)

/-- `Solver(keystore, scriptPubKey, hash, nHashType, scriptSigRet, whichTypeRet)`:
its result, the signatures or the redeem script, and the type. -/
def solve (scriptPubKey : CScript) (hash : Uint256) (nHashType : BitVec 32) : Bool × CScript × TxnOutType :=
  match solver scriptPubKey with
  | (true, .TX_PUBKEY, vSolutions) =>
    let r := sign1 keystore 0 (P.hash160 (vSolutions.headD [])) hash nHashType []
    (r.1, r.2, .TX_PUBKEY)
  | (true, .TX_PUBKEYHASH, vSolutions) =>
    let keyID := uint160OfVch (vSolutions.headD [])
    let r := sign1 keystore 0 keyID hash nHashType []
    if r.1 then (true, r.2 ++ push (((keystore.getKey keyID).map S.pubKey).getD []), .TX_PUBKEYHASH)
    else (false, r.2, .TX_PUBKEYHASH)
  | (true, .TX_SCRIPTHASH, vSolutions) =>
    match keystore.getCScript (uint160OfVch (vSolutions.headD [])) with
    | none => (false, [], .TX_SCRIPTHASH)
    | some redeemScript => (true, redeemScript, .TX_SCRIPTHASH)
  | (true, .TX_MULTISIG, vSolutions) =>
    let r := signN keystore vSolutions hash nHashType [UInt8.ofNat OP_0]
    (r.1, r.2, .TX_MULTISIG)
  | (_, whichType, _) => (false, [], whichType)

/-- `txTo.vin[nIn].scriptSig = scriptSig`. -/
def setScriptSig (txTo : CTransaction) (nIn : Nat) (scriptSig : CScript) : CTransaction :=
  { txTo with vin := txTo.vin.modify nIn fun txin => { txin with scriptSig := scriptSig } }

/-- `SignSignature`: its result, and the transaction it leaves. -/
def signSignature (fromPubKey : CScript) (txTo : CTransaction) (nIn : Nat) (nHashType : BitVec 32) :
    Bool × CTransaction :=
  let hash := signatureHash P.hash fromPubKey txTo nIn nHashType
  let (fSolved, scriptSig, whichType) := solve keystore fromPubKey hash nHashType
  let txTo := setScriptSig txTo nIn scriptSig
  if fSolved = false then (false, txTo)
  else if whichType = .TX_SCRIPTHASH then
    let subscript := scriptSig
    let hash2 := signatureHash P.hash subscript txTo nIn nHashType
    let (fSolved, scriptSig, subType) := solve keystore subscript hash2 nHashType
    let scriptSig := scriptSig ++ push subscript
    let txTo := setScriptSig txTo nIn scriptSig
    if fSolved = false ∨ subType = .TX_SCRIPTHASH then (false, txTo)
    else ((verifyScript P ⟨txTo, nIn, 0⟩ scriptSig fromPubKey).1, txTo)
  else ((verifyScript P ⟨txTo, nIn, 0⟩ scriptSig fromPubKey).1, txTo)

end

end Pinkcoin
