/-
What is the wallet's own can be spent. For a standard script whose keys are in
the store `SignSignature` builds a script that `VerifyScript` accepts; a redeem
script that is itself a payment to a script is the exception, which `IsMine`
follows and `SignSignature` refuses.
-/
import Pinkcoin.Interp.Verify
import Pinkcoin.Interp.Signing

namespace Pinkcoin

open Machine hiding push
open Greedy
open CScript (push findAndDelete isPayToScriptHash OP_PUSHDATA1 OP_PUSHDATA4 OP_1 OP_0)

variable {K : Type} {P : ScriptParams} {S : Signer K} {keystore : CBasicKeyStore P S} {script : CScript}
  {ops : List (Nat × Valtype)} {stack values : List Valtype} {txTo : CTransaction} {nIn : Nat}
  {nHashType : BitVec 32} {vchSig vchPubKey : Valtype} {key : K} {call : Nat}

/-! ## What is signed -/

/-- The signature hash leaves the signatures out. -/
theorem signatureHash_setScriptSig (hash : List UInt8 → Uint256) (scriptSig : CScript) :
    signatureHash hash script (setScriptSig txTo nIn scriptSig) nIn nHashType =
      signatureHash hash script txTo nIn nHashType := by
  have hblank : ∀ code, blankSignatures code nIn (setScriptSig txTo nIn scriptSig).vin = blankSignatures code nIn txTo.vin := by
    intro code
    have herase : (txTo.vin.modify nIn fun txin => { txin with scriptSig := scriptSig }).map
        (fun txin => { txin with scriptSig := [] }) = txTo.vin.map fun txin => { txin with scriptSig := [] } := by
      refine List.ext_getElem? fun i => ?_
      rw [List.getElem?_map, List.getElem?_map, List.getElem?_modify]
      cases txTo.vin[i]? with
      | none => rfl
      | some txin =>
        by_cases hi : nIn = i
        · simp [hi]
        · simp [hi]
    rw [blankSignatures, setScriptSig, herase, blankSignatures]
  have htmp : txTmp script (setScriptSig txTo nIn scriptSig) nIn nHashType = txTmp script txTo nIn nHashType := by
    unfold txTmp
    rw [hblank]
    rfl
  have hfails : sigHashFails (setScriptSig txTo nIn scriptSig) nIn nHashType ↔ sigHashFails txTo nIn nHashType := by
    simp [sigHashFails, setScriptSig]
  by_cases h : sigHashFails txTo nIn nHashType
  · rw [signatureHash, signatureHash, if_pos h, if_pos (hfails.mpr h)]
  · rw [signatureHash, signatureHash, if_neg h, if_neg (mt hfails.mp h), sigBytes, sigBytes, htmp]

/-- A signature is checked against the hash of its own type. -/
theorem checkSig_withType (htype : nHashType.toNat < 256) :
    checkSig P ⟨txTo, nIn, 0⟩ (withType vchSig nHashType) vchPubKey script =
      P.verify vchPubKey (signatureHash P.hash script txTo nIn nHashType) vchSig := by
  have hbyte : BitVec.ofNat 32 (UInt8.ofNat nHashType.toNat).toNat = nHashType := by
    rw [UInt8.toNat_ofNat', Nat.mod_eq_of_lt htype, BitVec.ofNat_toNat, BitVec.setWidth_eq]
  have hlast : (withType vchSig nHashType).getLast? = some (UInt8.ofNat nHashType.toNat) := List.getLast?_concat
  have hdrop : (withType vchSig nHashType).dropLast = vchSig := List.dropLast_concat
  rw [checkSig, hlast]
  simp only [true_or, if_true, hbyte, hdrop]
  rfl

/-- What the store makes is valid. -/
theorem valid_sign (hS : S.Sound P) (htype : admitted nHashType) {scriptSig : CScript}
    (hsign : S.sign call key (signatureHash P.hash script txTo nIn nHashType) = some vchSig) :
    valid P ⟨setScriptSig txTo nIn scriptSig, nIn, 0⟩ script (withType vchSig nHashType) (S.pubKey key) = true := by
  rw [valid, hS.canonical _ _ _ _ _ hsign htype, hS.canonicalKey, checkSig_withType htype.1, signatureHash_setScriptSig]
  exact hS.accepted _ _ _ _ hsign

/-! ## Signatures are no part of the script -/

theorem canonical_length (h : isCanonicalSignature vchSig = true) : 9 ≤ vchSig.length ∧ vchSig.length ≤ 73 := by
  simp only [isCanonicalSignature, Bool.and_eq_true, decide_eq_true_eq] at h
  omega

/-- A signature starts with another byte than a public key. -/
theorem sig_ne_pubKey (hsig : isCanonicalSignature vchSig = true) (hkey : isCanonicalPubKey vchPubKey = true) :
    vchPubKey ≠ vchSig := by
  rintro rfl
  have hfirst : byteAt vchPubKey 0 = 0x30 := by
    simp only [isCanonicalSignature, Bool.and_eq_true, decide_eq_true_eq] at hsig
    omega
  cases vchPubKey with
  | nil => simp [isCanonicalPubKey] at hkey
  | cons b vchPubKey =>
    have hb : b = 0x30 := by
      refine UInt8.toNat_inj.mp ?_
      simpa [byteAt] using hfirst
    subst hb
    simp [isCanonicalPubKey] at hkey

theorem pubKey_length (h : isCanonicalPubKey vchPubKey = true) : 33 ≤ vchPubKey.length ∧ vchPubKey.length ≤ 65 := by
  cases vchPubKey with
  | nil => simp [isCanonicalPubKey] at h
  | cons b vchPubKey =>
    simp only [isCanonicalPubKey, Bool.and_eq_true, decide_eq_true_eq] at h
    obtain ⟨hlow, h⟩ := h
    split at h
    · simp only [decide_eq_true_eq] at h
      omega
    · simp only [Bool.and_eq_true, decide_eq_true_eq] at h
      omega

/-- A signature is left in no script whose data are keys, hashes of keys or
nothing. -/
theorem delete_withType (hS : S.Sound P) (htype : admitted nHashType) {hash : Uint256}
    (hsign : S.sign call key hash = some vchSig) (hops : Ops script ops)
    (hdata : ∀ op ∈ ops, op.2 = [] ∨ isCanonicalPubKey op.2 = true ∨ ∃ key, op.2 = (P.hash160 (S.pubKey key)).toList) :
    findAndDelete script (push (withType vchSig nHashType)) = script := by
  have hcanonical := hS.canonical _ _ _ _ _ hsign htype
  have hlength := canonical_length hcanonical
  refine findAndDelete_of_ops (by simp only [OP_PUSHDATA1]; omega) hops fun op hop => ?_
  rcases hdata op hop with hnil | hkey | ⟨key', hhash⟩
  · intro heq
    rw [← heq, hnil] at hlength
    exact absurd hlength.1 (by decide)
  · exact sig_ne_pubKey hcanonical hkey
  · rw [hhash]
    exact fun heq => hS.notHash _ _ key' _ _ _ hsign heq.symm

/-! ## Keys of the store -/

theorem getKey_id {address : Bytes 20} (h : keystore.getKey address = some key) : address = P.hash160 (S.pubKey key) := by
  obtain ⟨l, r, hsplit, -⟩ := List.lookup_eq_some_iff.mp h
  refine keystore.key_id (address, key) ?_
  rw [hsplit]
  simp

theorem getCScript_id {hash : Bytes 20} {redeem : CScript} (h : keystore.getCScript hash = some redeem) :
    hash = P.hash160 redeem ∧ redeem.length ≤ MAX_SCRIPT_ELEMENT_SIZE := by
  obtain ⟨l, r, hsplit, -⟩ := List.lookup_eq_some_iff.mp h
  refine keystore.script_id (hash, redeem) ?_
  rw [hsplit]
  simp

/-- A key that is owned is found, and signs. -/
theorem sign1_owned (hS : S.Sound P) {address : Bytes 20} (h : keystore.haveKey address = true) (call : Nat) (hash : Uint256)
    (scriptSig : CScript) : ∃ key vchSig, keystore.getKey address = some key ∧ S.sign call key hash = some vchSig ∧
      sign1 keystore call address hash nHashType scriptSig = (true, scriptSig ++ push (withType vchSig nHashType)) := by
  obtain ⟨key, hkey⟩ := Option.isSome_iff_exists.mp h
  obtain ⟨vchSig, hsign⟩ := hS.signs call key hash
  refine ⟨key, vchSig, hkey, hsign, ?_⟩
  rw [sign1, hkey, Option.bind_some, hsign]

theorem toList_uint160OfVch {vch : Valtype} (h : vch.length = 20) : (uint160OfVch vch).toList = vch := by
  have hsome : uint160OfVch vch = ⟨vch, h⟩ := dif_pos h
  rw [hsome]
  rfl

/-! ## Standard scripts -/

/-- Values that are pushed for a script: it runs on them to a true top,
whatever the signatures of the transaction are. -/
structure Solves (P : ScriptParams) (txTo : CTransaction) (nIn : Nat) (script : CScript) (values : List Valtype) : Prop where
  small : ∀ v ∈ values, v.length ≤ MAX_SCRIPT_ELEMENT_SIZE
  few : values.length ≤ 18
  short : script.length ≤ 10000
  runs : ∀ scriptSig, Halts P ⟨setScriptSig txTo nIn scriptSig, nIn, 0⟩ script script values.reverse 0 [ofVerdict true]

theorem withType_small (hS : S.Sound P) (htype : admitted nHashType) {hash : Uint256}
    (hsign : S.sign call key hash = some vchSig) : (withType vchSig nHashType).length ≤ MAX_SCRIPT_ELEMENT_SIZE := by
  have hlength := canonical_length (hS.canonical _ _ _ _ _ hsign htype)
  simp only [MAX_SCRIPT_ELEMENT_SIZE]
  omega

theorem pubKey_small (hS : S.Sound P) (key : K) : (S.pubKey key).length ≤ MAX_SCRIPT_ELEMENT_SIZE := by
  have hlength := pubKey_length (hS.canonicalKey key)
  simp only [MAX_SCRIPT_ELEMENT_SIZE]
  omega

/-- A payment to a key. -/
theorem solves_pubKey (hS : S.Sound P) (htype : admitted nHashType) {found : List Valtype}
    (hsolver : solver script = (true, .TX_PUBKEY, found)) (hmine : keystore.haveKey (P.hash160 (found.headD [])) = true) :
    ∃ values, solve keystore script (signatureHash P.hash script txTo nIn nHashType) nHashType =
      (true, pushAll values, .TX_PUBKEY) ∧ Solves P txTo nIn script values := by
  obtain ⟨opcode, vchPubKey, rfl, hlow, hhigh, hops⟩ := solver_pubKey hsolver
  rw [List.headD_cons] at hmine
  obtain ⟨key, vchSig, hkey, hsign, hrun⟩ :=
    @sign1_owned _ P S keystore nHashType hS _ hmine 0 (signatureHash P.hash script txTo nIn nHashType) []
  obtain rfl := hS.idOf key vchPubKey (getKey_id hkey)
  refine ⟨[withType vchSig nHashType], ?_, ?_⟩
  · rw [solve, hsolver]
    simp only [List.headD_cons, hrun, List.nil_append]
    simp [pushAll]
  · have hdata : ∀ op ∈ [(opcode, S.pubKey key), (CScript.OP_CHECKSIG, [])],
        op.2 = [] ∨ isCanonicalPubKey op.2 = true ∨ ∃ key, op.2 = (P.hash160 (S.pubKey key)).toList := by
      refine List.forall_mem_cons.mpr ⟨.inr (.inl (hS.canonicalKey key)), List.forall_mem_singleton.mpr (.inl rfl)⟩
    have hdelete := delete_withType hS htype hsign hops hdata
    refine ⟨List.forall_mem_singleton.mpr (withType_small hS htype hsign), by simp, ?_, fun scriptSig => ?_⟩
    · have hlength := @Ops.length_le script _ 120 hops (by
        refine List.forall_mem_cons.mpr ⟨hhigh, List.forall_mem_singleton.mpr (Nat.zero_le _)⟩)
      simp only [List.length_cons, List.length_nil] at hlength
      omega
    · have hvalid := @valid_sign _ P S script txTo nIn nHashType vchSig key 0 hS htype scriptSig hsign
      have hne : S.pubKey key ≠ [] := by
        intro hnil
        rw [hnil] at hlow
        exact absurd hlow (by decide)
      rw [← hvalid]
      exact halts_pubKey hops hne (pubKey_small hS key) (by simp) hdelete

/-- A payment to the hash of a key. -/
theorem solves_pubKeyHash (hS : S.Sound P) (htype : admitted nHashType) {found : List Valtype}
    (hsolver : solver script = (true, .TX_PUBKEYHASH, found))
    (hmine : keystore.haveKey (uint160OfVch (found.headD [])) = true) :
    ∃ values, solve keystore script (signatureHash P.hash script txTo nIn nHashType) nHashType =
      (true, pushAll values, .TX_PUBKEYHASH) ∧ Solves P txTo nIn script values := by
  obtain ⟨opcode, hash, rfl, hlength, hops⟩ := solver_pubKeyHash hsolver
  rw [List.headD_cons] at hmine
  obtain ⟨key, vchSig, hkey, hsign, hrun⟩ :=
    @sign1_owned _ P S keystore nHashType hS _ hmine 0 (signatureHash P.hash script txTo nIn nHashType) []
  obtain rfl : hash = (P.hash160 (S.pubKey key)).toList := by
    rw [← getKey_id hkey, toList_uint160OfVch hlength]
  refine ⟨[withType vchSig nHashType, S.pubKey key], ?_, ?_⟩
  · rw [solve, hsolver]
    simp only [List.headD_cons, hrun, hkey, Option.map_some, Option.getD_some, if_true, List.nil_append]
    simp [pushAll]
  · have hdata : ∀ op ∈ [(CScript.OP_DUP, []), (CScript.OP_HASH160, []), (opcode, (P.hash160 (S.pubKey key)).toList),
        (CScript.OP_EQUALVERIFY, []), (CScript.OP_CHECKSIG, [])],
        op.2 = [] ∨ isCanonicalPubKey op.2 = true ∨ ∃ key, op.2 = (P.hash160 (S.pubKey key)).toList := by
      intro op hop
      simp only [List.mem_cons, List.not_mem_nil, or_false] at hop
      rcases hop with rfl | rfl | rfl | rfl | rfl
      · exact .inl rfl
      · exact .inl rfl
      · exact .inr (.inr ⟨key, rfl⟩)
      · exact .inl rfl
      · exact .inl rfl
    have hdelete := delete_withType hS htype hsign hops hdata
    refine ⟨?_, by simp, ?_, fun scriptSig => ?_⟩
    · exact List.forall_mem_cons.mpr ⟨withType_small hS htype hsign, List.forall_mem_singleton.mpr (pubKey_small hS key)⟩
    · have hlong := @Ops.length_le script _ 20 hops (by
        intro op hop
        simp only [List.mem_cons, List.not_mem_nil, or_false] at hop
        rcases hop with rfl | rfl | rfl | rfl | rfl <;> simp)
      simp only [List.length_cons, List.length_nil] at hlong
      omega
    · have hvalid := @valid_sign _ P S script txTo nIn nHashType vchSig key 0 hS htype scriptSig hsign
      rw [← hvalid]
      exact halts_pubKeyHash hops (by simp) hdelete

/-- A signature of a hash, with its type, by the owner of a public key. -/
def SignedBy (S : Signer K) (hash : Uint256) (nHashType : BitVec 32) (sig pubkey : Valtype) : Prop :=
  ∃ call key vchSig, S.sign call key hash = some vchSig ∧ pubkey = S.pubKey key ∧ sig = withType vchSig nHashType

/-- With all keys owned, the loop signs with the first that are required. -/
theorem signNLoop_owned (hS : S.Sound P) {hash : Uint256} {pubkeys : List Valtype} {nRequired nSigned i : Nat}
    {scriptSig : CScript} (hmine : ∀ pubkey ∈ pubkeys, keystore.haveKey (P.hash160 pubkey) = true)
    (hle : nSigned ≤ nRequired) :
    ∃ sigs, signNLoop keystore hash nHashType nRequired i pubkeys nSigned scriptSig =
        (nSigned + sigs.length, scriptSig ++ pushAll sigs) ∧
      List.Forall₂ (SignedBy S hash nHashType) sigs (pubkeys.take (nRequired - nSigned)) := by
  induction pubkeys generalizing nSigned i scriptSig with
  | nil => exact ⟨[], by simp [signNLoop, pushAll], by simp⟩
  | cons pubkey pubkeys ih =>
    obtain ⟨hfirst, hrest⟩ := List.forall_mem_cons.mp hmine
    rw [signNLoop]
    by_cases hlt : nSigned < nRequired
    · obtain ⟨key, vchSig, hkey, hsign, hrun⟩ := @sign1_owned _ P S keystore nHashType hS _ hfirst i hash scriptSig
      obtain rfl := hS.idOf key pubkey (getKey_id hkey)
      obtain ⟨sigs, hloop, hsigned⟩ := @ih (nSigned + 1) (i + 1) (scriptSig ++ push (withType vchSig nHashType)) hrest hlt
      refine ⟨withType vchSig nHashType :: sigs, ?_, ?_⟩
      · rw [if_pos hlt, hrun]
        simp only [if_true]
        rw [hloop, List.length_cons, pushAll, pushAll, List.flatMap_cons, List.append_assoc]
        congr 1
        omega
      · have htake : (S.pubKey key :: pubkeys).take (nRequired - nSigned) =
            S.pubKey key :: pubkeys.take (nRequired - (nSigned + 1)) := by
          rw [show nRequired - nSigned = nRequired - (nSigned + 1) + 1 by omega, List.take_succ_cons]
        rw [htake]
        exact .cons ⟨i, key, vchSig, hsign, rfl, rfl⟩ hsigned
    · rw [if_neg hlt]
      refine ⟨[], by simp [pushAll], ?_⟩
      rw [show nRequired - nSigned = 0 by omega]
      exact .nil

/-- So many of so many keys. -/
theorem solves_multisig (hS : S.Sound P) (htype : admitted nHashType) {found : List Valtype}
    (hsolver : solver script = (true, .TX_MULTISIG, found))
    (hmine : haveKeys keystore (multisigKeys found) = (multisigKeys found).length) :
    ∃ values, solve keystore script (signatureHash P.hash script txTo nIn nHashType) nHashType =
      (true, pushAll values, .TX_MULTISIG) ∧ Solves P txTo nIn script values := by
  obtain ⟨m, keys, rfl, hm, hmn, hn, hkeys, hops⟩ := solver_multisig hsolver
  have hpubkeys : multisigKeys ([UInt8.ofNat m] :: (keys.map Prod.snd ++ [[UInt8.ofNat keys.length]])) =
      keys.map Prod.snd := by
    rw [multisigKeys, List.drop_one, List.tail_cons, List.dropLast_concat]
  rw [hpubkeys] at hmine
  have howned : ∀ pubkey ∈ keys.map Prod.snd, keystore.haveKey (P.hash160 pubkey) = true := List.countP_eq_length.mp hmine
  have hbyte : (UInt8.ofNat m).toNat = m := by
    rw [UInt8.toNat_ofNat']
    exact Nat.mod_eq_of_lt (by omega)
  obtain ⟨sigs, hloop, hsigned⟩ := @signNLoop_owned _ P S keystore nHashType hS
    (signatureHash P.hash script txTo nIn nHashType) _ m 0 0 [UInt8.ofNat OP_0] howned (Nat.zero_le _)
  rw [Nat.sub_zero] at hsigned
  have hlength : sigs.length = m := by
    rw [hsigned.length_eq, List.length_take, List.length_map]
    omega
  have hpushed : pushAll ([] :: sigs) = [UInt8.ofNat OP_0] ++ pushAll sigs := by
    rw [pushAll, List.flatMap_cons]
    rfl
  refine ⟨[] :: sigs, ?_, ?_⟩
  · rw [solve, hsolver]
    simp only [signN, List.headD_cons, hbyte, hpubkeys, hloop, hpushed, Nat.zero_add, hlength, decide_true]
  · have hcanonical : ∀ op ∈ keys, isCanonicalPubKey op.2 = true := by
      intro op hop
      obtain ⟨key, hkey⟩ := Option.isSome_iff_exists.mp (howned op.2 (List.mem_map_of_mem hop))
      rw [hS.idOf key op.2 (getKey_id hkey)]
      exact hS.canonicalKey key
    have hdata : ∀ op ∈ (m + (OP_1 - 1), []) :: (keys ++ [(keys.length + (OP_1 - 1), []), (CScript.OP_CHECKMULTISIG, [])]),
        op.2 = [] ∨ isCanonicalPubKey op.2 = true ∨ ∃ key, op.2 = (P.hash160 (S.pubKey key)).toList := by
      refine List.forall_mem_cons.mpr ⟨.inl rfl, List.forall_mem_append.mpr ⟨fun op hop => .inr (.inl (hcanonical op hop)), ?_⟩⟩
      exact List.forall_mem_cons.mpr ⟨.inl rfl, List.forall_mem_singleton.mpr (.inl rfl)⟩
    have hmem : ∀ sig ∈ sigs, ∃ pubkey, SignedBy S (signatureHash P.hash script txTo nIn nHashType) nHashType sig pubkey := by
      intro sig hsig
      obtain ⟨pubkey, -, hby⟩ := exists_candidate hsigned hsig
      exact ⟨pubkey, hby⟩
    refine ⟨?_, ?_, ?_, fun scriptSig => ?_⟩
    · refine List.forall_mem_cons.mpr ⟨Nat.zero_le _, fun sig hsig => ?_⟩
      obtain ⟨pubkey, call, key, vchSig, hsign, -, rfl⟩ := hmem sig hsig
      exact withType_small hS htype hsign
    · rw [List.length_cons]
      omega
    · have hlong := @Ops.length_le script _ 120 hops (by
        refine List.forall_mem_cons.mpr ⟨Nat.zero_le _, List.forall_mem_append.mpr ⟨fun op hop => (hkeys op hop).2.1, ?_⟩⟩
        exact List.forall_mem_cons.mpr ⟨Nat.zero_le _, List.forall_mem_singleton.mpr (Nat.zero_le _)⟩)
      simp only [List.length_cons, List.length_append, List.length_nil] at hlong
      omega
    · have hgreedy : greedy (valid P ⟨setScriptSig txTo nIn scriptSig, nIn, 0⟩ script) (keys.map Prod.snd).reverse
          sigs.reverse = true := by
        refine greedy_iff.mpr (List.sublistForall₂_iff.mpr ⟨((keys.map Prod.snd).take m).reverse, ?_, ?_⟩)
        · refine List.rel_reverse (hsigned.imp fun sig pubkey hby => ?_)
          obtain ⟨call, key, vchSig, hsign, rfl, rfl⟩ := hby
          exact valid_sign hS htype hsign
        · exact (List.take_sublist m _).reverse
      rw [List.reverse_cons, ← hgreedy]
      refine halts_multisig ?_ (fun op hop => ?_) ?_ ?_ hn (by simp) (fun op hop => (hkeys op hop).2.2) fun sig hsig => ?_
      · rw [List.length_reverse, hlength]
        exact hops
      · refine ⟨?_, Nat.le_trans (hkeys op hop).2.1 (by decide)⟩
        intro hnil
        have hlow := (hkeys op hop).1
        rw [hnil] at hlow
        exact absurd hlow (by decide)
      · rw [List.length_reverse, hlength]
        exact hm
      · rw [List.length_reverse, hlength]
        exact hmn
      · obtain ⟨pubkey, call, key, vchSig, hsign, -, rfl⟩ := hmem sig (List.mem_reverse.mp hsig)
        exact delete_withType hS htype hsign hops hdata

/-! ## IsMine and SignSignature -/

variable {scriptPubKey : CScript} {depth : Nat}

/-- A script of the wallet's own that is no payment to a script is solved. -/
theorem solves_mine (hS : S.Sound P) (htype : admitted nHashType) (hmine : isMine keystore depth script = true)
    (hbare : ¬ isPayToScriptHash script) :
    ∃ values whichType, solve keystore script (signatureHash P.hash script txTo nIn nHashType) nHashType =
      (true, pushAll values, whichType) ∧ whichType ≠ .TX_SCRIPTHASH ∧ Solves P txTo nIn script values := by
  cases depth with
  | zero => cases hmine
  | succ depth =>
    rw [isMine] at hmine
    cases hsolver : solver script with
    | mk known rest =>
      obtain ⟨whichType, found⟩ := rest
      rw [hsolver] at hmine
      cases known with
      | false => cases hmine
      | true =>
        cases whichType with
        | TX_NONSTANDARD => cases hmine
        | TX_NULL_DATA => cases hmine
        | TX_PUBKEY =>
          obtain ⟨values, hsolve, hsolves⟩ := @solves_pubKey _ _ _ _ _ txTo nIn _ hS htype _ hsolver hmine
          exact ⟨values, _, hsolve, by decide, hsolves⟩
        | TX_PUBKEYHASH =>
          obtain ⟨values, hsolve, hsolves⟩ := @solves_pubKeyHash _ _ _ _ _ txTo nIn _ hS htype _ hsolver hmine
          exact ⟨values, _, hsolve, by decide, hsolves⟩
        | TX_SCRIPTHASH => exact absurd (solver_scriptHash hsolver).1 hbare
        | TX_MULTISIG =>
          obtain ⟨values, hsolve, hsolves⟩ :=
            @solves_multisig _ _ _ _ _ txTo nIn _ hS htype _ hsolver (of_decide_eq_true hmine)
          exact ⟨values, _, hsolve, by decide, hsolves⟩

/-- The script that a payment to a script is to, where it is known. -/
def redeemScript (keystore : CBasicKeyStore P S) (scriptPubKey : CScript) : Option CScript :=
  keystore.getCScript (uint160OfVch ((scriptPubKey.drop 2).take 20))

/-- A payment to a script that is itself a payment to a script. -/
def nests (keystore : CBasicKeyStore P S) (scriptPubKey : CScript) : Prop :=
  isPayToScriptHash scriptPubKey ∧ ∃ redeem, redeemScript keystore scriptPubKey = some redeem ∧ isPayToScriptHash redeem

/-- `SignSignature` returns true, and `VerifyScript` accepts what it leaves in
the input. -/
def spends (keystore : CBasicKeyStore P S) (scriptPubKey : CScript) (txTo : CTransaction) (nIn : Nat)
    (nHashType : BitVec 32) : Prop :=
  let r := signSignature keystore scriptPubKey txTo nIn nHashType
  r.1 = true ∧ ∃ txin, r.2.vin[nIn]? = some txin ∧ (verifyScript P ⟨r.2, nIn, 0⟩ txin.scriptSig scriptPubKey).1 = true

theorem setScriptSig_vin {txin : CTxIn} (h : txTo.vin[nIn]? = some txin) (scriptSig : CScript) :
    (setScriptSig txTo nIn scriptSig).vin[nIn]? = some { txin with scriptSig := scriptSig } := by
  rw [setScriptSig, List.getElem?_modify, h]
  simp

theorem setScriptSig_setScriptSig (scriptSig scriptSig' : CScript) :
    setScriptSig (setScriptSig txTo nIn scriptSig) nIn scriptSig' = setScriptSig txTo nIn scriptSig' := by
  simp only [setScriptSig, List.modify_modify_eq]
  rfl

/-- A script of the wallet's own that is no payment to a script. -/
theorem spends_bare (hS : S.Sound P) (htype : admitted nHashType) (hmine : isMine keystore depth scriptPubKey = true)
    (hin : nIn < txTo.vin.length) (hbare : ¬ isPayToScriptHash scriptPubKey) :
    spends keystore scriptPubKey txTo nIn nHashType := by
  obtain ⟨values, whichType, hsolve, hne, hsolves⟩ := @solves_mine _ _ _ _ _ txTo nIn _ _ hS htype hmine hbare
  have hverify := @verifyScript_bare P ⟨setScriptSig txTo nIn (pushAll values), nIn, 0⟩ scriptPubKey values true
    ⟨hsolves.small, Nat.le_succ_of_le hsolves.few⟩ hbare hsolves.short (hsolves.runs _)
  have hsign : signSignature keystore scriptPubKey txTo nIn nHashType = (true, setScriptSig txTo nIn (pushAll values)) := by
    simp only [signSignature, hsolve, Bool.true_eq_false, if_false, if_neg hne, hverify]
  refine ⟨by rw [hsign], ?_⟩
  rw [hsign]
  exact ⟨_, setScriptSig_vin (List.getElem?_eq_getElem hin) _, hverify⟩

/-- A payment to a script of the wallet's own that is no such payment itself. -/
theorem spends_redeem (hS : S.Sound P) (htype : admitted nHashType) {redeem : CScript}
    (hmine : isMine keystore depth redeem = true) (hin : nIn < txTo.vin.length)
    (hhash : isPayToScriptHash scriptPubKey) (hredeem : redeemScript keystore scriptPubKey = some redeem)
    (hbare : ¬ isPayToScriptHash redeem) : spends keystore scriptPubKey txTo nIn nHashType := by
  obtain ⟨values, whichType, hsolve, hne, hsolves⟩ :=
    @solves_mine _ _ _ _ _ (setScriptSig txTo nIn redeem) nIn _ _ hS htype hmine hbare
  obtain ⟨hid, hsmall⟩ := getCScript_id hredeem
  have hsame : (P.hash160 redeem).toList = (scriptPubKey.drop 2).take 20 := by
    rw [← hid, toList_uint160OfVch (ops_payToScriptHash hhash).1]
  have hpushed : pushAll values ++ push redeem = pushAll (values ++ [redeem]) := by
    rw [pushAll_append, pushAll_singleton]
  have hpushable : Pushable (values ++ [redeem]) := by
    refine ⟨List.forall_mem_append.mpr ⟨hsolves.small, List.forall_mem_singleton.mpr hsmall⟩, ?_⟩
    rw [List.length_append, List.length_singleton]
    exact Nat.succ_le_succ hsolves.few
  have hruns := hsolves.runs (pushAll (values ++ [redeem]))
  rw [setScriptSig_setScriptSig] at hruns
  have hverify := @verifyScript_redeem_run P _ scriptPubKey values true redeem hpushable hhash hsame hruns
  have houter : solve keystore scriptPubKey (signatureHash P.hash scriptPubKey txTo nIn nHashType) nHashType =
      (true, redeem, .TX_SCRIPTHASH) := by
    rw [redeemScript] at hredeem
    rw [solve, solver_of_payToScriptHash hhash]
    simp only [List.headD_cons, hredeem]
  have hsign : signSignature keystore scriptPubKey txTo nIn nHashType =
      (true, setScriptSig txTo nIn (pushAll (values ++ [redeem]))) := by
    simp only [signSignature, houter, Bool.true_eq_false, if_false, if_true, hsolve, hne, or_self, hpushed,
      setScriptSig_setScriptSig, hverify]
  refine ⟨by rw [hsign], ?_⟩
  rw [hsign]
  exact ⟨_, setScriptSig_vin (List.getElem?_eq_getElem hin) _, hverify⟩

/-- A redeem script that is a payment to a script is not signed for. -/
theorem not_spends_nested (h : nests keystore scriptPubKey) : ¬ spends keystore scriptPubKey txTo nIn nHashType := by
  obtain ⟨hhash, redeem, hredeem, hnested⟩ := h
  rintro ⟨htrue, -⟩
  rw [redeemScript] at hredeem
  have hinner : ∀ hash, (solve keystore redeem hash nHashType).2.2 = .TX_SCRIPTHASH := by
    intro hash
    rw [solve, solver_of_payToScriptHash hnested]
    simp only [List.headD_cons]
    cases keystore.getCScript (uint160OfVch ((redeem.drop 2).take 20)) with
    | none => rfl
    | some script => rfl
  have houter : solve keystore scriptPubKey (signatureHash P.hash scriptPubKey txTo nIn nHashType) nHashType =
      (true, redeem, .TX_SCRIPTHASH) := by
    rw [solve, solver_of_payToScriptHash hhash]
    simp only [List.headD_cons, hredeem]
  simp only [signSignature, houter, Bool.true_eq_false, if_false, if_true, hinner, or_true] at htrue
  exact Bool.false_ne_true htrue

/-- **What is the wallet's own can be spent, unless it is a payment to a
script that is itself such a payment**, which `IsMine` follows and
`SignSignature` refuses. -/
theorem isMine_spends_iff (hS : S.Sound P) (hmine : isMine keystore depth scriptPubKey = true)
    (hin : nIn < txTo.vin.length) (htype : admitted nHashType) :
    spends keystore scriptPubKey txTo nIn nHashType ↔ ¬ nests keystore scriptPubKey := by
  refine ⟨fun h hnests => not_spends_nested hnests h, fun hnests => ?_⟩
  by_cases hhash : isPayToScriptHash scriptPubKey
  · cases depth with
    | zero => cases hmine
    | succ depth =>
      rw [isMine, solver_of_payToScriptHash hhash] at hmine
      simp only [List.headD_cons] at hmine
      cases hredeem : keystore.getCScript (uint160OfVch ((scriptPubKey.drop 2).take 20)) with
      | none =>
        rw [hredeem] at hmine
        cases hmine
      | some redeem =>
        rw [hredeem] at hmine
        have hbare : ¬ isPayToScriptHash redeem := fun h => hnests ⟨hhash, redeem, hredeem, h⟩
        exact spends_redeem hS htype hmine hin hhash hredeem hbare
  · exact spends_bare hS htype hmine hin hhash

namespace Nested

/-- One key, and its signature of everything. -/
def pubKey : Valtype := 2 :: List.replicate 32 1
def signature : Valtype := [0x30, 6, 2, 1, 1, 2, 1, 1]

def signer : Signer Unit := ⟨fun _ => pubKey, fun _ _ _ => some signature⟩

/-- The payment of a script whose hash is `b` over and over. -/
def payTo (b : UInt8) : CScript := [0xa9, 20] ++ List.replicate 20 b ++ [0x87]

/-- A payment to the key, whose hash is 1 over and over. -/
def inner : CScript := [0x76, 0xa9, 20] ++ List.replicate 20 1 ++ [0x88, 0xac]

/-- The key, the payment to it and the payment to that script have hashes of
their own. -/
def params : ScriptParams where
  RIPEMD160 := fun bytes => List.Vector.replicate 20 (bytes.headD 0)
  SHA1 := fun _ => List.Vector.replicate 20 0
  SHA256 := fun bytes =>
    List.Vector.replicate 32 (if bytes = pubKey then 1 else if bytes = inner then 2 else if bytes = payTo 2 then 3 else 0)
  verify := fun _ _ _ => true

/-- The key and the two scripts. -/
def store : CBasicKeyStore params signer := ((CBasicKeyStore.empty.addKey ()).addCScript inner).addCScript (payTo 2)

def tx : CTransaction := ⟨1, 0, [⟨⟨7, 0⟩, [], 0⟩], [⟨1, []⟩], 0⟩

theorem sound : signer.Sound params where
  signs := fun _ _ _ => ⟨signature, rfl⟩
  accepted := fun _ _ _ _ _ => rfl
  canonical := by
    intro _ _ _ vchSig nHashType hsign htype
    cases hsign
    have hall : ∀ n ∈ List.range 256, SIGHASH_ALL ≤ n &&& 0x7f → n &&& 0x7f ≤ SIGHASH_SINGLE →
        isCanonicalSignature (signature ++ [UInt8.ofNat n]) = true := by decide +kernel
    exact hall _ (List.mem_range.mpr htype.1) htype.2.1 htype.2.2
  canonicalKey := by
    intro key
    cases key
    decide
  notHash := by
    intro _ _ _ _ vchSig nHashType hsign heq
    cases hsign
    have hlength := congrArg List.length heq
    rw [List.Vector.toList_length, withType, List.length_append, List.length_singleton] at hlength
    exact absurd hlength (by decide)
  idOf := by
    intro key vch hid
    cases key
    have hfirst : ((params.SHA256 vch).toList.headD 0 : UInt8) = (params.SHA256 pubKey).toList.headD 0 :=
      congrArg (fun id : List.Vector UInt8 20 => id.toList.headD 0) hid
    by_contra hne
    have hother : ¬ vch = pubKey := hne
    have hone : ((params.SHA256 pubKey).toList.headD 0 : UInt8) = 1 := by decide +kernel
    rw [hone] at hfirst
    simp only [params, if_neg hother] at hfirst
    split_ifs at hfirst <;> exact absurd hfirst (by decide)

end Nested

/-- A payment to a script that is a payment to a key is signed. -/
theorem isMine_spends_iff_sample : spends Nested.store (Nested.payTo 2) Nested.tx 0 1 ↔
    ¬ nests Nested.store (Nested.payTo 2) :=
  @isMine_spends_iff _ _ _ Nested.store Nested.tx 0 1 (Nested.payTo 2) 2 Nested.sound (by decide +kernel) (by decide)
    (by decide)

/-- **A payment to a payment to a script is the wallet's own, and not
signed.** -/
theorem isMine_not_signed : Nested.signer.Sound Nested.params ∧ isMine Nested.store 3 (Nested.payTo 3) = true ∧
    admitted 1 ∧ (signSignature Nested.store (Nested.payTo 3) Nested.tx 0 1).1 = false :=
  ⟨Nested.sound, by decide +kernel, by decide, by decide +kernel⟩

end Pinkcoin
