/-
`SignatureHash`: the transaction a signature is for, with the parts its hash
type leaves open blanked out, and what equal hashes say about two of them.
-/
import Mathlib.Tactic.NormNum
import Pinkcoin.Wire

namespace Pinkcoin

open CScript (leBytes leNat length_leBytes)
open Codec

/-! ## Deleting from a script -/

namespace CScript

def OP_CODESEPARATOR : Nat := 0xab

/-- The loop of `FindAndDelete`: at each operation `b` is erased as often as
it stands there. Every round takes a byte. -/
def deleteLoop (b : CScript) : Nat → CScript → CScript
  | 0, pc => pc
  | fuel + 1, pc =>
    if b <+: pc then deleteLoop b fuel (pc.drop b.length)
    else
      match getOp pc with
      | none => pc
      | some (_, _, pc') => pc.take (pc.length - pc'.length) ++ deleteLoop b fuel pc'

/-- `FindAndDelete`. -/
def findAndDelete (script b : CScript) : CScript := if b = [] then script else deleteLoop b script.length script

theorem length_getOp {pc pc' : CScript} {opcode : Nat} {data : List UInt8} (h : getOp pc = some (opcode, data, pc')) :
    pc'.length ≤ pc.length := by
  cases pc with
  | nil => exact nomatch h
  | cons b pc =>
    simp only [getOp] at h
    split_ifs at h
    all_goals
      obtain ⟨-, -, rfl⟩ := Prod.mk.inj (Option.some.inj h) |>.imp id Prod.mk.inj
      simp only [List.length_drop, List.length_cons]
      omega

theorem length_deleteLoop (b : CScript) (fuel : Nat) (pc : CScript) : (deleteLoop b fuel pc).length ≤ pc.length := by
  induction fuel generalizing pc with
  | zero => exact le_rfl
  | succ fuel ih =>
    rw [deleteLoop]
    split
    next => exact (ih _).trans (by rw [List.length_drop]; exact Nat.sub_le _ _)
    next =>
      split
      next => exact le_rfl
      next hop =>
        have hle := length_getOp hop
        have hrest := ih ‹CScript›
        rw [List.length_append, List.length_take]
        omega

theorem length_findAndDelete (script b : CScript) : (findAndDelete script b).length ≤ script.length := by
  unfold findAndDelete
  split
  · exact le_rfl
  · exact length_deleteLoop _ _ _

end CScript

/-! ## The hash -/

def SIGHASH_ALL : Nat := 1
def SIGHASH_NONE : Nat := 2
def SIGHASH_SINGLE : Nat := 3
def SIGHASH_ANYONECANPAY : Nat := 0x80

/-- `nHashType & 0x1f`. -/
def baseType (nHashType : BitVec 32) : Nat := nHashType.toNat &&& 0x1f

/-- `nHashType & SIGHASH_ANYONECANPAY`. -/
def anyoneCanPay (nHashType : BitVec 32) : Prop := nHashType.toNat &&& SIGHASH_ANYONECANPAY ≠ 0

instance (nHashType : BitVec 32) : Decidable (anyoneCanPay nHashType) := inferInstanceAs (Decidable (_ ≠ _))

/-- `CTxOut::SetNull`. -/
def CTxOut.null : CTxOut := ⟨-1, []⟩

/-- The script code without `OP_CODESEPARATOR`. -/
def signedScript (scriptCode : CScript) : CScript := CScript.findAndDelete scriptCode [UInt8.ofNat CScript.OP_CODESEPARATOR]

/-- "Blank out other inputs' signatures". -/
def blankSignatures (scriptCode : CScript) (nIn : Nat) (vin : List CTxIn) : List CTxIn :=
  (vin.map fun txin => { txin with scriptSig := [] }).modify nIn fun txin => { txin with scriptSig := scriptCode }

/-- "Let the others update at will". -/
def freeSequences (nIn : Nat) (vin : List CTxIn) : List CTxIn :=
  vin.mapIdx fun i txin => if i ≠ nIn then { txin with nSequence := 0 } else txin

/-- "Only lock-in the txout payee at same index as txin". -/
def onlyOutput (nOut : Nat) (vout : List CTxOut) : List CTxOut :=
  (vout.take (nOut + 1)).mapIdx fun i txout => if i < nOut then CTxOut.null else txout

/-- "Blank out other inputs completely". -/
def onlyInput (nIn : Nat) (vin : List CTxIn) : List CTxIn :=
  match vin[nIn]? with
  | some txin => (vin.set 0 txin).take 1
  | none => vin

/-- `txTmp`, when it is serialized. -/
def txTmp (scriptCode : CScript) (txTo : CTransaction) (nIn : Nat) (nHashType : BitVec 32) : CTransaction :=
  let vin := blankSignatures (signedScript scriptCode) nIn txTo.vin
  let tx :=
    if baseType nHashType = SIGHASH_NONE then { txTo with vin := freeSequences nIn vin, vout := [] }
    else if baseType nHashType = SIGHASH_SINGLE then
      { txTo with vin := freeSequences nIn vin, vout := onlyOutput nIn txTo.vout }
    else { txTo with vin := vin }
  if anyoneCanPay nHashType then { tx with vin := onlyInput nIn tx.vin } else tx

/-- The exits of `SignatureHash` that return 1: there is no such input, or no
output for it. -/
def sigHashFails (txTo : CTransaction) (nIn : Nat) (nHashType : BitVec 32) : Prop :=
  txTo.vin.length ≤ nIn ∨ baseType nHashType = SIGHASH_SINGLE ∧ txTo.vout.length ≤ nIn

instance (txTo : CTransaction) (nIn : Nat) (nHashType : BitVec 32) : Decidable (sigHashFails txTo nIn nHashType) :=
  inferInstanceAs (Decidable (_ ∨ _ ∧ _))

/-- The bytes that are hashed. -/
def sigBytes (scriptCode : CScript) (txTo : CTransaction) (nIn : Nat) (nHashType : BitVec 32) : List UInt8 :=
  (txTmp scriptCode txTo nIn nHashType).serialize ++ leBytes 4 nHashType.toNat

/-- `SignatureHash`, with the `Hash` of bytes. -/
def signatureHash (hash : List UInt8 → Uint256) (scriptCode : CScript) (txTo : CTransaction) (nIn : Nat)
    (nHashType : BitVec 32) : Uint256 :=
  if sigHashFails txTo nIn nHashType then 1 else hash (sigBytes scriptCode txTo nIn nHashType)

/-! ## What is signed -/

/-- Every other sequence number is signed too. -/
def keepsSequences (nHashType : BitVec 32) : Prop :=
  baseType nHashType ≠ SIGHASH_NONE ∧ baseType nHashType ≠ SIGHASH_SINGLE

instance (nHashType : BitVec 32) : Decidable (keepsSequences nHashType) := inferInstanceAs (Decidable (_ ∧ _))

/-- Two transactions agree on the parts the hash type names. -/
structure SameSigned (nHashType : BitVec 32) (scriptCode scriptCode' : CScript) (txTo txTo' : CTransaction)
    (nIn nIn' : Nat) : Prop where
  scriptCode : signedScript scriptCode = signedScript scriptCode'
  nVersion : txTo.nVersion = txTo'.nVersion
  nTime : txTo.nTime = txTo'.nTime
  nLockTime : txTo.nLockTime = txTo'.nLockTime
  /-- The signed outpoint and its sequence number. -/
  signed : (txTo.vin[nIn]?.map fun txin => (txin.prevout, txin.nSequence)) =
    txTo'.vin[nIn']?.map fun txin => (txin.prevout, txin.nSequence)
  /-- The outputs: none, the one of the input with its index, or all. -/
  single : baseType nHashType = SIGHASH_SINGLE → nIn = nIn' ∧ txTo.vout[nIn]? = txTo'.vout[nIn']?
  all : keepsSequences nHashType → txTo.vout = txTo'.vout
  /-- The other inputs, and the place of the signed one among them. -/
  inputs : ¬ anyoneCanPay nHashType → nIn = nIn' ∧ txTo.vin.map CTxIn.prevout = txTo'.vin.map CTxIn.prevout ∧
    (keepsSequences nHashType → txTo.vin.map CTxIn.nSequence = txTo'.vin.map CTxIn.nSequence)

section

variable {scriptCode scriptCode' : CScript} {txTo txTo' : CTransaction} {nIn nIn' : Nat} {nHashType nHashType' : BitVec 32}

/-- An input of `txTmp`. -/
def signedInput (keep : Bool) (scriptCode : CScript) (nIn i : Nat) (txin : CTxIn) : CTxIn :=
  ⟨txin.prevout, if i = nIn then scriptCode else [], if i = nIn ∨ keep then txin.nSequence else 0⟩

theorem blankSignatures_eq (vin : List CTxIn) :
    blankSignatures scriptCode nIn vin = vin.mapIdx (signedInput true scriptCode nIn) := by
  refine List.ext_getElem? fun i => ?_
  rw [blankSignatures, List.getElem?_modify, List.getElem?_map, List.getElem?_mapIdx]
  cases vin[i]? with
  | none => simp
  | some txin =>
    by_cases heq : i = nIn
    · simp [signedInput, heq]
    · have hne : nIn ≠ i := fun h => heq h.symm
      simp [signedInput, heq, hne]

theorem freeSequences_eq (vin : List CTxIn) :
    freeSequences nIn (blankSignatures scriptCode nIn vin) = vin.mapIdx (signedInput false scriptCode nIn) := by
  refine List.ext_getElem? fun i => ?_
  rw [blankSignatures_eq, freeSequences, List.getElem?_mapIdx, List.getElem?_mapIdx, List.getElem?_mapIdx]
  cases vin[i]? with
  | none => simp
  | some txin =>
    by_cases heq : i = nIn
    · simp [signedInput, heq]
    · simp [signedInput, heq]

theorem onlyInput_eq {vin : List CTxIn} {txin : CTxIn} (h : vin[nIn]? = some txin) : onlyInput nIn vin = [txin] := by
  obtain ⟨hlt, -⟩ := List.getElem?_eq_some_iff.mp h
  cases vin with
  | nil => exact absurd hlt (Nat.not_lt_zero _)
  | cons a vin => rw [onlyInput, h]; rfl

/-- `txTmp` field by field. -/
theorem txTmp_eq {txin : CTxIn} (h : txTo.vin[nIn]? = some txin) : txTmp scriptCode txTo nIn nHashType =
    { txTo with
      vin := if anyoneCanPay nHashType then [⟨txin.prevout, signedScript scriptCode, txin.nSequence⟩]
        else txTo.vin.mapIdx (signedInput (keepsSequences nHashType) (signedScript scriptCode) nIn)
      vout := if baseType nHashType = SIGHASH_NONE then []
        else if baseType nHashType = SIGHASH_SINGLE then onlyOutput nIn txTo.vout else txTo.vout } := by
  have honly : ∀ keep, onlyInput nIn (txTo.vin.mapIdx (signedInput keep (signedScript scriptCode) nIn)) =
      [⟨txin.prevout, signedScript scriptCode, txin.nSequence⟩] := by
    intro keep
    refine onlyInput_eq ?_
    rw [List.getElem?_mapIdx, h]
    simp [signedInput]
  dsimp only [txTmp]
  by_cases hnone : baseType nHashType = SIGHASH_NONE
  · have hkeep : decide (keepsSequences nHashType) = false := decide_eq_false fun hk => hk.1 hnone
    simp only [if_pos hnone, freeSequences_eq, hkeep]
    by_cases hany : anyoneCanPay nHashType
    · rw [if_pos hany, if_pos hany, honly]
    · rw [if_neg hany, if_neg hany]
  · by_cases hsingle : baseType nHashType = SIGHASH_SINGLE
    · have hkeep : decide (keepsSequences nHashType) = false := decide_eq_false fun hk => hk.2 hsingle
      simp only [if_neg hnone, if_pos hsingle, freeSequences_eq, hkeep]
      by_cases hany : anyoneCanPay nHashType
      · rw [if_pos hany, if_pos hany, honly]
      · rw [if_neg hany, if_neg hany]
    · have hkeep : decide (keepsSequences nHashType) = true := decide_eq_true ⟨hnone, hsingle⟩
      simp only [if_neg hnone, if_neg hsingle, blankSignatures_eq, hkeep]
      by_cases hany : anyoneCanPay nHashType
      · rw [if_pos hany, if_pos hany, honly]
      · rw [if_neg hany, if_neg hany]

/-- The outputs of `txTmp` for `SIGHASH_SINGLE`. -/
theorem onlyOutput_inj {vout vout' : List CTxOut} (h : nIn < vout.length) (h' : nIn' < vout'.length) :
    onlyOutput nIn vout = onlyOutput nIn' vout' ↔ nIn = nIn' ∧ vout[nIn]? = vout'[nIn']? := by
  have hget : ∀ {vout : List CTxOut} {n : Nat}, (onlyOutput n vout)[n]? = vout[n]? := fun {vout n} => by
    rw [onlyOutput, List.getElem?_mapIdx, List.getElem?_take_of_lt (Nat.lt_succ_self n)]
    cases vout[n]? <;> simp
  have hlen : ∀ {vout : List CTxOut} {n : Nat}, n < vout.length → (onlyOutput n vout).length = n + 1 := fun {vout n} hn => by
    rw [onlyOutput, List.length_mapIdx, List.length_take]
    omega
  constructor
  · intro heq
    have hn := congrArg List.length heq
    rw [hlen h, hlen h'] at hn
    obtain rfl : nIn = nIn' := by omega
    exact ⟨rfl, by rw [← hget, heq, hget]⟩
  · rintro ⟨rfl, hout⟩
    refine List.ext_getElem? fun i => ?_
    rw [onlyOutput, onlyOutput, List.getElem?_mapIdx, List.getElem?_mapIdx, List.getElem?_take, List.getElem?_take]
    by_cases hi : i < nIn + 1
    · rw [if_pos hi, if_pos hi]
      by_cases heq : i = nIn
      · rw [heq, hout]
      · have hlt : i < nIn := by omega
        rw [List.getElem?_eq_getElem (by omega), List.getElem?_eq_getElem (by omega)]
        simp [hlt]
    · rw [if_neg hi, if_neg hi]

/-- The place of the signed input shows in its script. -/
theorem place_of_mapIdx {keep : Bool} {vin vin' : List CTxIn} (hn : nIn < vin.length) (hscript : scriptCode ≠ [])
    (heq : vin.mapIdx (signedInput keep scriptCode nIn) = vin'.mapIdx (signedInput keep scriptCode' nIn')) : nIn = nIn' := by
  have hat := congrArg (fun l : List CTxIn => l[nIn]?) heq
  simp only [List.getElem?_mapIdx, List.getElem?_eq_getElem hn, Option.map_some] at hat
  cases hvin' : vin'[nIn]? with
  | none => rw [hvin'] at hat; exact nomatch hat
  | some txin =>
    rw [hvin', Option.map_some, Option.some.injEq, signedInput, signedInput, CTxIn.mk.injEq] at hat
    by_contra hne
    rw [if_pos rfl, if_neg hne] at hat
    exact hscript hat.2.1

/-- The inputs of `txTmp`, when the signed one is at one place in both. -/
theorem mapIdx_inj {keep : Bool} {vin vin' : List CTxIn} (hn : nIn < vin.length) :
    vin.mapIdx (signedInput keep scriptCode nIn) = vin'.mapIdx (signedInput keep scriptCode' nIn) ↔
      scriptCode = scriptCode' ∧ vin.map CTxIn.prevout = vin'.map CTxIn.prevout ∧
        vin[nIn]?.map CTxIn.nSequence = vin'[nIn]?.map CTxIn.nSequence ∧
        (keep → vin.map CTxIn.nSequence = vin'.map CTxIn.nSequence) := by
  have hprevout : ∀ (sc : CScript) (vin : List CTxIn),
      (vin.mapIdx (signedInput keep sc nIn)).map CTxIn.prevout = vin.map CTxIn.prevout := fun sc vin => by
    refine List.ext_getElem? fun i => ?_
    rw [List.getElem?_map, List.getElem?_mapIdx, List.getElem?_map, Option.map_map]
    rfl
  constructor
  · intro heq
    have hat := congrArg (fun l : List CTxIn => l[nIn]?) heq
    simp only [List.getElem?_mapIdx, List.getElem?_eq_getElem hn, Option.map_some] at hat
    have hlist : vin.map CTxIn.prevout = vin'.map CTxIn.prevout := by rw [← hprevout scriptCode vin, heq, hprevout]
    have hn' : nIn < vin'.length := by
      have hlen := congrArg List.length hlist
      rw [List.length_map, List.length_map] at hlen
      omega
    rw [List.getElem?_eq_getElem hn', Option.map_some, Option.some.injEq, signedInput, signedInput, CTxIn.mk.injEq] at hat
    obtain ⟨-, hscript, hseq⟩ := hat
    rw [if_pos rfl, if_pos rfl] at hscript
    rw [if_pos (.inl rfl), if_pos (.inl rfl)] at hseq
    refine ⟨hscript, hlist, ?_, fun hkeep => ?_⟩
    · rw [List.getElem?_eq_getElem hn, List.getElem?_eq_getElem hn', Option.map_some, Option.map_some, hseq]
    · have hsequence : ∀ (sc : CScript) (vin : List CTxIn),
          (vin.mapIdx (signedInput keep sc nIn)).map CTxIn.nSequence = vin.map CTxIn.nSequence := fun sc vin => by
        refine List.ext_getElem? fun i => ?_
        rw [List.getElem?_map, List.getElem?_mapIdx, List.getElem?_map, Option.map_map]
        cases vin[i]? with
        | none => rfl
        | some txin => simp [signedInput, hkeep]
      rw [← hsequence scriptCode vin, heq, hsequence]
  · rintro ⟨rfl, hlist, hseq, hkeep⟩
    refine List.ext_getElem? fun i => ?_
    have hp := congrArg (fun l : List COutPoint => l[i]?) hlist
    simp only [List.getElem?_map] at hp
    rw [List.getElem?_mapIdx, List.getElem?_mapIdx]
    cases hi : vin[i]? with
    | none =>
      rw [hi] at hp
      cases hi' : vin'[i]? with
      | none => rfl
      | some txin' => rw [hi'] at hp; exact nomatch hp
    | some txin =>
      rw [hi] at hp
      cases hi' : vin'[i]? with
      | none => rw [hi'] at hp; exact nomatch hp
      | some txin' =>
        rw [hi', Option.map_some, Option.map_some, Option.some.injEq] at hp
        rw [Option.map_some, Option.map_some, signedInput, signedInput, hp]
        by_cases heq : i = nIn
        · subst heq
          rw [hi, hi', Option.map_some, Option.map_some, Option.some.injEq] at hseq
          rw [hseq]
        · by_cases hk : keep = true
          · have hs := congrArg (fun l : List Nat => l[i]?) (hkeep hk)
            simp only [List.getElem?_map, hi, hi', Option.map_some, Option.some.injEq] at hs
            rw [hs]
          · have hfree : ¬ (i = nIn ∨ keep = true) := fun h => h.elim heq hk
            rw [if_neg hfree, if_neg hfree]

/-- What is left open of a transaction keeps it in the ranges of its types. -/
theorem inRange_txTmp (htx : txTo.InRange SIZE_MAX) (hscript : scriptCode.length ≤ SIZE_MAX)
    {txin : CTxIn} (h : txTo.vin[nIn]? = some txin) : (txTmp scriptCode txTo nIn nHashType).InRange SIZE_MAX := by
  rw [txTmp_eq h]
  have hsigned : (signedScript scriptCode).length ≤ SIZE_MAX := (CScript.length_findAndDelete _ _).trans hscript
  have htxin := htx.vin.2 txin (List.mem_of_getElem? h)
  have hone : 1 ≤ SIZE_MAX := by decide
  refine ⟨htx.nVersion, htx.nTime, ?_, ?_, htx.nLockTime⟩
  · dsimp only
    split
    next => exact ⟨hone, List.forall_mem_singleton.mpr ⟨htxin.prevout, hsigned, htxin.nSequence⟩⟩
    next =>
      refine ⟨by rw [List.length_mapIdx]; exact htx.vin.1, fun a ha => ?_⟩
      obtain ⟨i, hi, rfl⟩ := List.mem_mapIdx.mp ha
      have hin := htx.vin.2 _ (List.getElem_mem hi)
      refine ⟨hin.prevout, ?_, ?_⟩
      · dsimp only [signedInput]
        split
        · exact hsigned
        · exact Nat.zero_le _
      · dsimp only [signedInput]
        split
        · exact hin.nSequence
        · decide
  · dsimp only
    split
    next => exact ⟨Nat.zero_le _, nofun⟩
    next =>
      split
      next =>
        refine ⟨?_, fun a ha => ?_⟩
        · rw [onlyOutput, List.length_mapIdx, List.length_take]
          exact (Nat.min_le_right _ _).trans htx.vout.1
        · obtain ⟨i, hi, rfl⟩ := List.mem_mapIdx.mp ha
          split
          · exact ⟨by decide, Nat.zero_le _⟩
          · exact htx.vout.2 _ (List.mem_of_mem_take (List.getElem_mem hi))
      next => exact htx.vout

/-- **The transactions that are hashed are equal exactly when the two agree on
what is signed.** -/
theorem txTmp_inj (hok : ¬ sigHashFails txTo nIn nHashType) (hok' : ¬ sigHashFails txTo' nIn' nHashType)
    (hplace : signedScript scriptCode ≠ [] ∨ baseType nHashType = SIGHASH_SINGLE ∨ anyoneCanPay nHashType) :
    txTmp scriptCode txTo nIn nHashType = txTmp scriptCode' txTo' nIn' nHashType ↔
      SameSigned nHashType scriptCode scriptCode' txTo txTo' nIn nIn' := by
  have hn : nIn < txTo.vin.length := Nat.not_le.mp fun h => hok (.inl h)
  have hn' : nIn' < txTo'.vin.length := Nat.not_le.mp fun h => hok' (.inl h)
  have hin := List.getElem?_eq_getElem hn
  have hin' := List.getElem?_eq_getElem hn'
  have houts : (if baseType nHashType = SIGHASH_NONE then ([] : List CTxOut)
      else if baseType nHashType = SIGHASH_SINGLE then onlyOutput nIn txTo.vout else txTo.vout) =
      (if baseType nHashType = SIGHASH_NONE then []
        else if baseType nHashType = SIGHASH_SINGLE then onlyOutput nIn' txTo'.vout else txTo'.vout) ↔
      (baseType nHashType = SIGHASH_SINGLE → nIn = nIn' ∧ txTo.vout[nIn]? = txTo'.vout[nIn']?) ∧
        (keepsSequences nHashType → txTo.vout = txTo'.vout) := by
    by_cases hnone : baseType nHashType = SIGHASH_NONE
    · rw [if_pos hnone, if_pos hnone]
      refine iff_of_true rfl ⟨fun h => ?_, fun h => absurd hnone h.1⟩
      exact absurd (hnone.symm.trans h) (by decide)
    · rw [if_neg hnone, if_neg hnone]
      by_cases hsingle : baseType nHashType = SIGHASH_SINGLE
      · rw [if_pos hsingle, if_pos hsingle, onlyOutput_inj (Nat.not_le.mp fun h => hok (.inr ⟨hsingle, h⟩))
          (Nat.not_le.mp fun h => hok' (.inr ⟨hsingle, h⟩))]
        exact ⟨fun h => ⟨fun _ => h, fun hk => absurd hsingle hk.2⟩, fun h => h.1 hsingle⟩
      · rw [if_neg hsingle, if_neg hsingle]
        exact ⟨fun h => ⟨fun hs => absurd hs hsingle, fun _ => h⟩, fun h => h.2 ⟨hnone, hsingle⟩⟩
  rw [txTmp_eq hin, txTmp_eq hin', CTransaction.mk.injEq, houts]
  by_cases hany : anyoneCanPay nHashType
  · rw [if_pos hany, if_pos hany, List.singleton_inj, CTxIn.mk.injEq]
    constructor
    · rintro ⟨hversion, htime, ⟨hprevout, hscript, hseq⟩, ⟨hsingle, hall⟩, hlock⟩
      exact ⟨hscript, hversion, htime, hlock, by rw [hin, hin', Option.map_some, Option.map_some, hprevout, hseq], hsingle,
        hall, fun h => absurd hany h⟩
    · intro h
      have hsigned := h.signed
      rw [hin, hin', Option.map_some, Option.map_some, Option.some.injEq, Prod.mk.injEq] at hsigned
      exact ⟨h.nVersion, h.nTime, ⟨hsigned.1, h.scriptCode, hsigned.2⟩, ⟨h.single, h.all⟩, h.nLockTime⟩
  · rw [if_neg hany, if_neg hany]
    constructor
    · rintro ⟨hversion, htime, hvin, ⟨hsingle, hall⟩, hlock⟩
      have hplaces : nIn = nIn' := by
        obtain hscript | hs | h := hplace
        · exact place_of_mapIdx hn hscript hvin
        · exact (hsingle hs).1
        · exact absurd h hany
      subst hplaces
      obtain ⟨hscript, hprevouts, hseq, hsequences⟩ := (mapIdx_inj hn).mp hvin
      refine ⟨hscript, hversion, htime, hlock, ?_, hsingle, hall, fun _ => ⟨rfl, hprevouts, fun hk => hsequences (by simpa)⟩⟩
      have hprevout := congrArg (fun l : List COutPoint => l[nIn]?) hprevouts
      simp only [List.getElem?_map, hin, hin', Option.map_some, Option.some.injEq] at hprevout hseq
      rw [hin, hin', Option.map_some, Option.map_some, hprevout, hseq]
    · intro h
      obtain ⟨hplaces, hprevouts, hsequences⟩ := h.inputs hany
      subst hplaces
      have hsigned := h.signed
      rw [hin, hin', Option.map_some, Option.map_some, Option.some.injEq, Prod.mk.injEq] at hsigned
      refine ⟨h.nVersion, h.nTime, (mapIdx_inj hn).mpr ⟨h.scriptCode, hprevouts, ?_, fun hk => hsequences (by simpa using hk)⟩,
        ⟨h.single, h.all⟩, h.nLockTime⟩
      rw [hin, hin', Option.map_some, Option.map_some, hsigned.2]

end

namespace SigHashSample

/-- A hash that loses nothing. -/
def hash (bytes : List UInt8) : Uint256 := leNat (bytes ++ [1])

/-- A transaction of two inputs and two outputs. -/
def tx (nTime : Nat) : CTransaction :=
  ⟨1, nTime, [⟨⟨7, 0⟩, [], 1⟩, ⟨⟨7, 1⟩, [], 1⟩], [⟨5, []⟩, ⟨6, []⟩], 0⟩

theorem inRange_tx {nTime : Nat} (h : nTime < 256 ^ 4) : (tx nTime).InRange SIZE_MAX := by
  have hin : ∀ n : Nat, n < 256 ^ 4 → (⟨⟨7, n⟩, [], 1⟩ : CTxIn).InRange SIZE_MAX := fun n hn =>
    ⟨⟨by norm_num, hn⟩, Nat.zero_le _, by norm_num⟩
  have hout : ∀ n : Int, IntRange 8 n → (⟨n, []⟩ : CTxOut).InRange SIZE_MAX := fun n hn => ⟨hn, Nat.zero_le _⟩
  have htwo : 2 ≤ SIZE_MAX := by decide
  have hone : IntRange 4 1 := by decide
  refine ⟨hone, h, ⟨htwo, ?_⟩, ⟨htwo, ?_⟩, by norm_num [tx]⟩
  · exact List.forall_mem_cons.mpr ⟨hin 0 (by norm_num), List.forall_mem_singleton.mpr (hin 1 (by norm_num))⟩
  · exact List.forall_mem_cons.mpr ⟨hout 5 (by decide), List.forall_mem_singleton.mpr (hout 6 (by decide))⟩

end SigHashSample

end Pinkcoin
