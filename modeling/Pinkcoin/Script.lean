/-
The parts of a script the chain rules look at: how a number is pushed, how
the operations are read off, and how many signature checks they can cost.
How a script is run is modelled in `Interp`.
-/
import Pinkcoin.Types

namespace Pinkcoin.CScript

def OP_PUSHDATA1 : Nat := 0x4c
def OP_PUSHDATA2 : Nat := 0x4d
def OP_PUSHDATA4 : Nat := 0x4e
def OP_1 : Nat := 0x51
def OP_16 : Nat := 0x60
def OP_EQUAL : Nat := 0x87
def OP_HASH160 : Nat := 0xa9
def OP_CHECKSIG : Nat := 0xac
def OP_CHECKSIGVERIFY : Nat := 0xad
def OP_CHECKMULTISIG : Nat := 0xae
def OP_CHECKMULTISIGVERIFY : Nat := 0xaf
def OP_INVALIDOPCODE : Nat := 0xff

/-! ## Numbers -/

/-- The bytes of a number, the least significant first. -/
def leBytes : Nat → Nat → List UInt8
  | 0, _ => []
  | k + 1, n => UInt8.ofNat (n % 256) :: leBytes k (n / 256)

/-- How many bytes `getvch` gives a non-negative number: a leading bit that
would read as a sign gets a byte of its own. -/
def vchSize (n : Nat) : Nat := if n = 0 then 0 else (Nat.log2 n + 1) / 8 + 1

/-- `operator<<` of a vector of bytes. -/
def push (b : List UInt8) : CScript :=
  if b.length < OP_PUSHDATA1 then UInt8.ofNat b.length :: b
  else if b.length ≤ 0xff then UInt8.ofNat OP_PUSHDATA1 :: leBytes 1 b.length ++ b
  else if b.length ≤ 0xffff then UInt8.ofNat OP_PUSHDATA2 :: leBytes 2 b.length ++ b
  else UInt8.ofNat OP_PUSHDATA4 :: leBytes 4 b.length ++ b

/-- `push_int64` of a number that is not negative. -/
def pushInt64 (n : Nat) : CScript :=
  if 1 ≤ n ∧ n ≤ 16 then [UInt8.ofNat (n + (OP_1 - 1))] else push (leBytes (vchSize n) n)

theorem length_leBytes (k n : Nat) : (leBytes k n).length = k := by
  induction k generalizing n with
  | zero => rfl
  | succ k ih => simp [leBytes, ih]

theorem ofNat_inj {m n : Nat} (hm : m < 256) (hn : n < 256) (h : UInt8.ofNat m = UInt8.ofNat n) : m = n := by
  have := congrArg UInt8.toNat h
  simpa [Nat.mod_eq_of_lt hm, Nat.mod_eq_of_lt hn] using this

theorem leBytes_inj {k m n : Nat} (hm : m < 256 ^ k) (hn : n < 256 ^ k) (h : leBytes k m = leBytes k n) : m = n := by
  induction k generalizing m n with
  | zero => simp at hm hn; omega
  | succ k ih =>
    simp only [leBytes, List.cons.injEq] at h
    have hbyte : m % 256 = n % 256 := ofNat_inj (by omega) (by omega) h.1
    have hrest : m / 256 = n / 256 :=
      ih (by rw [Nat.pow_succ] at hm; omega) (by rw [Nat.pow_succ] at hn; omega) h.2
    omega

theorem lt_pow_vchSize (n : Nat) : n < 256 ^ vchSize n := by
  unfold vchSize
  split
  next h => simp [h]
  next h =>
    calc n < 2 ^ (Nat.log2 n + 1) := Nat.lt_log2_self
      _ ≤ 2 ^ (8 * ((Nat.log2 n + 1) / 8 + 1)) := Nat.pow_le_pow_right (by omega) (by omega)
      _ = 256 ^ ((Nat.log2 n + 1) / 8 + 1) := by rw [Nat.pow_mul]

theorem length_le_push (b : List UInt8) : b.length ≤ (push b).length := by
  unfold push
  split
  · simp
  · split
    · simp only [List.length_append, List.length_cons]
      omega
    · split <;>
      · simp only [List.length_append, List.length_cons]
        omega

/-- The bytes of a short push: its length, or `OP_PUSHDATA1` and its length,
and the data. -/
theorem push_of_le {b : List UInt8} (h : b.length ≤ 0xff) :
    push b = UInt8.ofNat (min b.length OP_PUSHDATA1) ::
      ((if b.length < OP_PUSHDATA1 then [] else [UInt8.ofNat b.length]) ++ b) := by
  unfold push
  by_cases hlt : b.length < OP_PUSHDATA1
  · simp [hlt, Nat.min_eq_left (Nat.le_of_lt hlt)]
  · have hmod : b.length % 256 = b.length := by omega
    rw [if_neg hlt, if_neg hlt, if_pos h, Nat.min_eq_right (by omega)]
    simp [leBytes, hmod]

/-- A script starts with one push only. -/
theorem push_prefix_inj {b c l : List UInt8} (hb : push b <+: l) (hc : push c <+: l) (hl : l.length ≤ 200) : b = c := by
  have hb' : b.length ≤ 0xff := by have := length_le_push b; have := hb.length_le; omega
  have hc' : c.length ≤ 0xff := by have := length_le_push c; have := hc.length_le; omega
  rw [push_of_le hb'] at hb
  rw [push_of_le hc'] at hc
  obtain ⟨x, rfl⟩ := hb
  obtain ⟨y, hy⟩ := hc
  simp only [List.cons_append, List.cons.injEq, List.append_assoc] at hy
  obtain ⟨hfirst, hrest⟩ := hy
  have hmin : min c.length OP_PUSHDATA1 = min b.length OP_PUSHDATA1 :=
    ofNat_inj (by unfold OP_PUSHDATA1; omega) (by unfold OP_PUSHDATA1; omega) hfirst
  by_cases hlt : b.length < OP_PUSHDATA1
  · have hlt' : c.length < OP_PUSHDATA1 := by omega
    rw [if_pos hlt, if_pos hlt', List.nil_append, List.nil_append] at hrest
    exact (List.append_inj hrest (by omega)).1.symm
  · have hlt' : ¬ c.length < OP_PUSHDATA1 := by omega
    simp only [if_neg hlt, if_neg hlt', List.cons_append, List.nil_append, List.cons.injEq] at hrest
    have hlen : c.length = b.length := ofNat_inj (by omega) (by omega) hrest.1
    exact (List.append_inj hrest.2 hlen).1.symm

/-- A small number is an opcode of its own, above every length. -/
theorem not_prefix_opcode_push {n : Nat} {b l : List UInt8} (h₁ : 1 ≤ n) (h₂ : n ≤ 16)
    (hn : [UInt8.ofNat (n + (OP_1 - 1))] <+: l) (hb : push b <+: l) (hl : l.length ≤ 200) : False := by
  have hb' : b.length ≤ 0xff := by have := length_le_push b; have := hb.length_le; omega
  rw [push_of_le hb'] at hb
  obtain ⟨x, rfl⟩ := hn
  obtain ⟨y, hy⟩ := hb
  simp only [List.cons_append, List.cons.injEq] at hy
  have : min b.length OP_PUSHDATA1 = n + (OP_1 - 1) :=
    ofNat_inj (by unfold OP_PUSHDATA1; omega) (by unfold OP_1; omega) hy.1
  simp only [OP_PUSHDATA1, OP_1] at this
  omega

/-- A script starts with one number only. -/
theorem pushInt64_prefix_inj {m n : Nat} {l : CScript} (hm : pushInt64 m <+: l) (hn : pushInt64 n <+: l)
    (hl : l.length ≤ 200) : m = n := by
  unfold pushInt64 at hm hn
  split at hm
  next h₁ =>
    split at hn
    next h₂ =>
      obtain ⟨x, rfl⟩ := hm
      obtain ⟨y, hy⟩ := hn
      simp only [List.cons_append, List.nil_append, List.cons.injEq] at hy
      have := ofNat_inj (by simp [OP_1]; omega) (by simp [OP_1]; omega) hy.1
      omega
    next h₂ => exact (not_prefix_opcode_push h₁.1 h₁.2 hm hn hl).elim
  next h₁ =>
    split at hn
    next h₂ => exact (not_prefix_opcode_push h₂.1 h₂.2 hn hm hl).elim
    next h₂ =>
      have heq := push_prefix_inj hm hn hl
      have hsize : vchSize m = vchSize n := by simpa [length_leBytes] using congrArg List.length heq
      rw [hsize] at heq
      exact leBytes_inj (hsize ▸ lt_pow_vchSize m) (lt_pow_vchSize n) heq

/-! ## Operations -/

/-- The number in the first `k` bytes, the least significant first. -/
def leNat (bytes : List UInt8) : Nat := bytes.foldr (fun b n => b.toNat + 256 * n) 0

/-- `GetOp2`: the operation at `pc`, its data, and where the next one starts.
The length of a push is in the opcode itself or in 1, 2 or 4 bytes after it. -/
def getOp : CScript → Option (Nat × List UInt8 × CScript)
  | [] => none
  | b :: pc =>
    let opcode := b.toNat
    if opcode ≤ OP_PUSHDATA4 then
      let nLen := if opcode < OP_PUSHDATA1 then 0
        else if opcode = OP_PUSHDATA1 then 1
        else if opcode = OP_PUSHDATA2 then 2 else 4
      if pc.length < nLen then none
      else
        let nSize := if opcode < OP_PUSHDATA1 then opcode else leNat (pc.take nLen)
        let data := pc.drop nLen
        if data.length < nSize then none else some (opcode, data.take nSize, data.drop nSize)
    else some (opcode, [], pc)

/-- The loop of `GetSigOpCount(bool)`. Every operation takes a byte, so as
much fuel as there are bytes is enough. -/
def sigOpLoop (fAccurate : Bool) : Nat → Nat → CScript → Nat → Nat
  | 0, _, _, n => n
  | fuel + 1, lastOpcode, pc, n =>
    match getOp pc with
    | none => n
    | some (opcode, _, pc') =>
      let nOp :=
        if opcode = OP_CHECKSIG ∨ opcode = OP_CHECKSIGVERIFY then 1
        else if opcode = OP_CHECKMULTISIG ∨ opcode = OP_CHECKMULTISIGVERIFY then
          if fAccurate ∧ OP_1 ≤ lastOpcode ∧ lastOpcode ≤ OP_16 then lastOpcode - (OP_1 - 1) else 20
        else 0
      sigOpLoop fAccurate fuel opcode pc' (n + nOp)

/-- `GetSigOpCount(bool fAccurate)`. -/
def getSigOpCount (script : CScript) (fAccurate : Bool) : Nat :=
  sigOpLoop fAccurate script.length OP_INVALIDOPCODE script 0

def isPayToScriptHash (script : CScript) : Prop :=
  script.length = 23 ∧ script[0]? = some (UInt8.ofNat OP_HASH160) ∧ script[1]? = some 0x14 ∧
    script[22]? = some (UInt8.ofNat OP_EQUAL)

instance (script : CScript) : Decidable (isPayToScriptHash script) :=
  inferInstanceAs (Decidable (_ ∧ _ ∧ _ ∧ _))

/-- The data of the last push of a script that only pushes. -/
def lastPush : Nat → CScript → List UInt8 → Option (List UInt8)
  | _, [], data => some data
  | 0, _ :: _, _ => none
  | fuel + 1, b :: pc, _ =>
    match getOp (b :: pc) with
    | none => none
    | some (opcode, data, pc') => if OP_16 < opcode then none else lastPush fuel pc' data

/-- `GetSigOpCount(const CScript& scriptSig)`: for pay-to-script-hash, the
count of the script that `scriptSig` pushes last. -/
def getSigOpCountFor (script scriptSig : CScript) : Nat :=
  if ¬ isPayToScriptHash script then getSigOpCount script true
  else
    match lastPush scriptSig.length scriptSig [] with
    | none => 0
    | some data => getSigOpCount data true

end Pinkcoin.CScript
