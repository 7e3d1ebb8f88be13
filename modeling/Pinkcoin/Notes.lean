/-
Notes in plain text: an output without a value right after the payment it
belongs to, and the wallet that finds it there.
-/
import Mathlib
import Pinkcoin.CreateTransaction

namespace Pinkcoin

open CScript (getOp push OP_RETURN OP_PUSHDATA4)

/-! ## Writing a note -/

/-- `vNDesc`: the letters `np`. -/
def noteMark : List UInt8 := [0x6e, 0x70]

/-- `scriptN`. -/
def noteScript (sNarr : List UInt8) : CScript :=
  UInt8.ofNat OP_RETURN :: push noteMark ++ UInt8.ofNat OP_RETURN :: push sNarr

/-- The payees of `CreateTransaction` with a note: an empty one makes no
output. -/
def sendWithNote (scriptPubKey : CScript) (nValue : Int) (sNarr : List UInt8) : List (CScript × Int) :=
  (scriptPubKey, nValue) :: if 0 < sNarr.length then [(noteScript sNarr, 0)] else []

/-! ## Reading it -/

abbrev MapNarr := Map String (List UInt8)

/-- `n_%d`. -/
def narrKey (n : Int) : String := "n_" ++ n.repr

section Reading

variable {K : Type}

/-- The part of `FindStealthTransactions` for a plain note, at the mark. -/
def readNote (nOutputIdOuter : Nat) (itTxA : CScript) (mapNarr : MapNarr) : MapNarr :=
  match getOp itTxA with
  | none => mapNarr
  | some (opCode, _, itTxA) =>
    if opCode ≠ OP_RETURN then mapNarr
    else
      match getOp itTxA with
      | none => mapNarr
      | some (_, vchENarr, _) =>
        if 0 < vchENarr.length then mapNarr.insert (narrKey (nOutputIdOuter - 1)) vchENarr else mapNarr

/-- The body of the loop over the outputs. What is done at an ephemeral key is
`stealth`, which is given its output, the key and the rest of the script. -/
def readOutput (stealth : Nat → List UInt8 → CScript → K × MapNarr → K × MapNarr) (s : K × MapNarr)
    (output : CTxOut × Nat) : K × MapNarr :=
  match getOp output.1.scriptPubKey with
  | none => s
  | some (opCode, _, itTxA) =>
    if opCode ≠ OP_RETURN then s
    else
      match getOp itTxA with
      | none => s
      | some (_, vchEphemPK, itTxA) =>
        if vchEphemPK.length ≠ 33 then
          if vchEphemPK.take 2 = noteMark then (s.1, readNote output.2 itTxA s.2) else s
        else stealth output.2 vchEphemPK itTxA s

/-- `FindStealthTransactions`, on the keys and the notes. -/
def findStealthTransactions (stealth : Nat → List UInt8 → CScript → K × MapNarr → K × MapNarr) (tx : CTransaction)
    (keys : K) (mapNarr : MapNarr) : Bool × K × MapNarr :=
  if tx.isCoinBase ∨ tx.isCoinStake then (false, keys, mapNarr)
  else (true, tx.vout.zipIdx.foldl (readOutput stealth) (keys, ∅))

end Reading

/-! ## Payments with notes -/

/-- A payment, and its note if it is not empty. -/
structure Payment where
  scriptPubKey : CScript
  nValue : Int
  sNarr : List UInt8

namespace Payment

def sends (p : Payment) : List (CScript × Int) := sendWithNote p.scriptPubKey p.nValue p.sNarr

def outs (p : Payment) : List CTxOut := p.sends.map fun s => ⟨s.2, s.1⟩

/-- The outputs of payments. -/
def allOuts (payments : List Payment) : List CTxOut := payments.flatMap outs

/-- Where each payment stands, when the first is at `k`. -/
def places : List Payment → Nat → List Nat
  | [], _ => []
  | p :: payments, k => k :: places payments (k + p.outs.length)

end Payment

/-- A script whose first operation is `OP_RETURN`, so that nobody can spend
what is paid to it. -/
def OpensWithReturn (script : CScript) : Prop := ∃ vch pc, getOp script = some (OP_RETURN, vch, pc)

/-- A key and a note that one of the payments, which are at these places, asks
for. -/
def HasNote (l : List (Payment × Nat)) (key : String) (note : List UInt8) : Prop :=
  ∃ p k, (p, k) ∈ l ∧ p.sNarr ≠ [] ∧ note = p.sNarr ∧ key = narrKey k

/-- **Every note is with its payment**: the payments are in the transaction in
their order, each note right after its own, with the change as the only other
output, and what is found is each note under the place of its payment. -/
def NotesKept (payments : List Payment) (tx : CTransaction) (mapNarr : MapNarr) : Prop :=
  ∃ places : List Nat, places.Pairwise (· < ·) ∧
    List.Forall₂ (fun p k => p.outs <+: tx.vout.drop k) payments places ∧
    tx.vout.length ≤ (Payment.allOuts payments).length + 1 ∧
    ∀ key note, mapNarr.lookup key = some note ↔ HasNote (payments.zip places) key note

namespace Payment

variable {payments before after : List Payment} {p : Payment} {k position : Nat}

theorem outs_of_note (h : p.sNarr ≠ []) : p.outs = [⟨p.nValue, p.scriptPubKey⟩, ⟨0, noteScript p.sNarr⟩] := by
  have hpos := List.length_pos_iff.mpr h
  simp [outs, sends, sendWithNote, hpos]

theorem outs_of_none (h : p.sNarr = []) : p.outs = [⟨p.nValue, p.scriptPubKey⟩] := by
  simp [outs, sends, sendWithNote, h]

theorem allOuts_append : allOuts (before ++ after) = allOuts before ++ allOuts after := List.flatMap_append

theorem allOuts_cons : allOuts (p :: payments) = p.outs ++ allOuts payments := rfl

/-! ## The place of the change -/

/-- A position among the outputs is in a payment: at its value, or at its
note. -/
theorem exists_payment (h : position < (allOuts payments).length) :
    ∃ before p after, payments = before ++ p :: after ∧
      (position = (allOuts before).length ∨ p.sNarr ≠ [] ∧ position = (allOuts before).length + 1) := by
  induction payments generalizing position with
  | nil => exact absurd h (Nat.not_lt_zero _)
  | cons p payments ih =>
    by_cases hfirst : position < p.outs.length
    · refine ⟨[], p, payments, rfl, ?_⟩
      by_cases hnote : p.sNarr = []
      · rw [outs_of_none hnote] at hfirst
        exact .inl (Nat.lt_one_iff.mp hfirst)
      · rw [outs_of_note hnote] at hfirst
        have hlt : position < 2 := hfirst
        have hempty : (allOuts ([] : List Payment)).length = 0 := rfl
        rw [hempty]
        rcases Nat.lt_succ_iff_lt_or_eq.mp hlt with hzero | hone
        · exact .inl (Nat.lt_one_iff.mp hzero)
        · exact .inr ⟨hnote, hone⟩
    · have hlen : (allOuts (p :: payments)).length = p.outs.length + (allOuts payments).length := by
        rw [allOuts_cons, List.length_append]
      obtain ⟨before, q, after, rfl, hplace⟩ := @ih (position - p.outs.length) (by omega)
      have hbefore : (allOuts (p :: before)).length = p.outs.length + (allOuts before).length := by
        rw [allOuts_cons, List.length_append]
      refine ⟨p :: before, q, after, rfl, ?_⟩
      rw [hbefore]
      rcases hplace with heq | ⟨hnote, heq⟩
      · exact .inl (by omega)
      · exact .inr ⟨hnote, by omega⟩

/-- The output at the place of a payment has its value. -/
theorem value_at_payment :
    ((allOuts (before ++ p :: after))[(allOuts before).length]?).map CTxOut.nValue = some p.nValue := by
  rw [allOuts_append, List.getElem?_append_right le_rfl, Nat.sub_self, allOuts_cons]
  rfl

theorem value_at_note (h : p.sNarr ≠ []) :
    ((allOuts (before ++ p :: after))[(allOuts before).length + 1]?).map CTxOut.nValue = some 0 := by
  rw [allOuts_append, List.getElem?_append_right (Nat.le_add_right _ 1), Nat.add_sub_cancel_left, allOuts_cons, outs_of_note h]
  rfl

/-- The scan back stops at a payment. -/
theorem scanBack_at_payment (hpositive : 0 < p.nValue) :
    scanBack (allOuts (before ++ p :: after)) (allOuts before).length = (allOuts before).length := by
  have hvalue := @value_at_payment before after p
  cases hlen : (allOuts before).length with
  | zero => rfl
  | succ n =>
    rw [hlen] at hvalue
    unfold scanBack
    rw [hvalue]
    exact if_pos hpositive.ne'

/-- **The change goes between two payments**, whatever position was drawn. -/
theorem changePosition_between (hpositive : ∀ p ∈ payments, 0 < p.nValue) (h : position ≤ (allOuts payments).length) :
    ∃ before after, payments = before ++ after ∧
      changePosition (allOuts payments) position = (allOuts before).length := by
  unfold changePosition
  by_cases hinside : 0 < position ∧ position < (allOuts payments).length
  · rw [if_pos hinside]
    obtain ⟨before, p, after, rfl, hplace⟩ := exists_payment hinside.2
    have hp : 0 < p.nValue := hpositive p (by simp)
    refine ⟨before, p :: after, rfl, ?_⟩
    rcases hplace with rfl | ⟨hnote, rfl⟩
    · exact scanBack_at_payment hp
    · unfold scanBack
      rw [value_at_note hnote]
      exact (if_neg fun hne => hne rfl).trans (scanBack_at_payment hp)
  · rw [if_neg hinside]
    by_cases hzero : position = 0
    · exact ⟨[], payments, rfl, hzero⟩
    · exact ⟨payments, [], (List.append_nil _).symm, by omega⟩

/-! ## Places -/

theorem length_places : (places payments k).length = payments.length := by
  induction payments generalizing k with
  | nil => rfl
  | cons p payments ih => exact congrArg Nat.succ ih

theorem outs_pos : 0 < p.outs.length := by
  rw [outs, List.length_map]
  exact Nat.succ_pos _

theorem le_of_mem_places {n : Nat} (h : n ∈ places payments k) : k ≤ n ∧ n < k + (allOuts payments).length := by
  induction payments generalizing k with
  | nil => exact nomatch h
  | cons p payments ih =>
    have hpos := @outs_pos p
    rw [allOuts_cons, List.length_append]
    rcases List.mem_cons.mp h with rfl | h
    · omega
    · have hbounds := ih h
      omega

theorem pairwise_places : (places payments k).Pairwise (· < ·) := by
  induction payments generalizing k with
  | nil => exact .nil
  | cons p payments ih =>
    have hpos := @outs_pos p
    refine .cons (fun n hn => ?_) ih
    have hbounds := le_of_mem_places hn
    omega

/-- The outputs of each payment start at its place. -/
theorem outs_at_places {pre post : List CTxOut} :
    List.Forall₂ (fun p k => p.outs <+: (pre ++ allOuts payments ++ post).drop k) payments (places payments pre.length) := by
  induction payments generalizing pre with
  | nil => exact .nil
  | cons p payments ih =>
    refine .cons ?_ ?_
    · rw [List.append_assoc, List.drop_left, allOuts_cons, List.append_assoc]
      exact List.prefix_append _ _
    · have hlist : pre ++ allOuts (p :: payments) ++ post = (pre ++ p.outs) ++ allOuts payments ++ post := by
        rw [allOuts_cons]
        simp only [List.append_assoc]
      rw [hlist, ← List.length_append]
      exact ih

end Payment

/-! ## What is read -/

section Reading

variable {K : Type} {stealth : Nat → List UInt8 → CScript → K × MapNarr → K × MapNarr} {keys : K} {mapNarr : MapNarr}

/-- An output that does not open with `OP_RETURN` is passed over. -/
theorem readOutput_skip {txout : CTxOut} {k : Nat} {s : K × MapNarr} (h : ¬ OpensWithReturn txout.scriptPubKey) :
    readOutput stealth s (txout, k) = s := by
  unfold readOutput
  cases hop : getOp txout.scriptPubKey with
  | none => rfl
  | some op =>
    obtain ⟨opCode, vch, pc⟩ := op
    have hne : opCode ≠ OP_RETURN := fun heq => h ⟨vch, pc, heq ▸ hop⟩
    exact if_pos hne

theorem getOp_return (script : CScript) : getOp (UInt8.ofNat OP_RETURN :: script) = some (OP_RETURN, [], script) := rfl

theorem getOp_noteScript (note : List UInt8) :
    getOp (noteScript note) = some (OP_RETURN, [], push noteMark ++ UInt8.ofNat OP_RETURN :: push note) := rfl

/-- **A note is found under the output before it.** -/
theorem readOutput_note {note : List UInt8} {k : Nat} (hsize : note.length < 2 ^ 32) (hnote : note ≠ []) :
    readOutput stealth (keys, mapNarr) (⟨0, noteScript note⟩, k + 1) = (keys, mapNarr.insert (narrKey k) note) := by
  have hmark : getOp (push noteMark ++ UInt8.ofNat OP_RETURN :: push note) =
      some (2, noteMark, UInt8.ofNat OP_RETURN :: push note) := rfl
  obtain ⟨opcode, -, hpush⟩ := @CScript.getOp_push_append note [] hsize
  rw [List.append_nil] at hpush
  have hread : readNote (k + 1) (UInt8.ofNat OP_RETURN :: push note) mapNarr = mapNarr.insert (narrKey k) note := by
    unfold readNote
    rw [getOp_return]
    dsimp only
    rw [if_neg (not_not.mpr rfl), hpush]
    dsimp only
    rw [if_pos (List.length_pos_iff.mpr hnote)]
    push_cast
    rw [add_sub_cancel_right]
  unfold readOutput
  dsimp only
  rw [getOp_noteScript]
  dsimp only
  rw [if_neg (not_not.mpr rfl), hmark]
  dsimp only
  rw [if_pos (by decide), if_pos (by decide), hread]

/-- The notes of some payments, each put in under the place of its payment. -/
def putNotes : List (Payment × Nat) → MapNarr → MapNarr
  | [], mapNarr => mapNarr
  | (p, k) :: l, mapNarr => putNotes l (if p.sNarr = [] then mapNarr else mapNarr.insert (narrKey k) p.sNarr)

/-- What is read from the outputs of payments. -/
theorem read_allOuts {payments : List Payment} {k : Nat} (hscript : ∀ p ∈ payments, ¬ OpensWithReturn p.scriptPubKey)
    (hsize : ∀ p ∈ payments, p.sNarr.length < 2 ^ 32) :
    ((Payment.allOuts payments).zipIdx k).foldl (readOutput stealth) (keys, mapNarr) =
      (keys, putNotes (payments.zip (Payment.places payments k)) mapNarr) := by
  induction payments generalizing k mapNarr with
  | nil => rfl
  | cons p payments ih =>
    obtain ⟨hp, hscript⟩ := List.forall_mem_cons.mp hscript
    obtain ⟨hlen, hsize⟩ := List.forall_mem_cons.mp hsize
    rw [Payment.allOuts_cons, List.zipIdx_append, List.foldl_append, Payment.places, List.zip_cons_cons, putNotes]
    by_cases hnote : p.sNarr = []
    · have hfirst : (p.outs.zipIdx k).foldl (readOutput stealth) (keys, mapNarr) = (keys, mapNarr) := by
        rw [Payment.outs_of_none hnote]
        exact readOutput_skip hp
      rw [hfirst, if_pos hnote, ih hscript hsize]
    · have hfirst : (p.outs.zipIdx k).foldl (readOutput stealth) (keys, mapNarr) =
          (keys, mapNarr.insert (narrKey k) p.sNarr) := by
        have hskip : readOutput stealth (keys, mapNarr) (⟨p.nValue, p.scriptPubKey⟩, k) = (keys, mapNarr) :=
          readOutput_skip hp
        rw [Payment.outs_of_note hnote, List.zipIdx_cons, List.foldl_cons, hskip]
        exact @readOutput_note K stealth keys mapNarr p.sNarr k hlen hnote
      rw [hfirst, if_neg hnote, ih hscript hsize]

theorem narrKey_inj {m n : Nat} : narrKey m = narrKey n ↔ m = n := by
  unfold narrKey
  rw [String.append_right_inj, Int.repr_inj, Nat.cast_inj]

theorem hasNote_cons {p : Payment} {k : Nat} {l : List (Payment × Nat)} {key : String} {note : List UInt8} :
    HasNote ((p, k) :: l) key note ↔ (p.sNarr ≠ [] ∧ note = p.sNarr ∧ key = narrKey k) ∨ HasNote l key note := by
  constructor
  · intro ⟨p', k', hmem, hnote⟩
    rcases List.mem_cons.mp hmem with heq | hmem
    · obtain ⟨rfl, rfl⟩ := Prod.mk.inj heq
      exact .inl hnote
    · exact .inr ⟨p', k', hmem, hnote⟩
  · intro h
    rcases h with hnote | ⟨p', k', hmem, hnote⟩
    · exact ⟨p, k, List.mem_cons_self, hnote⟩
    · exact ⟨p', k', List.mem_cons_of_mem _ hmem, hnote⟩

/-- What is found after the notes of payments at different places were put
in. -/
theorem lookup_putNotes {l : List (Payment × Nat)} (hdistinct : (l.map Prod.snd).Nodup) (key : String) (note : List UInt8) :
    (putNotes l mapNarr).lookup key = some note ↔
      HasNote l key note ∨ (∀ n, ¬ HasNote l key n) ∧ mapNarr.lookup key = some note := by
  induction l generalizing mapNarr with
  | nil => simp [putNotes, HasNote]
  | cons e l ih =>
    obtain ⟨p, k⟩ := e
    obtain ⟨hfresh, hdistinct⟩ := List.nodup_cons.mp hdistinct
    rw [putNotes, ih hdistinct]
    by_cases hnote : p.sNarr = []
    · rw [if_pos hnote]
      simp only [hasNote_cons, hnote, ne_eq, not_true_eq_false, false_and, false_or]
    · rw [if_neg hnote]
      by_cases hkey : key = narrKey k
      · subst hkey
        -- no later payment is at this place
        have hother : ∀ n, ¬ HasNote l (narrKey k) n := by
          intro n h
          obtain ⟨p', k', hmem, -, -, heq⟩ := h
          rw [← narrKey_inj.mp heq] at hmem
          exact hfresh (List.mem_map.mpr ⟨(p', k), hmem, rfl⟩)
        rw [AList.lookup_insert]
        simp only [hasNote_cons, hother, hnote, or_false, false_or, Option.some.injEq, ne_eq, not_false_eq_true, true_and,
          implies_true, and_true, eq_comm]
        simp
      · rw [AList.lookup_insert_ne hkey]
        simp only [hasNote_cons, hkey, and_false, false_or]

end Reading

/-! ## The outputs of a round -/

/-- No script of an address opens with `OP_RETURN`. -/
theorem not_opensWithReturn_setDestination (dest : CTxDestination) : ¬ OpensWithReturn (setDestination dest) := by
  intro h
  obtain ⟨vch, pc, hop⟩ := h
  cases dest with
  | keyID id =>
    have hfirst : getOp (setDestination (.keyID id)) = some (CScript.OP_DUP, [], (setDestination (.keyID id)).tail) := rfl
    cases hfirst.symm.trans hop
  | scriptID id =>
    have hfirst : getOp (setDestination (.scriptID id)) =
      some (CScript.OP_HASH160, [], (setDestination (.scriptID id)).tail) := rfl
    cases hfirst.symm.trans hop

theorem not_opensWithReturn_nil : ¬ OpensWithReturn [] := fun ⟨_, _, hop⟩ => nomatch hop

namespace SendRequest

variable {r : SendRequest} {e : RoundEnv} {address : Option CTxDestination} {nChange : Int} {vout : List CTxOut}
  {payments : List Payment}

/-- The change goes to an address, or nowhere. -/
theorem not_opensWithReturn_changeScript {reservedKey : Option CKeyID} {scriptChange : CScript}
    (h : r.changeScript address reservedKey = some scriptChange) : ¬ OpensWithReturn scriptChange := by
  have hreserved : ∀ {id : Option CKeyID}, id.map (fun id => setDestination (.keyID id)) = some scriptChange →
      ¬ OpensWithReturn scriptChange := by
    intro id hid
    obtain ⟨id, -, rfl⟩ := Option.map_eq_some_iff.mp hid
    exact not_opensWithReturn_setDestination _
  unfold changeScript at h
  split at h
  · exact hreserved h
  · split at h
    · obtain rfl := Option.some.inj h
      cases address with
      | none => exact not_opensWithReturn_nil
      | some dest => exact not_opensWithReturn_setDestination dest
    · split at h
      · obtain rfl := Option.some.inj h
        exact not_opensWithReturn_setDestination _
      · exact hreserved h

theorem insertIdx_length_left (l l' : List CTxOut) (txout : CTxOut) :
    (l ++ l').insertIdx l.length txout = l ++ txout :: l' := by
  induction l with
  | nil => rfl
  | cons o l ih => exact congrArg (o :: ·) ih

/-- Without splitting each payee has one output. -/
theorem payeeOuts_unsplit (hsplit : r.fSplitBlock = false ∨ r.nSplitBlock ≤ 1) (vecSend : List (CScript × Int)) :
    payeeOuts r.fSplitBlock r.nSplitBlock vecSend = vecSend.map fun s => ⟨s.2, s.1⟩ := by
  unfold payeeOuts
  split
  · rfl
  next hblock =>
    have hone : (if r.nSplitBlock < 1 then 1 else r.nSplitBlock).toNat = 1 := by
      have hle := hsplit.resolve_left fun hfalse => hblock (by simp [hfalse])
      split <;> omega
    have hout : splitOut 1 = fun s => [⟨s.2, s.1⟩] := by
      funext s
      rw [splitOut_succ 0 s]
      simp
    rw [hone, hout, List.map_eq_flatMap]

/-- **The outputs**: payments, the change if there is any, and the other
payments. -/
theorem exists_between (hvec : r.vecSend = payments.flatMap Payment.sends) (hpositive : ∀ p ∈ payments, 0 < p.nValue)
    (hsplit : r.fSplitBlock = false ∨ r.nSplitBlock ≤ 1) (h : r.outsWithChange e address nChange = some vout) :
    ∃ before change after, payments = before ++ after ∧ change.length ≤ 1 ∧
      (∀ txout ∈ change, 0 < txout.nValue ∧ ¬ OpensWithReturn txout.scriptPubKey) ∧
      vout = Payment.allOuts before ++ change ++ Payment.allOuts after := by
  have houts : payeeOuts r.fSplitBlock r.nSplitBlock r.vecSend = Payment.allOuts payments := by
    rw [payeeOuts_unsplit hsplit, hvec, List.map_flatMap]
    rfl
  rcases outsWithChange_eq h with ⟨-, rfl⟩ | ⟨hpos, position, scriptChange, hle, hscript, rfl⟩
  · refine ⟨payments, [], [], (List.append_nil _).symm, Nat.zero_le _, fun _ h => (nomatch h), ?_⟩
    rw [houts, List.append_nil]
    exact (List.append_nil _).symm
  · rw [houts] at hle ⊢
    obtain ⟨before, after, rfl, hplace⟩ := Payment.changePosition_between hpositive hle
    refine ⟨before, [⟨nChange, scriptChange⟩], after, rfl, le_rfl, fun txout hout => ?_, ?_⟩
    · rw [List.mem_singleton.mp hout]
      exact ⟨hpos, not_opensWithReturn_changeScript hscript⟩
    · rw [hplace, Payment.allOuts_append, insertIdx_length_left, List.append_assoc]
      rfl

end SendRequest

/-! ## What is found -/

theorem CTransaction.length_script_le {tx : CTransaction} {txout : CTxOut} (h : txout ∈ tx.vout) :
    txout.scriptPubKey.length ≤ tx.getSerializeSize := by
  have hout := List.single_le_sum (l := tx.vout.map CTxOut.getSerializeSize) (fun _ _ => Nat.zero_le _) _
    (List.mem_map_of_mem h)
  have hscript : txout.scriptPubKey.length ≤ txout.getSerializeSize := by
    unfold CTxOut.getSerializeSize bytesSize
    omega
  unfold CTransaction.getSerializeSize
  omega

theorem length_le_noteScript (note : List UInt8) : note.length ≤ (noteScript note).length := by
  have hpush := CScript.length_le_push note
  simp only [noteScript, List.length_cons, List.length_append]
  omega

theorem putNotes_append {l l' : List (Payment × Nat)} {mapNarr : MapNarr} :
    putNotes (l ++ l') mapNarr = putNotes l' (putNotes l mapNarr) := by
  induction l generalizing mapNarr with
  | nil => rfl
  | cons e l ih => exact ih

section Found

variable {K : Type} {stealth : Nat → List UInt8 → CScript → K × MapNarr → K × MapNarr} {keys : K} {mapNarr : MapNarr}
  {before after payments : List Payment} {change : List CTxOut} {tx : CTransaction}

/-- What is read from payments with an output between them that nothing is read
from. -/
theorem read_between (hscript : ∀ p ∈ before ++ after, ¬ OpensWithReturn p.scriptPubKey)
    (hsize : ∀ p ∈ before ++ after, p.sNarr.length < 2 ^ 32) (hchange : ∀ txout ∈ change, ¬ OpensWithReturn txout.scriptPubKey) :
    (Payment.allOuts before ++ change ++ Payment.allOuts after).zipIdx.foldl (readOutput stealth) (keys, ∅) =
      (keys, putNotes ((before ++ after).zip (Payment.places before 0 ++
        Payment.places after (Payment.allOuts before ++ change).length)) ∅) := by
  have hskip : ∀ k (s : K × MapNarr), (change.zipIdx k).foldl (readOutput stealth) s = s := by
    intro k s
    induction change generalizing k with
    | nil => rfl
    | cons txout change ih =>
      obtain ⟨hfirst, hrest⟩ := List.forall_mem_cons.mp hchange
      rw [List.zipIdx_cons, List.foldl_cons, readOutput_skip hfirst]
      exact ih hrest (k + 1)
  rw [List.zipIdx_append, List.foldl_append, List.zipIdx_append, List.foldl_append,
    read_allOuts (fun p hp => hscript p (List.mem_append_left _ hp)) (fun p hp => hsize p (List.mem_append_left _ hp)),
    hskip, Nat.zero_add,
    read_allOuts (fun p hp => hscript p (List.mem_append_right _ hp)) (fun p hp => hsize p (List.mem_append_right _ hp)),
    List.zip_append Payment.length_places.symm, putNotes_append]

/-- **The notes of such a transaction are with their payments.** -/
theorem notesKept_between (hscript : ∀ p ∈ before ++ after, ¬ OpensWithReturn p.scriptPubKey)
    (hsize : ∀ p ∈ before ++ after, p.sNarr.length < 2 ^ 32) (hlength : change.length ≤ 1)
    (hchange : ∀ txout ∈ change, ¬ OpensWithReturn txout.scriptPubKey)
    (hvout : tx.vout = Payment.allOuts before ++ change ++ Payment.allOuts after) :
    NotesKept (before ++ after) tx (tx.vout.zipIdx.foldl (readOutput stealth) (keys, ∅)).2 := by
  have hplaces : (Payment.places before 0 ++ Payment.places after (Payment.allOuts before ++ change).length).Pairwise
      (· < ·) := by
    refine List.pairwise_append.mpr ⟨Payment.pairwise_places, Payment.pairwise_places, fun m hm n hn => ?_⟩
    have hlow := (Payment.le_of_mem_places hm).2
    have hhigh := (Payment.le_of_mem_places hn).1
    rw [List.length_append] at hhigh
    omega
  have hsame : (before ++ after).length =
      (Payment.places before 0 ++ Payment.places after (Payment.allOuts before ++ change).length).length := by
    rw [List.length_append, List.length_append, Payment.length_places, Payment.length_places]
  refine ⟨_, hplaces, ?_, ?_, fun key note => ?_⟩
  · rw [hvout]
    have hfirst := @Payment.outs_at_places before [] (change ++ Payment.allOuts after)
    have hsecond := @Payment.outs_at_places after (Payment.allOuts before ++ change) []
    rw [List.nil_append, ← List.append_assoc] at hfirst
    rw [List.append_nil] at hsecond
    exact List.rel_append hfirst hsecond
  · rw [hvout, Payment.allOuts_append]
    simp only [List.length_append]
    omega
  · rw [hvout, read_between hscript hsize hchange, lookup_putNotes]
    · simp only [AList.lookup_empty, reduceCtorEq, and_false, or_false]
    · rw [List.map_snd_zip hsame.ge]
      exact hplaces.imp fun hlt => hlt.ne

/-- No input is null, and the first output is not empty. -/
theorem not_generated (hin : ∀ txin ∈ tx.vin, txin.prevout.n < UINT_MAX) (hout : ∀ txout ∈ tx.vout.head?, ¬ txout.isEmpty) :
    ¬ (tx.isCoinBase ∨ tx.isCoinStake) := by
  intro h
  rcases h with ⟨-, ⟨txin, hmem, hnull⟩, -⟩ | ⟨-, -, txout, hmem, hempty⟩
  · have hlt := hin txin (List.mem_of_mem_head? hmem)
    rw [hnull] at hlt
    exact absurd hlt (lt_irrefl _)
  · exact hout txout hmem hempty

/-- The inputs of a round are coins of the wallet. -/
theorem prevout_lt_of_reaches {P : Params} {w : CWallet} {view : CoinView} {r : SendRequest} {nValue nFeeRet nMoveToFee : Int}
    {e : RoundEnv} {sel : Selection} (h : CWallet.Reaches P w view r nValue e nFeeRet sel nMoveToFee tx)
    (hindex : ∀ hash pcoin, w.mapWallet.lookup hash = some pcoin → pcoin.tx.vout.length ≤ UINT_MAX) :
    ∀ txin ∈ tx.vin, txin.prevout.n < UINT_MAX := by
  intro txin htxin
  have hmem := List.mem_map_of_mem (f := CTxIn.prevout) htxin
  rw [h.ins] at hmem
  obtain ⟨coin, hcoin, heq⟩ := List.mem_map.mp hmem
  rw [← List.mem_toFinset, e.order_toFinset] at hcoin
  obtain ⟨out, hout, rfl⟩ := h.selects.subset coin hcoin
  obtain ⟨pcoin, hlookup, hlt⟩ := CWallet.mem_availableCoins hout
  rw [← heq]
  exact hlt.trans_le (hindex _ _ hlookup)

theorem value_of_head (hpositive : ∀ p ∈ payments, 0 < p.nValue) :
    ∀ txout ∈ (Payment.allOuts payments).head?, 0 < txout.nValue := by
  intro txout hmem
  cases payments with
  | nil => exact nomatch hmem
  | cons p payments =>
    obtain rfl : (⟨p.nValue, p.scriptPubKey⟩ : CTxOut) = txout := Option.some.inj hmem
    exact hpositive p List.mem_cons_self

/-- **Plain notes stay attached to their payments.** The payments are to
addresses, so that none of their scripts opens with `OP_RETURN`, and an index
into the outputs of a wallet transaction is an `unsigned int`. -/
theorem findStealthTransactions_created (P : Params) (w : CWallet) (view : CoinView) (r : SendRequest)
    (wtxNew : CTransaction) (env : Nat → RoundEnv) (payments : List Payment)
    (stealth : Nat → List UInt8 → CScript → K × MapNarr → K × MapNarr) (keys : K) (mapNarr : MapNarr)
    (hvec : r.vecSend = payments.flatMap Payment.sends) (hpositive : ∀ p ∈ payments, 0 < p.nValue)
    (hscript : ∀ p ∈ payments, ¬ OpensWithReturn p.scriptPubKey) (hsplit : r.fSplitBlock = false ∨ r.nSplitBlock ≤ 1)
    (hindex : ∀ hash pcoin, w.mapWallet.lookup hash = some pcoin → pcoin.tx.vout.length ≤ UINT_MAX)
    (fuel : Nat) (tx : CTransaction) (nFeeRet : Int)
    (hcreated : w.createTransaction P view r wtxNew env fuel = some (.created tx nFeeRet)) :
    (findStealthTransactions stealth tx keys mapNarr).1 = true ∧
      NotesKept payments tx (findStealthTransactions stealth tx keys mapNarr).2.2 := by
  obtain ⟨e, nFeeRet', sel, nMoveToFee, hreaches, -, -, -⟩ := CWallet.exists_round hcreated
  obtain ⟨-, -, ⟨address, houts⟩, -, htxsize⟩ := id hreaches
  obtain ⟨before, change, after, rfl, hlength, hchange, hvout⟩ := SendRequest.exists_between hvec hpositive hsplit houts
  have hhead : ∀ txout ∈ tx.vout.head?, 0 < txout.nValue := by
    intro txout hmem
    rw [hvout, List.head?_append, List.head?_append, Option.or_assoc] at hmem
    rcases Option.or_eq_some_iff.mp hmem with hmem | ⟨-, hmem⟩
    · exact value_of_head (fun p hp => hpositive p (List.mem_append_left _ hp)) txout hmem
    · rcases Option.or_eq_some_iff.mp hmem with hmem | ⟨-, hmem⟩
      · exact (hchange txout (List.mem_of_mem_head? hmem)).1
      · exact value_of_head (fun p hp => hpositive p (List.mem_append_right _ hp)) txout hmem
  have hsize : ∀ p ∈ before ++ after, p.sNarr.length < 2 ^ 32 := by
    intro p hp
    by_cases hnote : p.sNarr = []
    · rw [hnote]
      decide
    · have hmem : (⟨0, noteScript p.sNarr⟩ : CTxOut) ∈ tx.vout := by
        have hin : (⟨0, noteScript p.sNarr⟩ : CTxOut) ∈ p.outs := by
          rw [Payment.outs_of_note hnote]
          exact List.mem_cons_of_mem _ (List.mem_singleton_self _)
        rw [hvout]
        rcases List.mem_append.mp hp with hp | hp
        · exact List.mem_append_left _ (List.mem_append_left _ (List.mem_flatMap.mpr ⟨p, hp, hin⟩))
        · exact List.mem_append_right _ (List.mem_flatMap.mpr ⟨p, hp, hin⟩)
      have hlen := (length_le_noteScript p.sNarr).trans (CTransaction.length_script_le hmem)
      have hmax : MAX_BLOCK_SIZE_GEN / 5 < 2 ^ 32 := by decide
      omega
  unfold findStealthTransactions
  rw [if_neg (not_generated (prevout_lt_of_reaches hreaches hindex) fun txout hmem hempty =>
    (hhead txout hmem).ne' hempty.1)]
  exact ⟨rfl, notesKept_between hscript hsize hlength (fun txout hout => (hchange txout hout).2) hvout⟩

end Found

/-! ## A payment with a note -/

namespace Sample

def notedPayment : Payment := ⟨setDestination (.keyID (List.Vector.replicate 20 1)), 4 * COIN, [0x68, 0x69]⟩

def noteRequest : SendRequest := { sendRequest with vecSend := notedPayment.sends }

/-- The change comes before the payment and its note. -/
def noted : CTransaction :=
  ⟨1, 2000, [⟨⟨1000, 0⟩, [], UINT_MAX⟩],
    [⟨COIN - MIN_TX_FEE, setDestination (.keyID (List.Vector.replicate 20 0))⟩, ⟨4 * COIN, notedPayment.scriptPubKey⟩,
      ⟨0, noteScript notedPayment.sNarr⟩], 0⟩

end Sample

theorem findStealthTransactions_created_sample :
    (findStealthTransactions (fun _ _ _ s => s) Sample.noted () ∅).1 = true ∧
      NotesKept [Sample.notedPayment] Sample.noted (findStealthTransactions (fun _ _ _ s => s) Sample.noted () ∅).2.2 :=
  findStealthTransactions_created (Sample.params true) Sample.coinWallet Sample.coinView Sample.noteRequest Sample.unsent
    (fun _ => Sample.roundEnv) [Sample.notedPayment] (fun _ _ _ s => s) () ∅ rfl (by decide)
    (fun p hp => List.mem_singleton.mp hp ▸ not_opensWithReturn_setDestination (.keyID (List.Vector.replicate 20 1))) (.inl rfl)
    (fun _ _ h => (Sample.lookup_coinWallet h).2 ▸ (by decide)) 2 Sample.noted MIN_TX_FEE (by decide +kernel)

end Pinkcoin
