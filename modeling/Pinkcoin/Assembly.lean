/-
Scripts are put together by `operator<<` and taken apart by `GetOp`. The
reader stays inside the script whatever its bytes are. What was put together
is read back as long as no push has so much behind it that the number of bytes
left does not fit an `unsigned int`.
-/
import Pinkcoin.Solver

namespace Pinkcoin.CScript

/-! ## Reading -/

/-- What `GetOp` returns: its result, the iterator, the opcode and the data. -/
structure OpRead where
  fRet : Bool
  pc : Nat
  opcodeRet : Nat
  vchRet : List UInt8
  deriving DecidableEq

/-- `GetOp2` gives up, with the iterator where it is. -/
def OpRead.fails (pc : Nat) : OpRead := ⟨false, pc, OP_INVALIDOPCODE, []⟩

/-- Some bytes of the script, `none` where they are not all inside it. -/
def readBytes (script : CScript) (pc n : Nat) : Option (List UInt8) :=
  if pc + n ≤ script.length then some ((script.drop pc).take n) else none

/-- The end of `GetOp2`. The number of bytes left is compared as an
`unsigned int`. -/
def getOperand (script : CScript) (pc opcode nSize : Nat) : Option OpRead :=
  if (script.length - pc) % 2 ^ 32 < nSize then some (.fails pc)
  else do
    let vch ← readBytes script pc nSize
    return ⟨true, pc + nSize, opcode, vch⟩

/-- `GetOp2`, with `none` for a read outside the script. -/
def getOp2 (script : CScript) (pc : Nat) : Option OpRead :=
  if pc ≥ script.length then some (.fails pc)
  else do
    let b ← script[pc]?
    let pc := pc + 1
    let opcode := b.toNat
    if opcode ≤ OP_PUSHDATA4 then
      if opcode < OP_PUSHDATA1 then getOperand script pc opcode opcode
      else if opcode = OP_PUSHDATA1 then
        if script.length - pc < 1 then some (.fails pc)
        else do
          let nSize ← script[pc]?
          getOperand script (pc + 1) opcode nSize.toNat
      else if opcode = OP_PUSHDATA2 then
        if script.length - pc < 2 then some (.fails pc)
        else do
          let nSize ← readBytes script pc 2
          getOperand script (pc + 2) opcode (leNat nSize)
      else
        if script.length - pc < 4 then some (.fails pc)
        else do
          let nSize ← readBytes script pc 4
          getOperand script (pc + 4) opcode (leNat nSize)
    else some ⟨true, pc, opcode, []⟩

/-- What is put into a script: an opcode that is not a push, or data. -/
inductive Item
  | opcode (n : Nat)
  | data (b : List UInt8)
  deriving DecidableEq

/-- What a read operation was. -/
def OpRead.item (r : OpRead) : Item := if r.opcodeRet ≤ OP_PUSHDATA4 then .data r.vchRet else .opcode r.opcodeRet

/-- A loop over `GetOp`: what was read, and the iterator after it. It is `none`
for a read outside the script, and when the loop does not end in time. -/
def readLoop (script : CScript) : Nat → Nat → Option (List Item × Nat)
  | 0, _ => none
  | fuel + 1, pc => do
    let r ← getOp2 script pc
    if r.fRet then
      let rest ← readLoop script fuel r.pc
      return (r.item :: rest.1, rest.2)
    else return ([], r.pc)

/-- The script is read from its start. -/
def readAll (script : CScript) : Option (List Item × Nat) := readLoop script (script.length + 1) 0

/-- The tests of `HasCanonicalPushes` that refuse a push. -/
def refusedPush (opcode : Nat) (data : List UInt8) : Bool :=
  decide (opcode < OP_PUSHDATA1 ∧ 0 < opcode ∧ data.length = 1 ∧ data.headD 0 ≤ 16 ∨
    opcode = OP_PUSHDATA1 ∧ data.length < OP_PUSHDATA1 ∨
    opcode = OP_PUSHDATA2 ∧ data.length ≤ 0xff ∨
    opcode = OP_PUSHDATA4 ∧ data.length ≤ 0xffff)

/-- The loop of `HasCanonicalPushes`. -/
def canonicalLoop (script : CScript) : Nat → Nat → Option Bool
  | 0, _ => none
  | fuel + 1, pc =>
    if pc < script.length then do
      let r ← getOp2 script pc
      if r.fRet = false then some false
      else if r.opcodeRet > OP_16 then canonicalLoop script fuel r.pc
      else if refusedPush r.opcodeRet r.vchRet then some false
      else canonicalLoop script fuel r.pc
    else some true

/-- `HasCanonicalPushes`. -/
def hasCanonicalPushes (script : CScript) : Option Bool := canonicalLoop script (script.length + 1) 0

/-! ## Putting together -/

/-- `operator<<` of an opcode or of data: the bytes that are put at the end. -/
def Item.bytes : Item → CScript
  | .opcode n => [UInt8.ofNat n]
  | .data b => push b

/-- The items are put into an empty script, one after the other. -/
def assemble (items : List Item) : CScript := items.foldl (fun script item => script ++ item.bytes) []

/-- An opcode that is not a push, or data of a size that can be written. -/
def Item.Valid : Item → Prop
  | .opcode n => OP_PUSHDATA4 < n ∧ n ≤ 0xff
  | .data b => b.length < 2 ^ 32

/-- A single byte for which there is an opcode. -/
def Item.small : Item → Bool
  | .opcode _ => false
  | .data b => decide (b.length = 1 ∧ b.headD 0 ≤ 16)

/-! ## The reader stays inside -/

theorem readBytes_isSome {script : CScript} {pc n : Nat} (h : pc + n ≤ script.length) :
    readBytes script pc n = some ((script.drop pc).take n) := if_pos h

/-- **One operation is read inside the script**, and the iterator moves. -/
structure Stays (script : CScript) (pc : Nat) (r : OpRead) : Prop where
  within : pc ≤ script.length → r.pc ≤ script.length
  moves : r.fRet = true → pc < r.pc

theorem getOperand_inside {script : CScript} {pc pc' opcode nSize : Nat} (hpc : pc < pc') (hle : pc' ≤ script.length) :
    ∃ r, getOperand script pc' opcode nSize = some r ∧ Stays script pc r := by
  unfold getOperand
  by_cases hshort : (script.length - pc') % 2 ^ 32 < nSize
  · exact ⟨_, if_pos hshort, fun _ => hle, nofun⟩
  · have hmod := Nat.mod_le (script.length - pc') (2 ^ 32)
    refine ⟨_, by rw [if_neg hshort, readBytes_isSome (by omega)]; rfl, fun _ => ?_, fun _ => ?_⟩
    · show pc' + nSize ≤ script.length
      omega
    · show pc < pc' + nSize
      omega

/-- `GetOp2` never reads past the end. -/
theorem getOp2_inside (script : CScript) (pc : Nat) : ∃ r, getOp2 script pc = some r ∧ Stays script pc r := by
  have hfails : ∀ {pc'}, pc < script.length → pc' = pc + 1 → Stays script pc (.fails pc') := by
    intro pc' hlt hpc'
    refine ⟨fun _ => ?_, nofun⟩
    rw [hpc']
    exact hlt
  unfold getOp2
  by_cases hend : pc ≥ script.length
  · exact ⟨_, if_pos hend, fun h => h, nofun⟩
  · have hlt : pc < script.length := by omega
    rw [if_neg hend, List.getElem?_eq_getElem hlt]
    simp only [Option.bind_eq_bind, Option.bind_some]
    split_ifs with hpush hdirect hone hshort htwo hshort hshort
    · exact getOperand_inside (by omega) (by omega)
    · exact ⟨_, rfl, hfails hlt rfl⟩
    · rw [List.getElem?_eq_getElem (by omega)]
      exact getOperand_inside (by omega) (by omega)
    · exact ⟨_, rfl, hfails hlt rfl⟩
    · rw [readBytes_isSome (by omega)]
      exact getOperand_inside (by omega) (by omega)
    · exact ⟨_, rfl, hfails hlt rfl⟩
    · rw [readBytes_isSome (by omega)]
      exact getOperand_inside (by omega) (by omega)
    · exact ⟨_, rfl, fun _ => hlt, fun _ => Nat.lt_succ_self pc⟩

/-- A loop over `GetOp` ends. -/
theorem readLoop_ends {script : CScript} {fuel pc : Nat} (hpc : pc ≤ script.length)
    (hfuel : script.length - pc < fuel) :
    ∃ items pc', readLoop script fuel pc = some (items, pc') ∧ pc' ≤ script.length := by
  induction fuel generalizing pc with
  | zero => omega
  | succ fuel ih =>
    obtain ⟨r, hr, hin⟩ := getOp2_inside script pc
    have hle := hin.within hpc
    rw [readLoop, hr, Option.bind_eq_bind, Option.bind_some]
    cases hret : r.fRet with
    | false => exact ⟨[], r.pc, rfl, hle⟩
    | true =>
      have hmoves := hin.moves hret
      obtain ⟨items, pc', hrest, hle'⟩ := ih hle (by omega)
      exact ⟨r.item :: items, pc', by rw [if_pos rfl, hrest]; rfl, hle'⟩

theorem canonicalLoop_ends {script : CScript} {fuel pc : Nat} (hpc : pc ≤ script.length)
    (hfuel : script.length - pc < fuel) : ∃ ok, canonicalLoop script fuel pc = some ok := by
  induction fuel generalizing pc with
  | zero => omega
  | succ fuel ih =>
    obtain ⟨r, hr, hin⟩ := getOp2_inside script pc
    have hle := hin.within hpc
    rw [canonicalLoop]
    by_cases hlt : pc < script.length
    · rw [if_pos hlt, hr, Option.bind_eq_bind, Option.bind_some]
      cases hret : r.fRet with
      | false => exact ⟨false, rfl⟩
      | true =>
        have hmoves := hin.moves hret
        have hnext := ih hle (by omega)
        rw [if_neg (by simp)]
        split_ifs
        · exact hnext
        · exact ⟨false, rfl⟩
        · exact hnext
    · exact ⟨true, if_neg hlt⟩

/-! ## Scripts of less than four gigabytes -/

/-- What `getOp` returns for what `GetOp2` read. -/
def OpRead.operation (script : CScript) (r : OpRead) : Option (Nat × List UInt8 × CScript) :=
  if r.fRet then some (r.opcodeRet, r.vchRet, script.drop r.pc) else none

theorem getOperand_operation {script : CScript} (h : script.length < 2 ^ 32) {pc opcode nSize : Nat}
    (hpc : pc ≤ script.length) :
    (getOperand script pc opcode nSize).map (OpRead.operation script) =
      some (if (script.drop pc).length < nSize then none
        else some (opcode, (script.drop pc).take nSize, (script.drop pc).drop nSize)) := by
  unfold getOperand
  rw [Nat.mod_eq_of_lt (by omega), List.length_drop]
  split
  · rfl
  · rw [readBytes_isSome (by omega), List.drop_drop]
    rfl

/-- The operations of a script that is not too long are those of `getOp`. -/
theorem getOp2_operation {script : CScript} (h : script.length < 2 ^ 32) (pc : Nat) :
    (getOp2 script pc).map (OpRead.operation script) = some (getOp (script.drop pc)) := by
  unfold getOp2
  by_cases hend : pc ≥ script.length
  · rw [if_pos hend, List.drop_eq_nil_of_le hend]
    rfl
  · have hlt : pc < script.length := by omega
    rw [if_neg hend, List.getElem?_eq_getElem hlt, List.drop_eq_getElem_cons hlt, Option.bind_eq_bind, Option.bind_some]
    unfold getOp
    dsimp only
    by_cases hpush : script[pc].toNat ≤ OP_PUSHDATA4
    · rw [if_pos hpush, if_pos hpush]
      by_cases hdirect : script[pc].toNat < OP_PUSHDATA1
      · rw [if_pos hdirect, if_pos hdirect, if_pos hdirect, if_neg (Nat.not_lt_zero _), List.drop_zero]
        exact getOperand_operation h hlt
      · rw [if_neg hdirect, if_neg hdirect, if_neg hdirect]
        have hlen : (script.drop (pc + 1)).length = script.length - (pc + 1) := List.length_drop
        have hbehind : ∀ k, (script.drop (pc + 1)).drop k = script.drop (pc + 1 + k) := fun k => List.drop_drop
        by_cases hone : script[pc].toNat = OP_PUSHDATA1
        · rw [if_pos hone, if_pos hone, hlen]
          split
          · rfl
          · have hlt' : pc + 1 < script.length := by omega
            have hsize : leNat ((script.drop (pc + 1)).take 1) = script[pc + 1].toNat := by
              rw [List.drop_eq_getElem_cons hlt', List.take_succ_cons, List.take_zero]
              exact Nat.add_zero _
            rw [List.getElem?_eq_getElem hlt', Option.bind_some, getOperand_operation h hlt', hsize, hbehind]
        · rw [if_neg hone, if_neg hone]
          by_cases htwo : script[pc].toNat = OP_PUSHDATA2
          · rw [if_pos htwo, if_pos htwo, hlen]
            split
            · rfl
            · rw [readBytes_isSome (by omega), Option.bind_eq_bind, Option.bind_some, getOperand_operation h (by omega),
                hbehind]
          · rw [if_neg htwo, if_neg htwo, hlen]
            split
            · rfl
            · rw [readBytes_isSome (by omega), Option.bind_eq_bind, Option.bind_some, getOperand_operation h (by omega),
                hbehind]
    · rw [if_neg hpush, if_neg hpush]
      rfl

/-- A push of two bytes that is cut short. -/
theorem getOp2_operation_sample : (getOp2 [2, 7] 0).map (OpRead.operation [2, 7]) = some (getOp [2, 7]) :=
  getOp2_operation (by decide) 0

/-! ## What was put together is read back -/

theorem assemble_eq (items : List Item) : assemble items = items.flatMap Item.bytes := by
  have hfold : ∀ pre : CScript,
      items.foldl (fun script item => script ++ item.bytes) pre = pre ++ items.flatMap Item.bytes := by
    induction items with
    | nil => simp
    | cons item items ih =>
      intro pre
      rw [List.foldl_cons, ih, List.flatMap_cons, List.append_assoc]
  exact hfold []

theorem assemble_cons (item : Item) (items : List Item) : assemble (item :: items) = item.bytes ++ assemble items := by
  rw [assemble_eq, assemble_eq, List.flatMap_cons]

/-- What comes from a place in a script. -/
theorem getElem?_behind (pre : List UInt8) (b : UInt8) (rest : List UInt8) :
    (pre ++ b :: rest)[pre.length]? = some b := by
  rw [List.getElem?_append_right (Nat.le_refl _), Nat.sub_self]
  rfl

theorem readBytes_behind (pre bytes rest : List UInt8) :
    readBytes (pre ++ (bytes ++ rest)) pre.length bytes.length = some bytes := by
  rw [readBytes_isSome (by simp [List.length_append]), List.drop_left, List.take_left]

/-- The data are read, or the bytes left are too many. -/
theorem getOperand_behind (pre b rest : List UInt8) (opcode : Nat) :
    getOperand (pre ++ (b ++ rest)) pre.length opcode b.length =
      some (if (b.length + rest.length) % 2 ^ 32 < b.length then .fails pre.length
        else ⟨true, pre.length + b.length, opcode, b⟩) := by
  unfold getOperand
  have hleft : (pre ++ (b ++ rest)).length - pre.length = b.length + rest.length := by
    rw [List.length_append, List.length_append]
    omega
  rw [hleft]
  split
  · rfl
  · rw [readBytes_behind]
    rfl

/-- The opcode of a script that goes on is read. -/
theorem getOp2_behind (pre rest : List UInt8) (b : UInt8) :
    ¬ pre.length ≥ (pre ++ b :: rest).length ∧ (pre ++ b :: rest)[pre.length]? = some b :=
  ⟨by simp, getElem?_behind pre b rest⟩

/-- The size of a push is read, where it is in bytes of its own. -/
theorem getOp2_sized {opcode k : Nat}
    (hop : opcode = OP_PUSHDATA1 ∧ k = 1 ∨ opcode = OP_PUSHDATA2 ∧ k = 2 ∨ opcode = OP_PUSHDATA4 ∧ k = 4)
    (pre : List UInt8) {b : List UInt8} (rest : List UInt8) (h : b.length < 256 ^ k) :
    getOp2 (pre ++ (UInt8.ofNat opcode :: (leBytes k b.length ++ (b ++ rest)))) pre.length =
      getOperand (pre ++ (UInt8.ofNat opcode :: (leBytes k b.length ++ (b ++ rest)))) (pre.length + (k + 1)) opcode
        b.length := by
  have hsize : leNat (leBytes k b.length) = b.length := by rw [leNat_leBytes, Nat.mod_eq_of_lt h]
  have hread := readBytes_behind (pre ++ [UInt8.ofNat opcode]) (leBytes k b.length) (b ++ rest)
  rw [List.append_assoc, List.singleton_append, List.length_append, List.length_singleton, length_leBytes] at hread
  have hleft : ¬ (pre ++ (UInt8.ofNat opcode :: (leBytes k b.length ++ (b ++ rest)))).length - (pre.length + 1) < k := by
    simp only [List.length_append, List.length_cons, length_leBytes]
    omega
  obtain ⟨hend, hbyte⟩ := getOp2_behind pre (leBytes k b.length ++ (b ++ rest)) (UInt8.ofNat opcode)
  unfold getOp2
  rw [if_neg hend, hbyte, Option.bind_eq_bind, Option.bind_some]
  dsimp only
  rcases hop with ⟨rfl, rfl⟩ | ⟨rfl, rfl⟩ | ⟨rfl, rfl⟩
  · have hone := getElem?_behind (pre ++ [UInt8.ofNat OP_PUSHDATA1]) (UInt8.ofNat (b.length % 256)) (b ++ rest)
    rw [List.append_assoc, List.singleton_append, List.length_append, List.length_singleton] at hone
    have hnat : (UInt8.ofNat (b.length % 256)).toNat = b.length := by simp; omega
    rw [show (UInt8.ofNat OP_PUSHDATA1).toNat = OP_PUSHDATA1 from rfl, if_pos (by decide), if_neg (by decide), if_pos rfl,
      if_neg hleft, show leBytes 1 b.length = [UInt8.ofNat (b.length % 256)] from rfl, List.singleton_append, hone,
      Option.bind_some, hnat]
  · rw [show (UInt8.ofNat OP_PUSHDATA2).toNat = OP_PUSHDATA2 from rfl, if_pos (by decide), if_neg (by decide),
      if_neg (by decide), if_pos rfl, if_neg hleft, hread, Option.bind_eq_bind, Option.bind_some,
      hsize]
  · rw [show (UInt8.ofNat OP_PUSHDATA4).toNat = OP_PUSHDATA4 from rfl, if_pos (by decide), if_neg (by decide),
      if_neg (by decide), if_neg (by decide), if_neg hleft, hread, Option.bind_eq_bind, Option.bind_some,
      hsize]

/-- A push with the opcode that `operator<<` takes is refused only where it is a
small byte. -/
theorem refusedPush_eq {opcode : Nat} {b : List UInt8} (hdirect : opcode < OP_PUSHDATA1 → opcode = b.length)
    (hlong : OP_PUSHDATA1 ≤ opcode → OP_PUSHDATA1 ≤ b.length) (htwo : opcode = OP_PUSHDATA2 → 0xff < b.length)
    (hfour : opcode = OP_PUSHDATA4 → 0xffff < b.length) : refusedPush opcode b = (Item.data b).small := by
  refine decide_eq_decide.mpr ⟨fun h => ?_, fun h => ?_⟩
  · rcases h with h | h | h | h
    · exact h.2.2
    · have := hlong (by omega)
      omega
    · have := htwo h.1
      omega
    · have := hfour h.1
      omega
  · have hlt : opcode < OP_PUSHDATA1 := by
      by_contra hge
      have hle := hlong (by omega)
      simp only [OP_PUSHDATA1] at hle
      omega
    have := hdirect hlt
    exact .inl ⟨hlt, by omega, h⟩

/-- A push is read up to its data; it is refused where it is a small byte. -/
theorem getOp2_push (pre rest : List UInt8) {b : List UInt8} (h : b.length < 2 ^ 32) :
    ∃ head opcode, push b = head ++ b ∧ opcode ≤ OP_PUSHDATA4 ∧ refusedPush opcode b = (Item.data b).small ∧
      getOp2 (pre ++ (push b ++ rest)) pre.length =
        getOperand (pre ++ (push b ++ rest)) (pre.length + head.length) opcode b.length := by
  unfold push
  split_ifs with hdirect hone htwo
  · have hlt : b.length < 76 := hdirect
    have hbyte : (UInt8.ofNat b.length).toNat = b.length := by simp; omega
    obtain ⟨hend, hread⟩ := getOp2_behind pre (b ++ rest) (UInt8.ofNat b.length)
    refine ⟨[UInt8.ofNat b.length], b.length, rfl, by show b.length ≤ 78; omega, ?_, ?_⟩
    · exact refusedPush_eq (fun _ => rfl) (fun h => h) (fun h => absurd hdirect (by rw [h]; decide))
        fun h => absurd hdirect (by rw [h]; decide)
    · rw [List.cons_append, getOp2, if_neg hend, hread, Option.bind_eq_bind, Option.bind_some]
      dsimp only
      rw [hbyte, if_pos (by show b.length ≤ 78; omega), if_pos hdirect]
      rfl
  · refine ⟨UInt8.ofNat OP_PUSHDATA1 :: leBytes 1 b.length, OP_PUSHDATA1, rfl, by decide, ?_, ?_⟩
    · exact refusedPush_eq (fun h => absurd h (by decide)) (fun _ => by omega) (fun h => absurd h (by decide))
        (fun h => absurd h (by decide))
    · rw [List.cons_append, List.cons_append, List.append_assoc, getOp2_sized (.inl ⟨rfl, rfl⟩) pre rest (by omega),
        List.length_cons, length_leBytes]
  · refine ⟨UInt8.ofNat OP_PUSHDATA2 :: leBytes 2 b.length, OP_PUSHDATA2, rfl, by decide, ?_, ?_⟩
    · exact refusedPush_eq (fun h => absurd h (by decide)) (fun _ => Nat.not_lt.mp hdirect) (fun _ => by omega)
        (fun h => absurd h (by decide))
    · rw [List.cons_append, List.cons_append, List.append_assoc,
        getOp2_sized (.inr (.inl ⟨rfl, rfl⟩)) pre rest (by omega), List.length_cons, length_leBytes]
  · refine ⟨UInt8.ofNat OP_PUSHDATA4 :: leBytes 4 b.length, OP_PUSHDATA4, rfl, by decide, ?_, ?_⟩
    · exact refusedPush_eq (fun h => absurd h (by decide)) (fun _ => Nat.not_lt.mp hdirect)
        (fun h => absurd h (by decide)) (fun _ => by omega)
    · rw [List.cons_append, List.cons_append, List.append_assoc,
        getOp2_sized (.inr (.inr ⟨rfl, rfl⟩)) pre rest (by omega), List.length_cons, length_leBytes]

/-- The number of bytes from the data of a push to the end of the script does
not get smaller than the push as an `unsigned int`. -/
def Item.Fits (behind : CScript) : Item → Prop
  | .opcode _ => True
  | .data b => b.length + behind.length % 2 ^ 32 < 2 ^ 32

/-- **An item is read back** where it fits, and not refused unless it is a small
byte. Where it does not fit, `GetOp` fails. -/
theorem getOp2_item (pre behind : CScript) {item : Item} (hvalid : item.Valid) :
    ∃ r, getOp2 (pre ++ (item.bytes ++ behind)) pre.length = some r ∧
      (item.Fits behind → r.fRet = true ∧ r.pc = (pre ++ item.bytes).length ∧ r.item = item ∧
        (if r.opcodeRet > OP_16 then false else refusedPush r.opcodeRet r.vchRet) = item.small) ∧
      (¬ item.Fits behind → r.fRet = false) := by
  cases item with
  | opcode n =>
    obtain ⟨hpush, hbyte⟩ : OP_PUSHDATA4 < n ∧ n ≤ 0xff := hvalid
    have hnat : (UInt8.ofNat n).toNat = n := by simp; omega
    obtain ⟨hend, hread⟩ := getOp2_behind pre behind (UInt8.ofNat n)
    refine ⟨⟨true, pre.length + 1, n, []⟩, ?_, fun _ => ⟨rfl, by simp [Item.bytes], ?_, ?_⟩, fun h => absurd trivial h⟩
    · rw [Item.bytes, List.singleton_append, getOp2, if_neg hend, hread, Option.bind_eq_bind, Option.bind_some]
      dsimp only
      rw [hnat, if_neg (by omega)]
    · exact if_neg (show ¬ n ≤ OP_PUSHDATA4 by omega)
    · show (if n > OP_16 then false else refusedPush n []) = false
      have hpushes : OP_PUSHDATA1 < OP_PUSHDATA4 ∧ OP_PUSHDATA2 < OP_PUSHDATA4 := by decide
      split
      · rfl
      · exact decide_eq_false (by omega)
  | data b =>
    have hlen : b.length < 2 ^ 32 := hvalid
    obtain ⟨head, opcode, hpush, hop, hrefused, hread⟩ := getOp2_push pre behind hlen
    have hdata := getOperand_behind (pre ++ head) b behind opcode
    rw [List.append_assoc, List.length_append, ← List.append_assoc head, ← hpush] at hdata
    have hlow : ¬ opcode > OP_16 := by
      have : OP_PUSHDATA4 ≤ OP_16 := by decide
      omega
    rw [Item.bytes, hread, hdata]
    refine ⟨_, rfl, fun hfits => ?_, fun hfits => ?_⟩
    · have hfits : b.length + behind.length % 2 ^ 32 < 2 ^ 32 := hfits
      rw [if_neg (by omega)]
      refine ⟨rfl, ?_, if_pos hop, ?_⟩
      · rw [hpush, List.length_append, List.length_append]
        exact Nat.add_assoc _ _ _
      · rw [if_neg hlow, hrefused]
    · have hfits : ¬ b.length + behind.length % 2 ^ 32 < 2 ^ 32 := hfits
      rw [if_pos (by omega)]
      rfl

/-- Every item of a script fits. -/
def Fits : List Item → Prop
  | [] => True
  | item :: items => item.Fits (assemble items) ∧ Fits items

theorem getOp2_end (script : CScript) : getOp2 script script.length = some (.fails script.length) :=
  if_pos (Nat.le_refl _)

/-- A script whose items fit is read to its end. -/
theorem readLoop_fits {items : List Item} (hvalid : ∀ item ∈ items, item.Valid) (hfits : Fits items) {fuel : Nat}
    (hfuel : items.length < fuel) (pre : CScript) :
    readLoop (pre ++ assemble items) fuel pre.length = some (items, (pre ++ assemble items).length) := by
  induction items generalizing fuel pre with
  | nil =>
    obtain ⟨fuel, rfl⟩ := Nat.exists_eq_add_of_lt hfuel
    rw [show assemble [] = [] from rfl, List.append_nil, List.length_nil, readLoop, getOp2_end]
    rfl
  | cons item items ih =>
    obtain ⟨fuel, rfl⟩ : ∃ n, fuel = n + 1 := ⟨fuel - 1, by omega⟩
    obtain ⟨r, hr, hread, -⟩ := getOp2_item pre (assemble items) (hvalid item List.mem_cons_self)
    obtain ⟨hret, hpc, hitem, -⟩ := hread hfits.1
    have hrest := ih (fun i hi => hvalid i (List.mem_cons_of_mem _ hi)) hfits.2 (Nat.lt_of_succ_lt_succ hfuel)
      (pre ++ item.bytes)
    rw [List.append_assoc] at hrest
    rw [assemble_cons, readLoop, hr, Option.bind_eq_bind, Option.bind_some, if_pos hret, hpc, hrest, hitem]
    rfl

/-- Where an item does not fit, less is read. -/
theorem readLoop_not_fits {items : List Item} (hvalid : ∀ item ∈ items, item.Valid) (hfits : ¬ Fits items) {fuel : Nat}
    (pre : CScript) {read : List Item} {pc : Nat}
    (hread : readLoop (pre ++ assemble items) fuel pre.length = some (read, pc)) : read.length < items.length := by
  induction items generalizing fuel pre read pc with
  | nil => exact absurd trivial hfits
  | cons item items ih =>
    cases fuel with
    | zero => cases hread
    | succ fuel =>
      obtain ⟨r, hr, hok, hfail⟩ := getOp2_item pre (assemble items) (hvalid item List.mem_cons_self)
      rw [assemble_cons, readLoop, hr, Option.bind_eq_bind, Option.bind_some] at hread
      by_cases hitem : item.Fits (assemble items)
      · obtain ⟨hret, hpc, -, -⟩ := hok hitem
        rw [if_pos hret, hpc, ← List.append_assoc] at hread
        obtain ⟨⟨read', pc'⟩, hrest, heq⟩ := Option.bind_eq_some_iff.mp hread
        have hlt := ih (fun i hi => hvalid i (List.mem_cons_of_mem _ hi)) (fun h => hfits ⟨hitem, h⟩) (pre ++ item.bytes)
          hrest
        obtain ⟨rfl, -⟩ := Prod.mk.inj (Option.some.inj heq)
        exact Nat.succ_lt_succ hlt
      · rw [hfail hitem] at hread
        obtain ⟨rfl, -⟩ := Prod.mk.inj (Option.some.inj hread)
        exact Nat.succ_pos _

/-- A script whose items fit has canonical pushes unless one is a small byte. -/
theorem canonicalLoop_fits {items : List Item} (hvalid : ∀ item ∈ items, item.Valid) (hfits : Fits items) {fuel : Nat}
    (hfuel : items.length < fuel) (pre : CScript) :
    canonicalLoop (pre ++ assemble items) fuel pre.length = some (!items.any Item.small) := by
  induction items generalizing fuel pre with
  | nil =>
    obtain ⟨fuel, rfl⟩ := Nat.exists_eq_add_of_lt hfuel
    rw [show assemble [] = [] from rfl, List.append_nil]
    exact if_neg (Nat.lt_irrefl _)
  | cons item items ih =>
    obtain ⟨fuel, rfl⟩ : ∃ n, fuel = n + 1 := ⟨fuel - 1, by omega⟩
    obtain ⟨r, hr, hread, -⟩ := getOp2_item pre (assemble items) (hvalid item List.mem_cons_self)
    obtain ⟨hret, hpc, -, hsmall⟩ := hread hfits.1
    have hrest := ih (fun i hi => hvalid i (List.mem_cons_of_mem _ hi)) hfits.2 (Nat.lt_of_succ_lt_succ hfuel)
      (pre ++ item.bytes)
    rw [List.append_assoc, ← hpc] at hrest
    obtain ⟨r', hr', hin⟩ := getOp2_inside (pre ++ (item.bytes ++ assemble items)) pre.length
    obtain rfl := Option.some.inj (hr.symm.trans hr')
    have hlt : pre.length < (pre ++ (item.bytes ++ assemble items)).length := by
      have := hin.moves hret
      have := hin.within (by simp)
      omega
    rw [assemble_cons, canonicalLoop, if_pos hlt, hr, Option.bind_eq_bind, Option.bind_some, if_neg (by simp [hret]),
      hrest, List.any_cons]
    by_cases hhigh : r.opcodeRet > OP_16
    · rw [if_pos hhigh] at hsmall
      rw [if_pos hhigh, ← hsmall, Bool.false_or]
    · rw [if_neg hhigh] at hsmall
      rw [if_neg hhigh, hsmall]
      cases item.small <;> rfl

/-! ## Assembly and parsing -/

/-- What is put together is read back to the end of the script, and has canonical
pushes unless one of them is a small byte. -/
structure ReadsBack (items : List Item) : Prop where
  read : readAll (assemble items) = some (items, (assemble items).length)
  canonical : hasCanonicalPushes (assemble items) = some (!items.any Item.small)

/-- **The reader is safe**: each operation is read inside the script and moves
the iterator, and the loops over `GetOp` end inside the script. -/
structure SafelyRead (script : CScript) : Prop where
  step : ∀ pc, ∃ r, getOp2 script pc = some r ∧ Stays script pc r
  loop : ∃ items pc, readAll script = some (items, pc) ∧ pc ≤ script.length
  pushes : ∃ ok, hasCanonicalPushes script = some ok

theorem safelyRead (script : CScript) : SafelyRead script :=
  ⟨getOp2_inside script, readLoop_ends (Nat.zero_le _) (Nat.lt_succ_self _),
    canonicalLoop_ends (Nat.zero_le _) (Nat.lt_succ_self _)⟩

theorem length_le_assemble : (items : List Item) → items.length ≤ (assemble items).length
  | [] => Nat.le_refl _
  | item :: items => by
    have hrest := length_le_assemble items
    have hbytes : 0 < item.bytes.length := by
      cases item with
      | opcode n => exact Nat.one_pos
      | data b =>
        rw [Item.bytes, push]
        split_ifs <;> simp
    rw [assemble_cons, List.length_append, List.length_cons]
    omega

theorem readsBack_of_fits {items : List Item} (hvalid : ∀ item ∈ items, item.Valid) (hfits : Fits items) :
    ReadsBack items :=
  ⟨readLoop_fits hvalid hfits (Nat.lt_succ_of_le (length_le_assemble items)) [],
    canonicalLoop_fits hvalid hfits (Nat.lt_succ_of_le (length_le_assemble items)) []⟩

theorem not_readsBack {items : List Item} (hvalid : ∀ item ∈ items, item.Valid) (hfits : ¬ Fits items) :
    ¬ ReadsBack items :=
  fun h => absurd (readLoop_not_fits hvalid hfits [] h.read) (Nat.lt_irrefl _)

/-- **Assembly and parsing are inverse** exactly where the items fit; and every
script is safely read. -/
theorem readsBack_iff {items : List Item} (hvalid : ∀ item ∈ items, item.Valid) :
    (ReadsBack items ↔ Fits items) ∧ ∀ script, SafelyRead script :=
  ⟨⟨fun h => by_contra fun hfits => not_readsBack hvalid hfits h, readsBack_of_fits hvalid⟩, safelyRead⟩

/-! ## A push and more than four gigabytes behind it -/

namespace Sample

/-- `OP_DUP`, a push of two bytes and `OP_EQUAL`. -/
def shortItems : List Item := [.opcode 0x76, .data [1, 2], .opcode 0x87]

/-- A push of one byte, and `OP_NOP` after `OP_NOP`. -/
def wideItems : List Item := .data [0x11] :: List.replicate (2 ^ 32 - 1) (.opcode 0x61)

end Sample

theorem readsBack_iff_sample :
    (ReadsBack Sample.shortItems ↔ Fits Sample.shortItems) ∧ ∀ script, SafelyRead script :=
  readsBack_iff fun item hitem => by
    simp only [Sample.shortItems, List.mem_cons, List.not_mem_nil, or_false] at hitem
    rcases hitem with rfl | rfl | rfl
    · exact (by decide : 0x4e < 0x76 ∧ 0x76 ≤ 0xff)
    · exact (by decide : 2 < 2 ^ 32)
    · exact (by decide : 0x4e < 0x87 ∧ 0x87 ≤ 0xff)

theorem valid_wideItems : ∀ item ∈ Sample.wideItems, item.Valid := by
  intro item hitem
  rcases List.mem_cons.mp hitem with rfl | hitem
  · exact (by decide : 1 < 2 ^ 32)
  · rw [List.eq_of_mem_replicate hitem]
    exact (by decide : 0x4e < 0x61 ∧ 0x61 ≤ 0xff)

theorem length_assemble_replicate (n opcode : Nat) : (assemble (List.replicate n (.opcode opcode))).length = n := by
  induction n with
  | zero => rfl
  | succ n ih =>
    rw [List.replicate_succ, assemble_cons, List.length_append, ih]
    exact Nat.add_comm 1 n

theorem not_fits_wide {n : Nat} (hn : n = 2 ^ 32 - 1) : ¬ Fits (.data [0x11] :: List.replicate n (.opcode 0x61)) := by
  intro hfits
  have hfirst : 1 + (assemble (List.replicate n (.opcode 0x61))).length % 2 ^ 32 < 2 ^ 32 := hfits.1
  rw [length_assemble_replicate] at hfirst
  omega

theorem not_readsBack_wide : (∀ item ∈ Sample.wideItems, item.Valid) ∧ ¬ ReadsBack Sample.wideItems :=
  ⟨valid_wideItems, not_readsBack valid_wideItems (not_fits_wide rfl)⟩

end Pinkcoin.CScript
