/-
Blocks are loaded from a file that others wrote: the start bytes of a record
are looked for in windows of 64 KiB, and what is read behind them goes to
`ProcessBlock`.
-/
import Pinkcoin.BlockFile

namespace Pinkcoin

open CScript (leBytes leNat length_leBytes)
open CDataStream (stream reads_read)
open Codec

/-- What a record starts with; `-testnet` has bytes of its own. -/
def pchMessageStart (fTestNet : Bool) : Bytes 4 :=
  if fTestNet then ⟨[0x02, 0x04, 0x05, 0x0d], rfl⟩ else ⟨[0xf2, 0xf4, 0xf9, 0xfb], rfl⟩

namespace ExternalFile

variable (start : Bytes 4) (file : List UInt8)

/-! ## The scan -/

/-- `(unsigned int)-1`. -/
def noPos : Nat := 2 ^ 32 - 1

/-- Where a pass of the inner loop leaves `nPos`, and whether it is the last one. -/
inductive Scan where
  | again (nPos : Nat)
  | stop (nPos : Nat)

/-- A pass of the inner loop: a window is read, and the first start byte in it
is looked at. -/
def scanWindow (nPos : Nat) : Scan :=
  let pchData := (file.drop nPos).take 65536
  let nRead := pchData.length
  if nRead ≤ 8 then .stop noPos
  else match (pchData.take (nRead + 1 - 4)).findIdx? (· = start.head) with
    | some nFind =>
      if (pchData.drop nFind).take 4 = start.toList then .stop ((nPos + (nFind + 4)) % 2 ^ 32)
      else .again ((nPos + (nFind + 1)) % 2 ^ 32)
    | none => .again ((nPos + (65536 - 4 + 1)) % 2 ^ 32)

def scanLoop : Nat → Nat → Option Nat
  | 0, _ => none
  | fuel + 1, nPos =>
    match scanWindow start file nPos with
    | .again nPos => scanLoop fuel nPos
    | .stop nPos => some nPos

/-! ## The load -/

-- what `ProcessBlock` returns, of the blocks it had before and the block
variable (processBlock : List CBlock → CBlock → Bool)

/-- The position, and what became of the file: the blocks that `ProcessBlock`
got, each with the position of its record. -/
structure Load where
  nPos : Nat
  nLoaded : Nat
  handed : List (Nat × CBlock)
  deriving DecidableEq

/-- What a record leaves; an exception ends the load. -/
inductive Pass where
  | more (l : Load)
  | ended (l : Load)

/-- Behind the start bytes: the size, the block, `ProcessBlock`. -/
def Load.record (l : Load) : Pass :=
  match readUInt 4 ⟨file, l.nPos⟩ with
  | .error _ _ => .ended l
  | .ok nSize s =>
    if 0 < nSize ∧ nSize ≤ MAX_BLOCK_SIZE then
      match CBlock.unserialize s with
      | .error _ _ => .ended l
      | .ok block _ =>
        let handed := l.handed ++ [(l.nPos - 4, block)]
        if processBlock (l.handed.map Prod.snd) block then
          .more ⟨(l.nPos + (4 + nSize)) % 2 ^ 32, l.nLoaded + 1, handed⟩
        else .more { l with handed := handed }
    else .more l

def loadLoop : Nat → Load → Option Load
  | 0, _ => none
  | fuel + 1, l =>
    if l.nPos = noPos then some l
    else match scanLoop start file fuel l.nPos with
      | none => none
      | some nPos =>
        if nPos = noPos then some { l with nPos := nPos }
        else match Load.record file processBlock { l with nPos := nPos } with
          | .more l => loadLoop fuel l
          | .ended l => some l

/-- `LoadExternalBlockFile`: whether a block was loaded, and the blocks that
were handed on. `none` where the loops take more passes than there is fuel. -/
def loadExternalBlockFile (fuel : Nat) : Option (Bool × List (Nat × CBlock)) :=
  (loadLoop start file processBlock fuel ⟨0, 0, []⟩).map fun l => (decide (0 < l.nLoaded), l.handed)

/-! ## Records -/

/-- The start bytes lie at `q`. -/
def Marker (q : Nat) : Prop := (file.drop q).take 4 = start.toList

instance (q : Nat) : Decidable (Marker start file q) := inferInstanceAs (Decidable (_ = _))

/-- A record by its start bytes and its size, whatever its contents are. -/
structure Claimed (q nSize : Nat) : Prop where
  bytes : ∃ rest, file.drop q = start.toList ++ (leBytes 4 nSize ++ rest)
  pos : 0 < nSize
  le : nSize ≤ MAX_BLOCK_SIZE

/-- A block can be read off the contents of the record at `q`. -/
def Decodable (q : Nat) : Prop :=
  ∃ block more, CBlock.InRange MAX_SIZE block ∧ file.drop (q + 8) = block.serialize ++ more

/-- The record of a block. -/
structure Record (p nSize : Nat) (block : CBlock) : Prop where
  inRange : block.InRange SIZE_MAX
  size : block.serialize.length = nSize
  le : nSize ≤ MAX_BLOCK_SIZE
  bytes : ∃ rest, file.drop p = start.toList ++ (leBytes 4 nSize ++ (block.serialize ++ rest))

/-- No bytes of another record overlap those of the record at `p`. -/
def Alone (p nSize : Nat) : Prop :=
  ∀ q nSize', Claimed start file q nSize' → q ≠ p → q + 8 + nSize' ≤ p ∨ p + 8 + nSize ≤ q

/-- Each of the blocks that stand alone is among those that were handed on. -/
def AllHanded (handed : List (Nat × CBlock)) : Prop :=
  ∀ p nSize block, Record start file p nSize block → Alone start file p nSize → (p, block) ∈ handed

/-- **What a load is for**: it ends, and every record of a block that stands
alone is handed to `ProcessBlock`, whatever that returns. -/
def Loads : Prop :=
  ∀ processBlock : List CBlock → CBlock → Bool, ∃ fuel fLoaded handed,
    loadExternalBlockFile start file processBlock fuel = some (fLoaded, handed) ∧ AllHanded start file handed

/-- No record whose contents do not decode lies before one that stands alone. -/
def DecodesBefore : Prop :=
  ∀ q nSize, Claimed start file q nSize → ¬ Decodable file q →
    ∀ p nSize' block, Record start file p nSize' block → Alone start file p nSize' → p ≤ q

variable {start : Bytes 4} {file : List UInt8} {q p nPos : Nat}

theorem Marker.le (h : Marker start file q) : q + 4 ≤ file.length := by
  have hlen := congrArg List.length h
  simp only [List.length_take, List.length_drop, List.Vector.toList_length] at hlen
  omega

theorem Marker.get (h : Marker start file q) {i : Nat} (hi : i < 4) : file[q + i]? = start.toList[i]? := by
  rw [← h, List.getElem?_take_of_lt hi, List.getElem?_drop]

theorem Marker.head (h : Marker start file q) : file[q]? = some start.head := by
  have hget := h.get (i := 0) (by omega)
  rw [Nat.add_zero] at hget
  rw [hget, ← List.Vector.cons_head_tail start]
  rfl

/-- The first of the start bytes is none of the others: markers do not overlap. -/
theorem Marker.apart {fTestNet : Bool} (hq : Marker (pchMessageStart fTestNet) file q)
    (hp : Marker (pchMessageStart fTestNet) file p) (hlt : q < p) : q + 4 ≤ p := by
  by_contra hnot
  have hget := hq.get (i := p - q) (by omega)
  rw [show q + (p - q) = p by omega, hp.head] at hget
  have hdiff : ∀ i : Fin 4, i ≠ 0 →
      some (pchMessageStart fTestNet).head ≠ (pchMessageStart fTestNet).toList[i.val]? := by
    cases fTestNet <;> decide
  refine hdiff ⟨p - q, by omega⟩ ?_ hget
  simp only [ne_eq, Fin.ext_iff]
  show ¬ p - q = 0
  omega

theorem Claimed.marker {nSize : Nat} (h : Claimed start file q nSize) : Marker start file q := by
  obtain ⟨rest, hrest⟩ := h.bytes
  rw [Marker, hrest, List.take_left' (by simp)]

/-! ## The scan finds the first marker -/

/-- What the scan from `nPos` on ends with. -/
inductive Scanned (start : Bytes 4) (file : List UInt8) (nPos : Nat) : Nat → Prop where
  | none (hnone : ∀ q, nPos ≤ q → Marker start file q → file.length ≤ q + 8) : Scanned start file nPos noPos
  | found (q : Nat) (hle : nPos ≤ q) (hmarker : Marker start file q)
      (hfirst : ∀ q', nPos ≤ q' → Marker start file q' → q ≤ q') : Scanned start file nPos (q + 4)

/-- A pass either ends the scan or skips no marker. -/
inductive WindowScanned (start : Bytes 4) (file : List UInt8) (nPos : Nat) : Scan → Prop where
  | stop {r : Nat} (h : Scanned start file nPos r) : WindowScanned start file nPos (.stop r)
  | again {nPos' : Nat} (hlt : nPos < nPos') (hroom : nPos + 8 < file.length)
      (hskip : ∀ q, nPos ≤ q → Marker start file q → nPos' ≤ q) : WindowScanned start file nPos (.again nPos')

theorem windowScanned (start : Bytes 4) (hfile : file.length < CDataStream.maxLength) (nPos : Nat) :
    WindowScanned start file nPos (scanWindow start file nPos) := by
  have hmax : CDataStream.maxLength + 5000000 = 2 ^ 32 := by decide
  have hread : ((file.drop nPos).take 65536).length = min 65536 (file.length - nPos) := by simp
  have hwindow : ∀ i, i < 65536 → ((file.drop nPos).take 65536)[i]? = file[nPos + i]? := by
    intro i hi
    rw [List.getElem?_take_of_lt hi, List.getElem?_drop]
  rw [scanWindow]
  simp only [hread]
  split
  next hend =>
    refine .stop (.none fun q hq hmarker => ?_)
    have hle := hmarker.le
    omega
  next hroom =>
    have hroom' : nPos + 8 < file.length := by omega
    split
    next k hfind =>
      obtain ⟨hk, hbyte, hbefore⟩ := List.findIdx?_eq_some_iff_getElem.mp hfind
      simp only [List.length_take, hread] at hk
      -- a marker in the window is at the byte that was found or behind it
      have hfirst : ∀ q, nPos ≤ q → Marker start file q → nPos + k ≤ q := by
        intro q hq hmarker
        by_contra hlt
        refine hbefore (q - nPos) (by omega) ?_
        have hget := hmarker.head
        rw [show q = nPos + (q - nPos) by omega, ← hwindow _ (by omega)] at hget
        obtain ⟨hbound, hget⟩ := List.getElem?_eq_some_iff.mp hget
        simp [← hget]
      split
      next hmatch =>
        have hmarker : Marker start file (nPos + k) := by
          rw [Marker, ← hmatch, List.drop_take, List.take_take, List.drop_drop]
          congr 1
          omega
        rw [Nat.mod_eq_of_lt (by omega), ← Nat.add_assoc]
        exact .stop (.found _ (by omega) hmarker hfirst)
      next hmatch =>
        rw [Nat.mod_eq_of_lt (by omega)]
        refine .again (by omega) hroom' fun q hq hmarker => ?_
        have hle := hfirst q hq hmarker
        rcases Nat.lt_or_ge (nPos + k) q with hlt | hge
        · omega
        · obtain rfl : q = nPos + k := by omega
          refine absurd ?_ hmatch
          rw [← hmarker, List.drop_take, List.take_take, List.drop_drop]
          congr 1
          omega
    next hfind =>
      rw [Nat.mod_eq_of_lt (by omega)]
      refine .again (by omega) hroom' fun q hq hmarker => ?_
      by_contra hlt
      have hle := hmarker.le
      have hget := hmarker.head
      rw [show q = nPos + (q - nPos) by omega, ← hwindow _ (by omega), ← List.getElem?_take_of_lt (i := q - nPos)
        (j := min 65536 (file.length - nPos) + 1 - 4) (by omega)] at hget
      have hmem := List.mem_of_getElem? hget
      have hno := List.findIdx?_eq_none_iff.mp hfind _ hmem
      simp at hno

/-- The scan ends with the first marker, and it does end. -/
theorem scanned_of_scanLoop (hfile : file.length < CDataStream.maxLength) {fuel nPos r : Nat}
    (h : scanLoop start file fuel nPos = some r) : Scanned start file nPos r := by
  induction fuel generalizing nPos with
  | zero => exact nomatch h
  | succ fuel ih =>
    rw [scanLoop] at h
    have hwindow := windowScanned start hfile nPos
    revert h hwindow
    cases scanWindow start file nPos with
    | stop r' =>
      intro h hwindow
      obtain rfl := Option.some.inj h
      cases hwindow with
      | stop hscanned => exact hscanned
    | again nPos' =>
      intro h hwindow
      cases hwindow with
      | again hlt hroom hskip =>
        cases ih h with
        | none hnone => exact .none fun q hq hmarker => hnone q (hskip q hq hmarker) hmarker
        | found q hle hmarker hfirst =>
          exact .found q (by omega) hmarker fun q' hq' hmarker' => hfirst q' (hskip q' hq' hmarker') hmarker'

theorem exists_scanLoop (start : Bytes 4) (hfile : file.length < CDataStream.maxLength) (fuel nPos : Nat)
    (hfuel : file.length < nPos + fuel) (hpos : 0 < fuel) : ∃ r, scanLoop start file fuel nPos = some r := by
  induction fuel generalizing nPos with
  | zero => exact absurd hpos (Nat.lt_irrefl 0)
  | succ fuel ih =>
    rw [scanLoop]
    have hwindow := windowScanned start hfile nPos
    revert hwindow
    cases scanWindow start file nPos with
    | stop r => exact fun _ => ⟨r, rfl⟩
    | again nPos' =>
      intro hwindow
      cases hwindow with
      | again hlt hroom hskip => exact ih nPos' (by omega) (by omega)

/-! ## A record is read -/

variable {processBlock : List CBlock → CBlock → Bool} {nSize nLoaded : Nat} {block : CBlock}
  {handed : List (Nat × CBlock)}

theorem Claimed.unique {nSize' : Nat} (h : Claimed start file q nSize) (h' : Claimed start file q nSize') :
    nSize = nSize' := by
  obtain ⟨rest, hrest⟩ := h.bytes
  obtain ⟨rest', hrest'⟩ := h'.bytes
  have hmax : MAX_BLOCK_SIZE < 256 ^ 4 := by decide
  have heq : leBytes 4 nSize ++ rest = leBytes 4 nSize' ++ rest' := List.append_cancel_left (hrest.symm.trans hrest')
  exact (unambiguous_leBytes 4 (lt_of_le_of_lt h.le hmax) (lt_of_le_of_lt h'.le hmax) heq).1

/-- The vectors of a block are shorter than the block. -/
theorem inRange_of_size (h : block.InRange SIZE_MAX) (hsize : block.getSerializeSize ≤ MAX_BLOCK_SIZE) :
    block.InRange MAX_SIZE := by
  have hsmall : MAX_BLOCK_SIZE ≤ MAX_SIZE := by decide
  have hcount : block.vtx.length ≤ (block.vtx.map CTransaction.getSerializeSize).sum :=
    length_le_sum_map _ CTransaction.getSerializeSize_pos block.vtx
  have htxs := h.of_size hsize
  simp only [CBlock.getSerializeSize, bytesSize] at hsize
  exact ⟨h.nVersion, h.hashPrevBlock, h.hashMerkleRoot, h.nTime, h.nBits, h.nNonce, ⟨by omega, htxs⟩, by omega⟩

namespace Record

theorem inRangeMax (h : Record start file p nSize block) : block.InRange MAX_SIZE :=
  inRange_of_size h.inRange (by rw [← CBlock.length_serialize, h.size]; exact h.le)

theorem pos (h : Record start file p nSize block) : 80 < nSize := by
  rw [← h.size, CBlock.length_serialize]
  have hcount : 0 < getSizeOfCompactSize block.vtx.length := by
    rw [getSizeOfCompactSize]
    split_ifs <;> omega
  simp only [CBlock.getSerializeSize, CBlock.headerSize]
  omega

theorem claimed (h : Record start file p nSize block) : Claimed start file p nSize := by
  have hpos := h.pos
  obtain ⟨rest, hrest⟩ := h.bytes
  exact ⟨⟨_, hrest⟩, by omega, h.le⟩

theorem contents (h : Record start file p nSize block) : ∃ rest, file.drop (p + 8) = block.serialize ++ rest := by
  obtain ⟨rest, hrest⟩ := h.bytes
  refine ⟨rest, ?_⟩
  rw [← List.drop_drop, hrest, ← List.append_assoc, List.drop_left' (by simp [length_leBytes])]

theorem decodable (h : Record start file p nSize block) : Decodable file p := by
  obtain ⟨rest, hrest⟩ := h.contents
  exact ⟨block, rest, h.inRangeMax, hrest⟩

/-- The whole record lies in the file. -/
theorem room (h : Record start file p nSize block) : p + 8 + nSize ≤ file.length := by
  obtain ⟨rest, hrest⟩ := h.contents
  have hpos := h.pos
  have hlen := congrArg List.length hrest
  simp only [List.length_drop, List.length_append, h.size] at hlen
  omega

end Record

/-- Four bytes are always read as a size. -/
theorem exists_readUInt (hfile : file.length < CDataStream.maxLength) (hroom : q + 8 ≤ file.length) :
    ∃ n s, readUInt 4 ⟨file, q + 4⟩ = .ok n s := by
  obtain ⟨b, hb⟩ : ∃ b, (file.drop (q + 4)).take 4 = b := ⟨_, rfl⟩
  have hlen : b.length = 4 := by
    rw [← hb, List.length_take, List.length_drop]
    omega
  have hrest : stream.rest ⟨file, q + 4⟩ = leBytes 4 (leNat b) ++ file.drop (q + 8) := by
    have hback := leBytes_leNat b
    rw [hlen] at hback
    rw [hback, ← hb, ← List.drop_drop (i := 4) (j := q + 4), List.take_append_drop]
    rfl
  have hlt := leNat_lt b
  rw [hlen] at hlt
  have hok : stream.Ok ⟨file, q + 4⟩ := ⟨by simp only; omega, hfile⟩
  obtain ⟨s, hread, -⟩ := (reads_readUInt (k := 4) (by decide)).back hok hlt hrest
  exact ⟨_, s, hread⟩

/-- What becomes of the marker at `q`. -/
inductive Recorded (start : Bytes 4) (file : List UInt8) (processBlock : List CBlock → CBlock → Bool) (q nLoaded : Nat)
    (handed : List (Nat × CBlock)) : Pass → Prop where
  | short (hend : file.length < q + 8) :
      Recorded start file processBlock q nLoaded handed (.ended ⟨q + 4, nLoaded, handed⟩)
  | unclaimed (hnot : ∀ nSize, ¬ Claimed start file q nSize) :
      Recorded start file processBlock q nLoaded handed (.more ⟨q + 4, nLoaded, handed⟩)
  | undecodable (nSize : Nat) (hclaimed : Claimed start file q nSize) (hnot : ¬ Decodable file q) :
      Recorded start file processBlock q nLoaded handed (.ended ⟨q + 4, nLoaded, handed⟩)
  | accepted (nSize : Nat) (block : CBlock) (rest : List UInt8) (hclaimed : Claimed start file q nSize)
      (hrange : block.InRange MAX_SIZE) (hcontents : file.drop (q + 8) = block.serialize ++ rest)
      (htaken : processBlock (handed.map Prod.snd) block = true) :
      Recorded start file processBlock q nLoaded handed (.more ⟨q + 8 + nSize, nLoaded + 1, handed ++ [(q, block)]⟩)
  | rejected (nSize : Nat) (block : CBlock) (rest : List UInt8) (hclaimed : Claimed start file q nSize)
      (hrange : block.InRange MAX_SIZE) (hcontents : file.drop (q + 8) = block.serialize ++ rest) :
      Recorded start file processBlock q nLoaded handed (.more ⟨q + 4, nLoaded, handed ++ [(q, block)]⟩)

theorem recorded (processBlock : List CBlock → CBlock → Bool) (nLoaded : Nat) (handed : List (Nat × CBlock))
    (hfile : file.length < CDataStream.maxLength) (hmarker : Marker start file q) :
    Recorded start file processBlock q nLoaded handed (Load.record file processBlock ⟨q + 4, nLoaded, handed⟩) := by
  have hmax : CDataStream.maxLength + 5000000 = 2 ^ 32 := by decide
  have hsmall : MAX_BLOCK_SIZE = 1000000 := rfl
  have hok : stream.Ok ⟨file, q + 4⟩ := ⟨hmarker.le, hfile⟩
  have hle := hmarker.le
  -- what lies at the marker, by what lies behind the start bytes
  have hsplit : ∀ {x : List UInt8}, file.drop (q + 4) = x → file.drop q = start.toList ++ x := by
    rintro x rfl
    rw [← hmarker, ← List.drop_drop, List.take_append_drop]
  rw [Load.record]
  simp only
  split
  next e s hsize =>
    -- four bytes are always read
    refine .short (Nat.lt_of_not_le fun hroom => ?_)
    obtain ⟨n, s', hread⟩ := exists_readUInt hfile hroom
    rw [hread] at hsize
    exact nomatch hsize
  next n s hsize =>
    obtain ⟨hlt, hok', hrest⟩ := (reads_readUInt (k := 4) (by decide)).only hok hsize
    have hbytes : file.drop q = start.toList ++ (leBytes 4 n ++ stream.rest s) := hsplit hrest
    have hbehind : stream.rest s = file.drop (q + 8) := by
      rw [← List.drop_drop, hbytes, ← List.append_assoc, List.drop_left' (by simp [length_leBytes])]
    split
    next hn =>
      have hclaimed : Claimed start file q n := ⟨⟨_, hbytes⟩, hn.1, hn.2⟩
      split
      next e s' hblock =>
        refine .undecodable n hclaimed fun ⟨block, rest, hrange, hcontents⟩ => ?_
        obtain ⟨s'', hread, -⟩ := CBlock.reads.back hok' hrange (hbehind.trans hcontents)
        rw [hread] at hblock
        exact nomatch hblock
      next block s' hblock =>
        obtain ⟨hrange, -, hcontents⟩ := CBlock.reads.only hok' hblock
        rw [hbehind] at hcontents
        split
        next htaken =>
          rw [Nat.mod_eq_of_lt (by omega), show q + 4 + (4 + n) = q + 8 + n by omega]
          exact .accepted n block _ hclaimed hrange hcontents htaken
        next => exact .rejected n block _ hclaimed hrange hcontents
    next hn =>
      refine .unclaimed fun nSize hclaimed => hn ?_
      obtain ⟨rest, hrest'⟩ := hclaimed.bytes
      rw [hbytes] at hrest'
      have hsmall' : nSize < 256 ^ 4 := lt_of_le_of_lt hclaimed.le (by decide)
      obtain ⟨rfl, -⟩ := unambiguous_leBytes 4 hlt hsmall' (List.append_cancel_left hrest')
      exact ⟨hclaimed.pos, hclaimed.le⟩

/-! ## The load -/

/-- What the loop does from `l` on: it ends with no marker ahead that matters,
or it reads what is at the next one. -/
theorem loadLoop_cases (hfile : file.length < CDataStream.maxLength) {fuel : Nat} {l l' : Load}
    (h : loadLoop start file processBlock (fuel + 1) l = some l') :
    (l'.handed = l.handed ∧ ∀ q, l.nPos ≤ q → Marker start file q → file.length ≤ q + 8) ∨
      ∃ q pass, l.nPos ≤ q ∧ Marker start file q ∧ (∀ q', l.nPos ≤ q' → Marker start file q' → q ≤ q') ∧
        Recorded start file processBlock q l.nLoaded l.handed pass ∧
        (pass = .ended l' ∨ ∃ l'', pass = .more l'' ∧ loadLoop start file processBlock fuel l'' = some l') := by
  have hmax : CDataStream.maxLength < noPos := by decide
  rw [loadLoop] at h
  split at h
  next hpos =>
    obtain rfl := Option.some.inj h
    refine .inl ⟨rfl, fun q hq hmarker => ?_⟩
    have hle := hmarker.le
    omega
  next hpos =>
    split at h
    next => exact nomatch h
    next nPos hscan =>
      cases scanned_of_scanLoop hfile hscan with
      | none hnone =>
        rw [if_pos rfl] at h
        obtain rfl := Option.some.inj h
        exact .inl ⟨rfl, hnone⟩
      | found q hle hmarker hfirst =>
        have hin := hmarker.le
        rw [if_neg (by omega)] at h
        have hrecorded := recorded processBlock l.nLoaded l.handed hfile hmarker
        revert h hrecorded
        cases hpass : Load.record file processBlock ⟨q + 4, l.nLoaded, l.handed⟩ with
        | more l'' => exact fun h hrecorded => .inr ⟨q, _, hle, hmarker, hfirst, hrecorded, .inr ⟨l'', rfl, h⟩⟩
        | ended l'' =>
          intro h hrecorded
          obtain rfl := Option.some.inj h
          exact .inr ⟨q, _, hle, hmarker, hfirst, hrecorded, .inl rfl⟩

/-- The load ends. -/
theorem exists_loadLoop (start : Bytes 4) (processBlock : List CBlock → CBlock → Bool)
    (hfile : file.length < CDataStream.maxLength) (fuel : Nat) (l : Load) (hfuel : file.length + 2 < l.nPos + fuel)
    (hpos : 1 < fuel) : ∃ l', loadLoop start file processBlock fuel l = some l' := by
  induction fuel generalizing l with
  | zero => exact absurd hpos (by decide)
  | succ fuel ih =>
    rw [loadLoop]
    split
    · exact ⟨l, rfl⟩
    · obtain ⟨r, hscan⟩ := exists_scanLoop start hfile fuel l.nPos (by omega) (by omega)
      rw [hscan]
      simp only
      split
      · exact ⟨_, rfl⟩
      · next hfound =>
        cases scanned_of_scanLoop hfile hscan with
        | none hnone => exact absurd rfl hfound
        | found q hle hmarker hfirst =>
          have hin := hmarker.le
          have hrecorded := recorded processBlock l.nLoaded l.handed hfile hmarker
          revert hrecorded
          cases Load.record file processBlock ⟨q + 4, l.nLoaded, l.handed⟩ with
          | ended l' => exact fun _ => ⟨l', rfl⟩
          | more l' =>
            intro hrecorded
            -- the position moved on by the start bytes at least
            have hmoved : q + 4 ≤ l'.nPos := by
              cases hrecorded with
              | unclaimed => exact le_rfl
              | accepted nSize block rest hclaimed hrange hcontents htaken => show q + 4 ≤ q + 8 + nSize; omega
              | rejected => exact le_rfl
            exact ih l' (by omega) (by omega)

/-! ## Records that stand alone -/

/-- A record that stands alone is still ahead, or its block was handed on. -/
def Kept (start : Bytes 4) (file : List UInt8) (l : Load) : Prop :=
  ∀ p nSize block, Record start file p nSize block → Alone start file p nSize → l.nPos ≤ p ∨ (p, block) ∈ l.handed

/-- The contents of a record are those of one block. -/
theorem Record.block_eq {block' : CBlock} {rest : List UInt8} (h : Record start file p nSize block)
    (hfile : file.length < CDataStream.maxLength) (hrange : block'.InRange MAX_SIZE)
    (hcontents : file.drop (p + 8) = block'.serialize ++ rest) : block' = block := by
  obtain ⟨rest', hcontents'⟩ := h.contents
  have hroom := h.room
  have hok : stream.Ok ⟨file, p + 8⟩ := ⟨by simp only; omega, hfile⟩
  obtain ⟨s, hread, -⟩ := CBlock.reads.back hok hrange hcontents
  obtain ⟨s', hread', -⟩ := CBlock.reads.back hok h.inRangeMax hcontents'
  rw [hread] at hread'
  exact (EStateM.Result.ok.inj hread').1

variable {fTestNet : Bool} {l l' : Load}

theorem Recorded.keeps (hfile : file.length < CDataStream.maxLength) (hkept : Kept (pchMessageStart fTestNet) file l)
    (hmarker : Marker (pchMessageStart fTestNet) file q)
    (hfirst : ∀ q', l.nPos ≤ q' → Marker (pchMessageStart fTestNet) file q' → q ≤ q')
    (h : Recorded (pchMessageStart fTestNet) file processBlock q l.nLoaded l.handed (.more l')) :
    Kept (pchMessageStart fTestNet) file l' := by
  intro p nSize block hrecord halone
  -- what lies behind the marker lies behind its four bytes
  have hahead : l.nPos ≤ p → p = q ∨ q + 4 ≤ p := fun hle => by
    rcases Nat.lt_or_eq_of_le (hfirst p hle hrecord.claimed.marker) with hlt | heq
    · exact .inr (hmarker.apart hrecord.claimed.marker hlt)
    · exact .inl heq.symm
  have hbefore := hkept p nSize block hrecord halone
  cases h with
  | unclaimed hnot =>
    rcases hbefore with hle | hmem
    · rcases hahead hle with rfl | hle
      · exact absurd hrecord.claimed (hnot nSize)
      · exact .inl hle
    · exact .inr hmem
  | accepted nSize' block' rest hclaimed hrange hcontents htaken =>
    rcases hbefore with hle | hmem
    · rcases hahead hle with rfl | hle
      · obtain rfl := hrecord.block_eq hfile hrange hcontents
        exact .inr (by simp)
      · -- the records do not overlap
        rcases halone q nSize' hclaimed (by omega) with hsep | hsep
        · exact .inl hsep
        · omega
    · exact .inr (by simp [hmem])
  | rejected nSize' block' rest hclaimed hrange hcontents =>
    rcases hbefore with hle | hmem
    · rcases hahead hle with rfl | hle
      · obtain rfl := hrecord.block_eq hfile hrange hcontents
        exact .inr (by simp)
      · exact .inl hle
    · exact .inr (by simp [hmem])

/-- Where a record ends the load, none that stands alone is left behind it. -/
theorem Recorded.allHanded {start : Bytes 4} (hdecodes : DecodesBefore start file) (hkept : Kept start file l)
    (hfirst : ∀ q', l.nPos ≤ q' → Marker start file q' → q ≤ q')
    (h : Recorded start file processBlock q l.nLoaded l.handed (.ended l')) : AllHanded start file l'.handed := by
  intro p nSize block hrecord halone
  cases h with
  | short hend =>
    rcases hkept p nSize block hrecord halone with hle | hmem
    · have hge := hfirst p hle hrecord.claimed.marker
      have hroom := hrecord.room
      omega
    · exact hmem
  | undecodable nSize' hclaimed hnot =>
    rcases hkept p nSize block hrecord halone with hle | hmem
    · have hge := hfirst p hle hrecord.claimed.marker
      have hle' := hdecodes q nSize' hclaimed hnot p nSize block hrecord halone
      obtain rfl : p = q := by omega
      exact absurd hrecord.decodable hnot
    · exact hmem

/-- **The run.** Everything that stands alone and is ahead is handed on. -/
theorem allHanded_of_loadLoop (hfile : file.length < CDataStream.maxLength)
    (hdecodes : DecodesBefore (pchMessageStart fTestNet) file) {fuel : Nat}
    (hkept : Kept (pchMessageStart fTestNet) file l)
    (h : loadLoop (pchMessageStart fTestNet) file processBlock fuel l = some l') :
    AllHanded (pchMessageStart fTestNet) file l'.handed := by
  induction fuel generalizing l with
  | zero => exact nomatch h
  | succ fuel ih =>
    rcases loadLoop_cases hfile h with
      ⟨hsame, hnone⟩ | ⟨q, pass, hle, hmarker, hfirst, hrecorded, rfl | ⟨l'', rfl, hrest⟩⟩
    · intro p nSize block hrecord halone
      rw [hsame]
      rcases hkept p nSize block hrecord halone with hle | hmem
      · have hfar := hnone p hle hrecord.claimed.marker
        have hroom := hrecord.room
        have hpos := hrecord.pos
        omega
      · exact hmem
    · exact hrecorded.allHanded hdecodes hkept hfirst
    · exact ih (hrecorded.keeps hfile hkept hmarker hfirst) hrest

theorem loads_of_decodesBefore (hfile : file.length < CDataStream.maxLength)
    (hdecodes : DecodesBefore (pchMessageStart fTestNet) file) : Loads (pchMessageStart fTestNet) file := by
  intro processBlock
  obtain ⟨l, hload⟩ := exists_loadLoop (pchMessageStart fTestNet) processBlock hfile (file.length + 3) ⟨0, 0, []⟩
    (by simp) (by omega)
  refine ⟨file.length + 3, decide (0 < l.nLoaded), l.handed, by rw [loadExternalBlockFile, hload]; rfl, ?_⟩
  exact allHanded_of_loadLoop hfile hdecodes (fun p nSize block _ _ => .inl (Nat.zero_le p)) hload

/-! ## Contents that do not decode -/

/-- Where all blocks are rejected, no record behind one whose contents do not
decode is reached. -/
theorem handed_before (hfile : file.length < CDataStream.maxLength)
    (hclaimed : Claimed (pchMessageStart fTestNet) file q nSize) (hnot : ¬ Decodable file q) {fuel : Nat}
    (hle : l.nPos ≤ q) (hbefore : ∀ x ∈ l.handed, x.1 < q)
    (h : loadLoop (pchMessageStart fTestNet) file (fun _ _ => false) fuel l = some l') : ∀ x ∈ l'.handed, x.1 < q := by
  induction fuel generalizing l with
  | zero => exact nomatch h
  | succ fuel ih =>
    rcases loadLoop_cases hfile h with ⟨hsame, -⟩ | ⟨q', pass, -, hmarker, hfirst, hrecorded, rfl | ⟨l'', rfl, hrest⟩⟩
    · rw [hsame]
      exact hbefore
    · cases hrecorded with
      | short => exact hbefore
      | undecodable => exact hbefore
    · have hnext : q' ≠ q → q' + 4 ≤ q := fun hne =>
        hmarker.apart hclaimed.marker (Nat.lt_of_le_of_ne (hfirst q hle hclaimed.marker) hne)
      cases hrecorded with
      | unclaimed hunclaimed =>
        refine ih (l := ⟨q' + 4, l.nLoaded, l.handed⟩) (hnext ?_) hbefore hrest
        rintro rfl
        exact hunclaimed nSize hclaimed
      | accepted nSize' block rest hclaimed' hrange hcontents htaken => exact nomatch htaken
      | rejected nSize' block rest hclaimed' hrange hcontents =>
        have hne : q' ≠ q := by
          rintro rfl
          exact hnot ⟨block, rest, hrange, hcontents⟩
        refine ih (hnext hne) (fun x hx => ?_) hrest
        rcases List.mem_append.mp hx with hx | hx
        · exact hbefore x hx
        · have hnext' := hnext hne
          obtain rfl := List.mem_singleton.mp hx
          show q' < q
          omega

theorem decodesBefore_of_loads (hfile : file.length < CDataStream.maxLength)
    (h : Loads (pchMessageStart fTestNet) file) : DecodesBefore (pchMessageStart fTestNet) file := by
  intro q nSize hclaimed hnot p nSize' block hrecord halone
  obtain ⟨fuel, fLoaded, handed, hload, hall⟩ := h fun _ _ => false
  obtain ⟨l, hloop, heq⟩ := Option.map_eq_some_iff.mp hload
  obtain ⟨-, rfl⟩ := Prod.mk.inj heq
  have hbefore := handed_before hfile hclaimed hnot (l := ⟨0, 0, []⟩) (Nat.zero_le q) (by simp) hloop
  exact (hbefore _ (hall p nSize' block hrecord halone)).le

/-! ## Long files -/

/-- In a file that is longer than the position can count there is always a
window left, and the next position is one that was looked at before. -/
theorem scanWindow_long {start : Bytes 4} (hlong : 2 ^ 32 + 8 ≤ file.length) (hnone : ∀ q, ¬ Marker start file q)
    (hpos : nPos < 2 ^ 32) : ∃ nPos', scanWindow start file nPos = .again nPos' ∧ nPos' < 2 ^ 32 := by
  have hread : ((file.drop nPos).take 65536).length = min 65536 (file.length - nPos) := by simp
  rw [scanWindow]
  simp only [hread]
  rw [if_neg (by omega)]
  split
  next k hfind =>
    rw [if_neg fun hmatch => ?_]
    · exact ⟨_, rfl, Nat.mod_lt _ (by decide)⟩
    · have hlen := congrArg List.length hmatch
      simp only [List.length_take, List.length_drop, hread, List.Vector.toList_length] at hlen
      refine hnone (nPos + k) ?_
      rw [Marker, ← hmatch, List.drop_take, List.take_take, List.drop_drop]
      congr 1
      omega
  next => exact ⟨_, rfl, Nat.mod_lt _ (by decide)⟩

theorem scanLoop_long {start : Bytes 4} (hlong : 2 ^ 32 + 8 ≤ file.length)
    (hnone : ∀ q, ¬ Marker start file q) {fuel : Nat} (hpos : nPos < 2 ^ 32) :
    scanLoop start file fuel nPos = none := by
  induction fuel generalizing nPos with
  | zero => rfl
  | succ fuel ih =>
    obtain ⟨nPos', hagain, hlt⟩ := scanWindow_long hlong hnone hpos
    rw [scanLoop, hagain]
    exact ih hlt

theorem not_loads_long {start : Bytes 4} (hlong : 2 ^ 32 + 8 ≤ file.length) (hnone : ∀ q, ¬ Marker start file q) :
    ¬ Loads start file := by
  intro h
  obtain ⟨fuel, fLoaded, handed, hload, -⟩ := h fun _ _ => false
  obtain ⟨l, hloop, -⟩ := Option.map_eq_some_iff.mp hload
  cases fuel with
  | zero => exact nomatch hloop
  | succ fuel =>
    rw [loadLoop, if_neg (by decide), scanLoop_long hlong hnone (by decide)] at hloop
    exact nomatch hloop

/-- **A file is loaded if and only if no contents that do not decode lie
before a record that stands alone**: they end the load. That is for files the
position can count; without a marker, a longer one is never done with. -/
theorem loads_iff (fTestNet : Bool) (file : List UInt8) :
    (file.length < CDataStream.maxLength →
      (Loads (pchMessageStart fTestNet) file ↔ DecodesBefore (pchMessageStart fTestNet) file)) ∧
    (2 ^ 32 + 8 ≤ file.length → (∀ q, ¬ Marker (pchMessageStart fTestNet) file q) →
      ¬ Loads (pchMessageStart fTestNet) file) :=
  ⟨fun hfile => ⟨decodesBefore_of_loads hfile, loads_of_decodesBefore hfile⟩, not_loads_long⟩

/-! ### Two records -/

def zeroBlock : CBlock := ⟨⟨0, 0, 0, 0, 0, 0⟩, [], []⟩

def zeroRecord : List UInt8 := (pchMessageStart false).toList ++ (leBytes 4 82 ++ (zeroBlock.serialize ++ []))

/-- The number of transactions is larger than any vector may be. -/
def brokenRecord : List UInt8 :=
  (pchMessageStart false).toList ++ (leBytes 4 89 ++ (List.replicate 80 0 ++ List.replicate 9 0xff))

theorem loads_iff_sample :
    Loads (pchMessageStart false) zeroRecord ↔ DecodesBefore (pchMessageStart false) zeroRecord :=
  (loads_iff false zeroRecord).1 (by decide +kernel)

theorem record_zeroRecord : Record (pchMessageStart false) (brokenRecord ++ zeroRecord) 97 82 zeroBlock := by
  refine ⟨⟨by decide, by decide, by decide, by decide, by decide, by decide, ⟨by decide, ?_⟩, by decide⟩,
    by decide +kernel, by decide, ⟨[], ?_⟩⟩
  · exact fun tx htx => nomatch htx
  · rw [List.drop_left' (by decide +kernel)]
    rfl

theorem claimed_brokenRecord : Claimed (pchMessageStart false) (brokenRecord ++ zeroRecord) 0 89 := by
  refine ⟨⟨List.replicate 80 0 ++ List.replicate 9 0xff ++ zeroRecord, ?_⟩, by decide, by decide⟩
  rw [List.drop_zero, brokenRecord]
  simp only [List.append_assoc]

/-- A record that does not decode hides the one behind it. -/
theorem not_loads_broken : ¬ Loads (pchMessageStart false) (brokenRecord ++ zeroRecord) := by
  intro h
  have hlen : (brokenRecord ++ zeroRecord).length < CDataStream.maxLength := by decide +kernel
  have hnot : ¬ Decodable (brokenRecord ++ zeroRecord) 0 := by
    intro ⟨block, rest, hrange, hcontents⟩
    have hok : stream.Ok ⟨brokenRecord ++ zeroRecord, 0 + 8⟩ := ⟨by decide +kernel, hlen⟩
    obtain ⟨s, hread, -⟩ := CBlock.reads.back hok hrange hcontents
    have herror : (match CBlock.unserialize ⟨brokenRecord ++ zeroRecord, 0 + 8⟩ with
      | .ok _ _ => false
      | .error _ _ => true) = true := by decide +kernel
    rw [hread] at herror
    exact nomatch herror
  have halone : Alone (pchMessageStart false) (brokenRecord ++ zeroRecord) 97 82 := by
    intro q nSize hclaimed hne
    have hmarkers : ∀ q < 187, Marker (pchMessageStart false) (brokenRecord ++ zeroRecord) q → q = 0 ∨ q = 97 := by
      decide +kernel
    have hlength : (brokenRecord ++ zeroRecord).length = 187 := by decide +kernel
    have hle := hclaimed.marker.le
    rcases hmarkers q (by omega) hclaimed.marker with rfl | rfl
    · have hsize := hclaimed.unique claimed_brokenRecord
      omega
    · exact absurd rfl hne
  have hle := decodesBefore_of_loads hlen h 0 89 claimed_brokenRecord hnot 97 82 zeroBlock record_zeroRecord halone
  exact absurd hle (by decide)

end ExternalFile

end Pinkcoin
