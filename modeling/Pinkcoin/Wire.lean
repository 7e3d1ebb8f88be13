/-
The network format of transactions and blocks: what `Serialize` writes, what
`Unserialize` reads off a `CDataStream`, and what `GetSerializeSize` counts.
-/
import Mathlib.Tactic.Positivity
import Mathlib.Tactic.Ring
import Pinkcoin.Disk
import Pinkcoin.Lib.Codec
import Pinkcoin.Lib.StateError
import Pinkcoin.Smsg.Message

namespace Pinkcoin

open CScript (leBytes leNat length_leBytes leBytes_inj)
open Codec StateError

def MAX_SIZE : Nat := 0x02000000

/-! ## The stream -/

/-- `CDataStream`, as far as it is read from. -/
structure CDataStream where
  vch : List UInt8
  nReadPos : Nat
  deriving DecidableEq

abbrev StreamM := EStateM String CDataStream

namespace CDataStream

/-- `read`. The position is an `unsigned int`, and the stream is cleared when
its end is reached. -/
def read (nSize : Nat) : StreamM (List UInt8) := fun s =>
  let nReadPosNext := (s.nReadPos + nSize) % 2 ^ 32
  let pch := (s.vch.drop s.nReadPos).take nSize
  if s.vch.length ≤ nReadPosNext then
    if s.vch.length < nReadPosNext then .error "CDataStream::read() : end of data" s else .ok pch ⟨[], 0⟩
  else .ok pch ⟨s.vch, nReadPosNext⟩

/-- The longest read of `Unserialize`. -/
def blockSize : Nat := 5000000

/-- In a shorter stream the position does not wrap. -/
def maxLength : Nat := 2 ^ 32 - blockSize

/-- What is left to read. -/
def stream : Stream CDataStream where
  rest s := s.vch.drop s.nReadPos
  Ok s := s.nReadPos ≤ s.vch.length ∧ s.vch.length < maxLength

theorem reads_read {n : Nat} (hn : n ≤ blockSize) : Reads stream (fun l : List UInt8 => l.length = n) id (read n) := by
  have hnext : ∀ s, stream.Ok s → (s.nReadPos + n) % 2 ^ 32 = s.nReadPos + n := fun s hs => by
    obtain ⟨h, h'⟩ := hs
    refine Nat.mod_eq_of_lt ?_
    simp only [maxLength, blockSize] at h' hn
    omega
  constructor
  · intro s l more hs hl hrest
    have hlen := congrArg List.length hrest
    simp only [stream, id, List.length_drop, List.length_append] at hlen hrest
    have htake : (s.vch.drop s.nReadPos).take n = l := by rw [hrest, ← hl, List.take_left]
    have hpos := hs.1
    by_cases hend : s.vch.length ≤ s.nReadPos + n
    · have hmore : more = [] := List.length_eq_zero_iff.mp (by omega)
      refine ⟨⟨[], 0⟩, ?_, ⟨le_rfl, by decide⟩, hmore.symm⟩
      rw [read, hnext s hs, if_pos hend, if_neg (by omega), htake]
    · have hle : s.nReadPos + n ≤ s.vch.length := by omega
      refine ⟨⟨s.vch, s.nReadPos + n⟩, ?_, ⟨hle, hs.2⟩, ?_⟩
      · rw [read, hnext s hs, if_neg hend, htake]
      · have hdrop : s.vch.drop (s.nReadPos + n) = more := by rw [← hl, ← List.drop_drop, hrest, List.drop_left]
        exact hdrop
  · intro s s' l hs hrun
    have hpos := hs.1
    rw [read, hnext s hs] at hrun
    simp only [stream, id]
    split at hrun
    next hend =>
      split at hrun
      next => exact nomatch hrun
      next hnot =>
        obtain ⟨rfl, rfl⟩ := EStateM.Result.ok.inj hrun
        have hlen : (s.vch.drop s.nReadPos).length ≤ n := by rw [List.length_drop]; omega
        refine ⟨?_, ⟨le_rfl, by decide⟩, ?_⟩
        · rw [List.length_take, List.length_drop]
          omega
        · rw [List.take_of_length_le hlen]
          exact (List.append_nil _).symm
    next hend =>
      obtain ⟨rfl, rfl⟩ := EStateM.Result.ok.inj hrun
      have hle : s.nReadPos + n ≤ s.vch.length := by omega
      refine ⟨?_, ⟨hle, hs.2⟩, ?_⟩
      · rw [List.length_take, List.length_drop]
        omega
      · rw [← List.drop_drop, List.take_append_drop]

end CDataStream

open CDataStream (read stream blockSize reads_read)

/-! ## Numbers -/

/-- An unsigned number of `k` bytes. -/
def readUInt (k : Nat) : StreamM Nat := do
  let b ← read k
  pure (leNat b)

/-- A signed number of `k` bytes. -/
def writeInt (k : Nat) (n : Int) : List UInt8 := leBytes k (n % (256 ^ k : Nat)).toNat

def readInt (k : Nat) : StreamM Int := do
  let b ← read k
  pure (Int.bmod (leNat b) (256 ^ k))

/-- A number of a signed type of `k` bytes. -/
def IntRange (k : Nat) (n : Int) : Prop := -(128 * 256 ^ (k - 1) : Nat) ≤ n ∧ n < (128 * 256 ^ (k - 1) : Nat)

instance (k : Nat) (n : Int) : Decidable (IntRange k n) := inferInstanceAs (Decidable (_ ∧ _))

theorem reads_readUInt {k : Nat} (hk : k ≤ blockSize) : Reads stream (fun n => n < 256 ^ k) (leBytes k) (readUInt k) := by
  refine (reads_read hk).map (fun n => ?_) fun l hl => ?_
  · rw [leNat_leBytes]
    exact ⟨fun h => ⟨length_leBytes _ _, Nat.mod_eq_of_lt h⟩, fun h => h.2 ▸ Nat.mod_lt _ (by positivity)⟩
  · rw [← hl]
    exact leBytes_leNat l

theorem unambiguous_leBytes (k : Nat) : Unambiguous (fun n => n < 256 ^ k) (leBytes k) := by
  intro a b x y ha hb heq
  obtain ⟨hab, hxy⟩ := List.append_inj heq (by rw [length_leBytes, length_leBytes])
  exact ⟨leBytes_inj ha hb hab, hxy⟩

theorem reads_readInt {k : Nat} (hpos : 0 < k) (hk : k ≤ blockSize) :
    Reads stream (IntRange k) (writeInt k) (readInt k) := by
  obtain ⟨j, rfl⟩ : ∃ j, k = j + 1 := ⟨k - 1, by omega⟩
  have hpow : (256 : Nat) ^ (j + 1) = 2 * (128 * 256 ^ j) := by ring
  have hbytes : 0 < 256 ^ j := by positivity
  refine (reads_read hk).map (g := writeInt (j + 1)) (fun n => ?_) fun l hl => ?_
  · have hnat : ((leNat (writeInt (j + 1) n) : Nat) : Int) = n % (256 ^ (j + 1) : Nat) := by
      have hnonneg : 0 ≤ n % (256 ^ (j + 1) : Nat) := Int.emod_nonneg _ (by positivity)
      have hlt : (n % (256 ^ (j + 1) : Nat)).toNat < 256 ^ (j + 1) := by
        have := Int.emod_lt_of_pos n (b := (256 ^ (j + 1) : Nat)) (by positivity)
        omega
      rw [writeInt, leNat_leBytes, Nat.mod_eq_of_lt hlt, Int.toNat_of_nonneg hnonneg]
    rw [hnat, Int.emod_bmod, writeInt, length_leBytes]
    constructor
    · intro h
      rw [IntRange, Nat.add_sub_cancel] at h
      exact ⟨rfl, (Int.bmod_eq_iff (by positivity)).mpr ⟨by omega, by omega, by simp⟩⟩
    · intro h
      have hge := Int.le_bmod (x := n) (m := 256 ^ (j + 1)) (by positivity)
      have hlt := Int.bmod_lt (x := n) (m := 256 ^ (j + 1)) (by positivity)
      rw [h.2] at hge hlt
      rw [IntRange, Nat.add_sub_cancel]
      omega
  · have hlt := leNat_lt l
    rw [hl] at hlt
    rw [writeInt, Int.bmod_emod, Int.emod_eq_of_lt (by positivity) (by exact_mod_cast hlt), Int.toNat_natCast, ← hl]
    exact leBytes_leNat l

theorem unambiguous_writeInt {k : Nat} (hpos : 0 < k) (hk : k ≤ blockSize) : Unambiguous (IntRange k) (writeInt k) := by
  intro a b x y ha hb heq
  have hlen : (writeInt k a).length = (writeInt k b).length := by rw [writeInt, writeInt, length_leBytes, length_leBytes]
  obtain ⟨hab, hxy⟩ := List.append_inj heq hlen
  refine ⟨?_, hxy⟩
  have hread := reads_readInt hpos hk
  have hs : stream.Ok ⟨writeInt k a, 0⟩ := by
    refine ⟨Nat.zero_le _, ?_⟩
    rw [writeInt, length_leBytes]
    exact Nat.lt_of_le_of_lt hk (by decide)
  obtain ⟨s, hrun, -⟩ := hread.back hs ha (List.append_nil _).symm
  obtain ⟨s', hrun', -⟩ := hread.back hs hb (by rw [← hab, List.append_nil]; rfl)
  exact (EStateM.Result.ok.inj (hrun.symm.trans hrun')).1

/-! ## Counts -/

/-- `WriteCompactSize`. -/
def writeCompactSize (nSize : Nat) : List UInt8 :=
  if nSize < 253 then leBytes 1 nSize
  else if nSize ≤ 0xffff then leBytes 1 253 ++ leBytes 2 nSize
  else if nSize ≤ 0xffffffff then leBytes 1 254 ++ leBytes 4 nSize
  else leBytes 1 255 ++ leBytes 8 nSize

/-- The number after the first byte of a count. It has to be too large for a
shorter form. -/
def readSize (chSize : Nat) : StreamM Nat :=
  if chSize < 253 then pure chSize
  else if chSize = 253 then do
    let xSize ← readUInt 2
    rejectIf (xSize < 253) "non-canonical ReadCompactSize()"
    pure xSize
  else if chSize = 254 then do
    let xSize ← readUInt 4
    rejectIf (xSize < 0x10000) "non-canonical ReadCompactSize()"
    pure xSize
  else do
    let xSize ← readUInt 8
    rejectIf (xSize < 0x100000000) "non-canonical ReadCompactSize()"
    pure xSize

/-- `ReadCompactSize`. -/
def readCompactSize : StreamM Nat := do
  let chSize ← readUInt 1
  let nSizeRet ← readSize chSize
  rejectIf (MAX_SIZE < nSizeRet) "ReadCompactSize() : size too large"
  pure nSizeRet

theorem length_writeCompactSize (nSize : Nat) : (writeCompactSize nSize).length = getSizeOfCompactSize nSize := by
  unfold writeCompactSize getSizeOfCompactSize
  split
  · rw [length_leBytes]
  · split
    · rw [List.length_append, length_leBytes, length_leBytes]
    · split <;> rw [List.length_append, length_leBytes, length_leBytes]

/-- The first byte of a count, and the bytes after it. -/
def sizeTag (nSize : Nat) : Nat := if nSize < 253 then nSize else if nSize ≤ 0xffff then 253 else if nSize ≤ 0xffffffff then 254 else 255

def sizeBytes (nSize : Nat) : List UInt8 :=
  if nSize < 253 then [] else if nSize ≤ 0xffff then leBytes 2 nSize else if nSize ≤ 0xffffffff then leBytes 4 nSize else leBytes 8 nSize

theorem writeCompactSize_eq (nSize : Nat) : writeCompactSize nSize = leBytes 1 (sizeTag nSize) ++ sizeBytes nSize := by
  unfold writeCompactSize sizeTag sizeBytes
  split
  · rw [List.append_nil]
  · split
    · rfl
    · split <;> rfl

/-- The four forms of a count. -/
theorem size_cases (n : Nat) :
    (n < 253 ∧ sizeTag n = n ∧ sizeBytes n = []) ∨
    ((253 ≤ n ∧ n < 256 ^ 2) ∧ sizeTag n = 253 ∧ sizeBytes n = leBytes 2 n) ∨
    ((0x10000 ≤ n ∧ n < 256 ^ 4) ∧ sizeTag n = 254 ∧ sizeBytes n = leBytes 4 n) ∨
    (0x100000000 ≤ n ∧ sizeTag n = 255 ∧ sizeBytes n = leBytes 8 n) := by
  unfold sizeTag sizeBytes
  by_cases h₁ : n < 253
  · exact .inl ⟨h₁, if_pos h₁, if_pos h₁⟩
  · rw [if_neg h₁, if_neg h₁]
    by_cases h₂ : n ≤ 0xffff
    · exact .inr (.inl ⟨⟨by omega, by omega⟩, if_pos h₂, if_pos h₂⟩)
    · rw [if_neg h₂, if_neg h₂]
      by_cases h₃ : n ≤ 0xffffffff
      · exact .inr (.inr (.inl ⟨⟨by omega, by omega⟩, if_pos h₃, if_pos h₃⟩))
      · exact .inr (.inr (.inr ⟨by omega, if_neg h₃, if_neg h₃⟩))

theorem sizeTag_lt (n : Nat) : sizeTag n < 256 ^ 1 := by
  obtain ⟨h, htag, -⟩ | ⟨-, htag, -⟩ | ⟨-, htag, -⟩ | ⟨-, htag, -⟩ := size_cases n <;> omega

/-- A longer form, whose number is not one of a shorter form. -/
theorem reads_checked {k low : Nat} (hk : k ≤ blockSize) (text : String) :
    Reads stream (fun n => n < 256 ^ k ∧ low ≤ n) (leBytes k)
      (do let xSize ← readUInt k; rejectIf (xSize < low) text; pure xSize) := by
  have hread := reads_readUInt hk
  constructor
  · intro s n more hs hn hrest
    obtain ⟨s', hrun, hs', hrest'⟩ := hread.back hs hn.1 hrest
    refine ⟨s', ?_, hs', hrest'⟩
    simp only [bind, EStateM.bind, hrun, rejectIf, if_neg (Nat.not_lt.mpr hn.2)]
    rfl
  · intro s s' n hs hrun
    simp only [bind_ok, rejectIf_ok, pure_ok] at hrun
    obtain ⟨n, t, hrun, _, _, ⟨hlow, rfl⟩, rfl, rfl⟩ := hrun
    obtain ⟨hn, ht, hrest⟩ := hread.only hs hrun
    exact ⟨⟨hn, Nat.not_lt.mp hlow⟩, ht, hrest⟩

/-- The bytes after the first byte of a count are those of one number. -/
theorem reads_readSize {chSize : Nat} (hch : chSize < 256) :
    Reads stream (fun n => n < 256 ^ 8 ∧ sizeTag n = chSize) sizeBytes (readSize chSize) := by
  unfold readSize
  split
  next hlt =>
    refine (Reads.pure (P := fun n => n = chSize) fun n => Iff.rfl).congr (fun n => ?_) fun n hn => ?_
    · simp only [and_true]
      constructor <;> intro hn <;>
        obtain ⟨h, htag, -⟩ | ⟨h, htag, -⟩ | ⟨h, htag, -⟩ | ⟨h, htag, -⟩ := size_cases n <;> omega
    · obtain ⟨h, -, hbytes⟩ | ⟨h, -⟩ | ⟨h, -⟩ | ⟨h, -⟩ := size_cases n
      · exact hbytes.symm
      all_goals have := hn.1; omega
  next hlt =>
    split
    next heq =>
      refine (reads_checked (k := 2) (by decide) _).congr (fun n => ?_) fun n hn => ?_
      · constructor <;> intro hn <;>
          obtain ⟨h, htag, -⟩ | ⟨h, htag, -⟩ | ⟨h, htag, -⟩ | ⟨h, htag, -⟩ := size_cases n <;> omega
      · obtain ⟨h, -⟩ | ⟨-, -, hbytes⟩ | ⟨h, -⟩ | ⟨h, -⟩ := size_cases n
        · omega
        · exact hbytes.symm
        all_goals omega
    next hne =>
      split
      next heq =>
        refine (reads_checked (k := 4) (by decide) _).congr (fun n => ?_) fun n hn => ?_
        · constructor <;> intro hn <;>
            obtain ⟨h, htag, -⟩ | ⟨h, htag, -⟩ | ⟨h, htag, -⟩ | ⟨h, htag, -⟩ := size_cases n <;> omega
        · obtain ⟨h, -⟩ | ⟨h, -⟩ | ⟨-, -, hbytes⟩ | ⟨h, -⟩ := size_cases n
          · omega
          · omega
          · exact hbytes.symm
          · omega
      next hne' =>
        refine (reads_checked (k := 8) (by decide) _).congr (fun n => ?_) fun n hn => ?_
        · constructor <;> intro hn <;>
            obtain ⟨h, htag, -⟩ | ⟨h, htag, -⟩ | ⟨h, htag, -⟩ | ⟨h, htag, -⟩ := size_cases n <;> omega
        · obtain ⟨h, -⟩ | ⟨h, -⟩ | ⟨h, -⟩ | ⟨-, -, hbytes⟩ := size_cases n
          · omega
          · omega
          · omega
          · exact hbytes.symm

/-- **A count is read back, in its shortest form only.** -/
theorem reads_readCompactSize : Reads stream (fun n => n ≤ MAX_SIZE) writeCompactSize readCompactSize := by
  have htag := reads_readUInt (k := 1) (by decide)
  constructor
  · intro s n more hs hn hrest
    rw [writeCompactSize_eq, List.append_assoc] at hrest
    obtain ⟨t, hrun, ht, hrest⟩ := htag.back hs (sizeTag_lt n) hrest
    have hsize : n < 256 ^ 8 := Nat.lt_of_le_of_lt hn (by decide)
    obtain ⟨s', hrun', hs', hrest⟩ := (reads_readSize (sizeTag_lt n)).back ht ⟨hsize, rfl⟩ hrest
    refine ⟨s', ?_, hs', hrest⟩
    simp only [readCompactSize, bind, EStateM.bind, hrun, hrun', rejectIf, if_neg (Nat.not_lt.mpr hn)]
    rfl
  · intro s s' n hs hrun
    simp only [readCompactSize, bind_ok, rejectIf_ok, pure_ok] at hrun
    obtain ⟨ch, t, hch, n, t', hsize, _, _, ⟨hmax, rfl⟩, rfl, rfl⟩ := hrun
    obtain ⟨hlt, ht, hrest⟩ := htag.only hs hch
    obtain ⟨⟨-, rfl⟩, ht', hrest'⟩ := (reads_readSize hlt).only ht hsize
    exact ⟨Nat.not_lt.mp hmax, ht', by rw [hrest, hrest', writeCompactSize_eq, List.append_assoc]⟩

theorem unambiguous_writeCompactSize : Unambiguous (fun n => n < 256 ^ 8) writeCompactSize := by
  intro a b x y ha hb heq
  rw [writeCompactSize_eq, writeCompactSize_eq, List.append_assoc, List.append_assoc] at heq
  obtain ⟨htag, hrest⟩ := unambiguous_leBytes 1 (sizeTag_lt a) (sizeTag_lt b) heq
  -- the first bytes are equal, so the two numbers have one form
  obtain ⟨h, hatag, hbytes⟩ | ⟨h, hatag, hbytes⟩ | ⟨h, hatag, hbytes⟩ | ⟨h, hatag, hbytes⟩ := size_cases a <;>
    obtain ⟨h', hbtag, hbytes'⟩ | ⟨h', hbtag, hbytes'⟩ | ⟨h', hbtag, hbytes'⟩ | ⟨h', hbtag, hbytes'⟩ := size_cases b <;>
    rw [hatag, hbtag] at htag <;> rw [hbytes, hbytes'] at hrest
  any_goals omega
  · exact ⟨htag, hrest⟩
  · exact unambiguous_leBytes 2 h.2 h'.2 hrest
  · exact unambiguous_leBytes 4 h.2 h'.2 hrest
  · exact unambiguous_leBytes 8 ha hb hrest

/-! ## Vectors -/

/-- `Serialize_impl` of a `vector<unsigned char>`. -/
def serializeBytes (v : List UInt8) : List UInt8 := writeCompactSize v.length ++ v

/-- The loop of `Unserialize_impl` of a `vector<unsigned char>`, which reads
in blocks. As much fuel as there are bytes is enough. -/
def readBlocks : Nat → Nat → StreamM (List UInt8)
  | 0, _ => pure []
  | fuel + 1, left =>
    if left = 0 then pure []
    else do
      let blk ← read (min left blockSize)
      let v ← readBlocks fuel (left - min left blockSize)
      pure (blk ++ v)

def unserializeBytes : StreamM (List UInt8) := do
  let nSize ← readCompactSize
  readBlocks nSize nSize

/-- `Serialize_impl` of a vector of objects. -/
def serializeVector {α : Type} (write : α → List UInt8) (v : List α) : List UInt8 :=
  writeCompactSize v.length ++ writeAll write v

/-- `Unserialize_impl` of a vector of objects. The blocks in which the vector
grows do not show. -/
def unserializeVector {α : Type} (read : StreamM α) : StreamM (List α) := do
  let nSize ← readCompactSize
  readMany read nSize

theorem reads_readBlocks (fuel left : Nat) (hfuel : left ≤ fuel) :
    Reads stream (fun l : List UInt8 => l.length = left) id (readBlocks fuel left) := by
  have hnil : Reads stream (fun l : List UInt8 => l.length = 0) id (pure [] : StreamM (List UInt8)) :=
    (Reads.pure (P := fun l : List UInt8 => l = []) fun l => Iff.rfl).congr
      (fun l => by rw [and_true, List.length_eq_zero_iff]) fun l hl => hl.1.symm
  induction fuel generalizing left with
  | zero =>
    obtain rfl : left = 0 := by omega
    exact hnil
  | succ fuel ih =>
    unfold readBlocks
    split
    next hzero => exact hzero ▸ hnil
    next hleft =>
      have hblock : Reads stream (fun l : List UInt8 => l.length = min left blockSize) id (read (min left blockSize)) :=
        reads_read (Nat.min_le_right _ _)
      have hpos : 0 < min left blockSize := Nat.lt_min.mpr ⟨by omega, by decide⟩
      have hrest := ih (left - min left blockSize) (by omega)
      have htwo : Reads stream (fun l : List UInt8 => True ∧ ((l.take (min left blockSize)).length = min left blockSize ∧
          (l.drop (min left blockSize)).length = left - min left blockSize ∧ True))
          (fun l => id (l.take (min left blockSize)) ++ (id (l.drop (min left blockSize)) ++ []))
          (do let blk ← read (min left blockSize); let v ← readBlocks fuel (left - min left blockSize); pure (blk ++ v)) := by
        refine hblock.field (g := fun l : List UInt8 => l.take (min left blockSize)) fun a ha => ?_
        refine hrest.field (g := fun l : List UInt8 => l.drop (min left blockSize)) fun b hb => Reads.pure fun l => ?_
        constructor
        · rintro ⟨⟨-, rfl⟩, rfl⟩
          exact (List.take_append_drop _ l).symm
        · rintro rfl
          exact ⟨⟨trivial, List.take_left' ha⟩, List.drop_left' ha⟩
      refine htwo.congr (fun l => ?_) fun l _ => ?_
      · rw [List.length_take, List.length_drop]
        constructor
        · rintro ⟨-, h, h', -⟩
          omega
        · rintro rfl
          exact ⟨trivial, by omega, rfl, trivial⟩
      · simp only [id, List.append_nil, List.take_append_drop]

theorem writeAll_singleton (l : List UInt8) : writeAll (fun b => [b]) l = l := by
  induction l with
  | nil => rfl
  | cons b l ih => rw [writeAll_cons, ih, List.singleton_append]

theorem reads_unserializeBytes :
    Reads stream (fun v : List UInt8 => v.length ≤ MAX_SIZE) serializeBytes unserializeBytes := by
  have hall : ∀ n, Reads stream (fun l : List UInt8 => l.length = n ∧ ∀ a ∈ l, True) (writeAll fun b => [b]) (readBlocks n n) :=
    fun n => (reads_readBlocks n n le_rfl).congr (fun l => by simp) fun l _ => (writeAll_singleton l).symm
  exact (reads_readCompactSize.counted hall).congr (fun l => by simp) fun l _ => by rw [writeAll_singleton, serializeBytes]

theorem unambiguous_serializeBytes : Unambiguous (fun v : List UInt8 => v.length < 256 ^ 8) serializeBytes := by
  intro a b x y ha hb heq
  rw [serializeBytes, serializeBytes, List.append_assoc, List.append_assoc] at heq
  obtain ⟨hlen, hrest⟩ := unambiguous_writeCompactSize ha hb heq
  exact List.append_inj hrest hlen

theorem reads_unserializeVector {α : Type} {V : α → Prop} {write : α → List UInt8} {read : StreamM α}
    (h : Reads stream V write read) : Reads stream (fun v : List α => v.length ≤ MAX_SIZE ∧ ∀ a ∈ v, V a)
      (serializeVector write) (unserializeVector read) :=
  reads_readCompactSize.counted h.many

theorem unambiguous_serializeVector {α : Type} {V : α → Prop} {write : α → List UInt8} (h : Unambiguous V write) :
    Unambiguous (fun v : List α => v.length < 256 ^ 8 ∧ ∀ a ∈ v, V a) (serializeVector write) :=
  unambiguous_writeCompactSize.counted h

theorem length_serializeBytes (v : List UInt8) : (serializeBytes v).length = bytesSize v.length := by
  rw [serializeBytes, List.length_append, length_writeCompactSize, bytesSize]

theorem length_serializeVector {α : Type} {write : α → List UInt8} {size : α → Nat} (h : ∀ a, (write a).length = size a)
    (v : List α) : (serializeVector write v).length = getSizeOfCompactSize v.length + (v.map size).sum := by
  rw [serializeVector, List.length_append, length_writeCompactSize, length_writeAll]
  simp only [h]

/-! ## Transactions -/

/-- The fields are in the ranges of their types, and no vector is longer than
`max`. -/
structure COutPoint.InRange (o : COutPoint) : Prop where
  hash : o.hash < 256 ^ 32
  n : o.n < 256 ^ 4

structure CTxIn.InRange (max : Nat) (txin : CTxIn) : Prop where
  prevout : txin.prevout.InRange
  scriptSig : txin.scriptSig.length ≤ max
  nSequence : txin.nSequence < 256 ^ 4

structure CTxOut.InRange (max : Nat) (txout : CTxOut) : Prop where
  nValue : IntRange 8 txout.nValue
  scriptPubKey : txout.scriptPubKey.length ≤ max

structure CTransaction.InRange (max : Nat) (tx : CTransaction) : Prop where
  nVersion : IntRange 4 tx.nVersion
  nTime : tx.nTime < 256 ^ 4
  vin : tx.vin.length ≤ max ∧ ∀ txin ∈ tx.vin, txin.InRange max
  vout : tx.vout.length ≤ max ∧ ∀ txout ∈ tx.vout, txout.InRange max
  nLockTime : tx.nLockTime < 256 ^ 4

/-- `FLATDATA`: the bytes in memory. -/
def COutPoint.serialize (o : COutPoint) : List UInt8 := leBytes 32 o.hash ++ leBytes 4 o.n

def COutPoint.unserialize : StreamM COutPoint := do
  let b ← read 36
  pure ⟨leNat (b.take 32), leNat (b.drop 32)⟩

def CTxIn.serialize (txin : CTxIn) : List UInt8 :=
  txin.prevout.serialize ++ (serializeBytes txin.scriptSig ++ leBytes 4 txin.nSequence)

def CTxIn.unserialize : StreamM CTxIn := do
  let prevout ← COutPoint.unserialize
  let scriptSig ← unserializeBytes
  let nSequence ← readUInt 4
  pure ⟨prevout, scriptSig, nSequence⟩

def CTxOut.serialize (txout : CTxOut) : List UInt8 := writeInt 8 txout.nValue ++ serializeBytes txout.scriptPubKey

def CTxOut.unserialize : StreamM CTxOut := do
  let nValue ← readInt 8
  let scriptPubKey ← unserializeBytes
  pure ⟨nValue, scriptPubKey⟩

def CTransaction.serialize (tx : CTransaction) : List UInt8 :=
  writeInt 4 tx.nVersion ++ (leBytes 4 tx.nTime ++ (serializeVector CTxIn.serialize tx.vin ++
    (serializeVector CTxOut.serialize tx.vout ++ leBytes 4 tx.nLockTime)))

def CTransaction.unserialize : StreamM CTransaction := do
  let nVersion ← readInt 4
  let nTime ← readUInt 4
  let vin ← unserializeVector CTxIn.unserialize
  let vout ← unserializeVector CTxOut.unserialize
  let nLockTime ← readUInt 4
  pure ⟨nVersion, nTime, vin, vout, nLockTime⟩

/-- `GetSerializeSize`, an `unsigned int`. -/
def CTransaction.nSerSize (tx : CTransaction) : Nat := tx.getSerializeSize % 2 ^ 32

theorem COutPoint.reads : Reads stream COutPoint.InRange COutPoint.serialize COutPoint.unserialize := by
  refine (reads_read (n := 36) (by decide)).map (g := COutPoint.serialize) (fun o => ?_) fun l hl => ?_
  · have hlen : (leBytes 32 o.hash ++ leBytes 4 o.n).length = 36 := by
      rw [List.length_append, length_leBytes, length_leBytes]
    rw [COutPoint.serialize, List.take_left' (length_leBytes _ _), List.drop_left' (length_leBytes _ _), leNat_leBytes,
      leNat_leBytes]
    constructor
    · intro h
      refine ⟨hlen, ?_⟩
      rw [Nat.mod_eq_of_lt h.hash, Nat.mod_eq_of_lt h.n]
    · rintro ⟨-, h⟩
      obtain ⟨hhash, hn⟩ := COutPoint.mk.inj h
      exact ⟨hhash ▸ Nat.mod_lt _ (by positivity), hn ▸ Nat.mod_lt _ (by positivity)⟩
  · have htake : (l.take 32).length = 32 := by rw [List.length_take, hl]; rfl
    have hdrop : (l.drop 32).length = 4 := by rw [List.length_drop, hl]
    have h₁ := leBytes_leNat (l.take 32)
    have h₂ := leBytes_leNat (l.drop 32)
    rw [htake] at h₁
    rw [hdrop] at h₂
    rw [COutPoint.serialize, h₁, h₂, List.take_append_drop]

theorem CTxIn.reads : Reads stream (CTxIn.InRange MAX_SIZE) CTxIn.serialize CTxIn.unserialize := by
  have hfields : Reads stream (fun txin : CTxIn => True ∧ (txin.prevout.InRange ∧ (txin.scriptSig.length ≤ MAX_SIZE ∧
      (txin.nSequence < 256 ^ 4 ∧ True)))) (fun txin => txin.prevout.serialize ++ (serializeBytes txin.scriptSig ++
        (leBytes 4 txin.nSequence ++ []))) CTxIn.unserialize :=
    COutPoint.reads.field fun prevout _ => reads_unserializeBytes.field fun scriptSig _ =>
      (reads_readUInt (by decide)).field fun nSequence _ => Reads.pure fun txin => by
        obtain ⟨prevout', scriptSig', nSequence'⟩ := txin
        simp only [true_and, CTxIn.mk.injEq, and_assoc]
  refine hfields.congr (fun txin => ⟨?_, ?_⟩) fun txin _ => by rw [List.append_nil, CTxIn.serialize]
  · rintro ⟨-, h₁, h₂, h₃, -⟩
    exact ⟨h₁, h₂, h₃⟩
  · rintro ⟨h₁, h₂, h₃⟩
    exact ⟨trivial, h₁, h₂, h₃, trivial⟩

theorem CTxOut.reads : Reads stream (CTxOut.InRange MAX_SIZE) CTxOut.serialize CTxOut.unserialize := by
  have hfields : Reads stream (fun txout : CTxOut => True ∧ (IntRange 8 txout.nValue ∧
      (txout.scriptPubKey.length ≤ MAX_SIZE ∧ True))) (fun txout => writeInt 8 txout.nValue ++
        (serializeBytes txout.scriptPubKey ++ [])) CTxOut.unserialize :=
    (reads_readInt (by decide) (by decide)).field fun nValue _ => reads_unserializeBytes.field fun scriptPubKey _ =>
      Reads.pure fun txout => by
        obtain ⟨nValue', scriptPubKey'⟩ := txout
        simp only [true_and, CTxOut.mk.injEq]
  refine hfields.congr (fun txout => ⟨?_, ?_⟩) fun txout _ => by rw [List.append_nil, CTxOut.serialize]
  · rintro ⟨-, h₁, h₂, -⟩
    exact ⟨h₁, h₂⟩
  · rintro ⟨h₁, h₂⟩
    exact ⟨trivial, h₁, h₂, trivial⟩

theorem CTransaction.reads : Reads stream (CTransaction.InRange MAX_SIZE) CTransaction.serialize CTransaction.unserialize := by
  have hfields : Reads stream (fun tx : CTransaction => True ∧ (IntRange 4 tx.nVersion ∧ (tx.nTime < 256 ^ 4 ∧
      ((tx.vin.length ≤ MAX_SIZE ∧ ∀ txin ∈ tx.vin, txin.InRange MAX_SIZE) ∧
        ((tx.vout.length ≤ MAX_SIZE ∧ ∀ txout ∈ tx.vout, txout.InRange MAX_SIZE) ∧ (tx.nLockTime < 256 ^ 4 ∧ True))))))
      (fun tx => writeInt 4 tx.nVersion ++ (leBytes 4 tx.nTime ++ (serializeVector CTxIn.serialize tx.vin ++
        (serializeVector CTxOut.serialize tx.vout ++ (leBytes 4 tx.nLockTime ++ []))))) CTransaction.unserialize :=
    (reads_readInt (by decide) (by decide)).field fun nVersion _ => (reads_readUInt (by decide)).field fun nTime _ =>
      (reads_unserializeVector CTxIn.reads).field fun vin _ => (reads_unserializeVector CTxOut.reads).field fun vout _ =>
        (reads_readUInt (by decide)).field fun nLockTime _ => Reads.pure fun tx => by
          obtain ⟨nVersion', nTime', vin', vout', nLockTime'⟩ := tx
          simp only [true_and, CTransaction.mk.injEq, and_assoc]
  refine hfields.congr (fun tx => ⟨?_, ?_⟩) fun tx _ => by rw [List.append_nil, CTransaction.serialize]
  · rintro ⟨-, h₁, h₂, h₃, h₄, h₅, -⟩
    exact ⟨h₁, h₂, h₃, h₄, h₅⟩
  · rintro ⟨h₁, h₂, h₃, h₄, h₅⟩
    exact ⟨trivial, h₁, h₂, h₃, h₄, h₅, trivial⟩

theorem COutPoint.length_serialize (o : COutPoint) : o.serialize.length = 36 := by
  rw [COutPoint.serialize, List.length_append, length_leBytes, length_leBytes]

theorem CTxIn.length_serialize (txin : CTxIn) : txin.serialize.length = txin.getSerializeSize := by
  rw [serialize, List.length_append, List.length_append, COutPoint.length_serialize, length_serializeBytes, length_leBytes,
    getSerializeSize, Nat.add_assoc]

theorem CTxOut.length_serialize (txout : CTxOut) : txout.serialize.length = txout.getSerializeSize := by
  rw [CTxOut.serialize, List.length_append, length_serializeBytes, writeInt, length_leBytes, getSerializeSize]

theorem CTransaction.length_serialize (tx : CTransaction) : tx.serialize.length = tx.getSerializeSize := by
  simp only [serialize, List.length_append, length_leBytes, writeInt, length_serializeVector CTxIn.length_serialize,
    length_serializeVector CTxOut.length_serialize, getSerializeSize]
  omega

/-- The longest vector there can be. -/
def SIZE_MAX : Nat := 256 ^ 8 - 1

theorem lt_of_le_SIZE_MAX {n : Nat} (h : n ≤ SIZE_MAX) : n < 256 ^ 8 := Nat.lt_of_le_of_lt h (by decide)

theorem COutPoint.unambiguous : Unambiguous COutPoint.InRange COutPoint.serialize := by
  intro a b x y ha hb heq
  rw [COutPoint.serialize, COutPoint.serialize, List.append_assoc, List.append_assoc] at heq
  obtain ⟨hhash, heq⟩ := unambiguous_leBytes 32 ha.hash hb.hash heq
  obtain ⟨hn, hxy⟩ := unambiguous_leBytes 4 ha.n hb.n heq
  exact ⟨by rw [COutPoint.mk.injEq]; exact ⟨hhash, hn⟩, hxy⟩

theorem CTxIn.unambiguous : Unambiguous (CTxIn.InRange SIZE_MAX) CTxIn.serialize := by
  intro a b x y ha hb heq
  rw [CTxIn.serialize, CTxIn.serialize] at heq
  simp only [List.append_assoc] at heq
  obtain ⟨hprevout, heq⟩ := COutPoint.unambiguous ha.prevout hb.prevout heq
  obtain ⟨hscript, heq⟩ := unambiguous_serializeBytes (lt_of_le_SIZE_MAX ha.scriptSig) (lt_of_le_SIZE_MAX hb.scriptSig) heq
  obtain ⟨hseq, hxy⟩ := unambiguous_leBytes 4 ha.nSequence hb.nSequence heq
  exact ⟨by rw [CTxIn.mk.injEq]; exact ⟨hprevout, hscript, hseq⟩, hxy⟩

theorem CTxOut.unambiguous : Unambiguous (CTxOut.InRange SIZE_MAX) CTxOut.serialize := by
  intro a b x y ha hb heq
  rw [CTxOut.serialize, CTxOut.serialize, List.append_assoc, List.append_assoc] at heq
  obtain ⟨hvalue, heq⟩ := unambiguous_writeInt (by decide) (by decide) ha.nValue hb.nValue heq
  obtain ⟨hscript, hxy⟩ :=
    unambiguous_serializeBytes (lt_of_le_SIZE_MAX ha.scriptPubKey) (lt_of_le_SIZE_MAX hb.scriptPubKey) heq
  exact ⟨by rw [CTxOut.mk.injEq]; exact ⟨hvalue, hscript⟩, hxy⟩

/-- **Transactions are told apart by their bytes**, of any length. -/
theorem CTransaction.unambiguous : Unambiguous (CTransaction.InRange SIZE_MAX) CTransaction.serialize := by
  intro a b x y ha hb heq
  rw [CTransaction.serialize, CTransaction.serialize] at heq
  simp only [List.append_assoc] at heq
  obtain ⟨hversion, heq⟩ := unambiguous_writeInt (by decide) (by decide) ha.nVersion hb.nVersion heq
  obtain ⟨htime, heq⟩ := unambiguous_leBytes 4 ha.nTime hb.nTime heq
  obtain ⟨hvin, heq⟩ := unambiguous_serializeVector CTxIn.unambiguous (ha.vin.imp_left lt_of_le_SIZE_MAX)
    (hb.vin.imp_left lt_of_le_SIZE_MAX) heq
  obtain ⟨hvout, heq⟩ := unambiguous_serializeVector CTxOut.unambiguous (ha.vout.imp_left lt_of_le_SIZE_MAX)
    (hb.vout.imp_left lt_of_le_SIZE_MAX) heq
  obtain ⟨hlock, hxy⟩ := unambiguous_leBytes 4 ha.nLockTime hb.nLockTime heq
  exact ⟨by rw [CTransaction.mk.injEq]; exact ⟨hversion, htime, hvin, hvout, hlock⟩, hxy⟩

/-! ## Blocks -/

structure CBlock.InRange (max : Nat) (block : CBlock) : Prop where
  nVersion : IntRange 4 block.nVersion
  hashPrevBlock : block.hashPrevBlock < 256 ^ 32
  hashMerkleRoot : block.hashMerkleRoot < 256 ^ 32
  nTime : block.nTime < 256 ^ 4
  nBits : block.nBits < 256 ^ 4
  nNonce : block.nNonce < 256 ^ 4
  vtx : block.vtx.length ≤ max ∧ ∀ tx ∈ block.vtx, tx.InRange max
  vchBlockSig : block.vchBlockSig.length ≤ max

/-- The header, and for the network the transactions and the signature. -/
def CBlock.serialize (block : CBlock) : List UInt8 :=
  writeInt 4 block.nVersion ++ (leBytes 32 block.hashPrevBlock ++ (leBytes 32 block.hashMerkleRoot ++
    (leBytes 4 block.nTime ++ (leBytes 4 block.nBits ++ (leBytes 4 block.nNonce ++
      (serializeVector CTransaction.serialize block.vtx ++ serializeBytes block.vchBlockSig))))))

def CBlock.unserialize : StreamM CBlock := do
  let nVersion ← readInt 4
  let hashPrevBlock ← readUInt 32
  let hashMerkleRoot ← readUInt 32
  let nTime ← readUInt 4
  let nBits ← readUInt 4
  let nNonce ← readUInt 4
  let vtx ← unserializeVector CTransaction.unserialize
  let vchBlockSig ← unserializeBytes
  pure ⟨⟨nVersion, hashPrevBlock, hashMerkleRoot, nTime, nBits, nNonce⟩, vtx, vchBlockSig⟩

/-- `GetSerializeSize`, an `unsigned int`. -/
def CBlock.nSerSize (block : CBlock) : Nat := block.getSerializeSize % 2 ^ 32

theorem CBlock.reads : Reads stream (CBlock.InRange MAX_SIZE) CBlock.serialize CBlock.unserialize := by
  have hfields : Reads stream (fun block : CBlock => True ∧ (IntRange 4 block.nVersion ∧ (block.hashPrevBlock < 256 ^ 32 ∧
      (block.hashMerkleRoot < 256 ^ 32 ∧ (block.nTime < 256 ^ 4 ∧ (block.nBits < 256 ^ 4 ∧ (block.nNonce < 256 ^ 4 ∧
        ((block.vtx.length ≤ MAX_SIZE ∧ ∀ tx ∈ block.vtx, tx.InRange MAX_SIZE) ∧
          (block.vchBlockSig.length ≤ MAX_SIZE ∧ True)))))))))
      (fun block => writeInt 4 block.nVersion ++ (leBytes 32 block.hashPrevBlock ++ (leBytes 32 block.hashMerkleRoot ++
        (leBytes 4 block.nTime ++ (leBytes 4 block.nBits ++ (leBytes 4 block.nNonce ++
          (serializeVector CTransaction.serialize block.vtx ++ (serializeBytes block.vchBlockSig ++ []))))))))
      CBlock.unserialize :=
    (reads_readInt (by decide) (by decide)).field fun nVersion _ => (reads_readUInt (by decide)).field fun hashPrevBlock _ =>
      (reads_readUInt (by decide)).field fun hashMerkleRoot _ => (reads_readUInt (by decide)).field fun nTime _ =>
        (reads_readUInt (by decide)).field fun nBits _ => (reads_readUInt (by decide)).field fun nNonce _ =>
          (reads_unserializeVector CTransaction.reads).field fun vtx _ => reads_unserializeBytes.field fun vchBlockSig _ =>
            Reads.pure fun block => by
              obtain ⟨⟨nVersion', hashPrevBlock', hashMerkleRoot', nTime', nBits', nNonce'⟩, vtx', vchBlockSig'⟩ := block
              simp only [true_and, CBlock.mk.injEq, CBlockHeader.mk.injEq, and_assoc]
  refine hfields.congr (fun block => ⟨?_, ?_⟩) fun block _ => by rw [List.append_nil, CBlock.serialize]
  · rintro ⟨-, h₁, h₂, h₃, h₄, h₅, h₆, h₇, h₈, -⟩
    exact ⟨h₁, h₂, h₃, h₄, h₅, h₆, h₇, h₈⟩
  · rintro ⟨h₁, h₂, h₃, h₄, h₅, h₆, h₇, h₈⟩
    exact ⟨trivial, h₁, h₂, h₃, h₄, h₅, h₆, h₇, h₈, trivial⟩

theorem CBlock.length_serialize (block : CBlock) : block.serialize.length = block.getSerializeSize := by
  simp only [serialize, List.length_append, length_leBytes, writeInt, length_serializeVector CTransaction.length_serialize,
    length_serializeBytes, getSerializeSize, headerSize]
  omega

/-! ## Round trips -/

/-- Writing, reading and counting agree, on what is shorter than the position
of a stream can count. -/
structure RoundTrips {α : Type} (Valid : α → Prop) (write : α → List UInt8) (read : StreamM α) (size : α → Nat) : Prop where
  decode : ∀ a, Valid a → (write a).length < CDataStream.maxLength → ∃ s, read ⟨write a, 0⟩ = .ok a s ∧ stream.rest s = []
  size : ∀ a, Valid a → (write a).length < CDataStream.maxLength → size a = (write a).length
  encode : ∀ bytes a s, bytes.length < CDataStream.maxLength → read ⟨bytes, 0⟩ = .ok a s →
    Valid a ∧ bytes = write a ++ stream.rest s
  unique : ∀ bytes bytes' a s s', bytes.length < CDataStream.maxLength → bytes'.length < CDataStream.maxLength →
    read ⟨bytes, 0⟩ = .ok a s → read ⟨bytes', 0⟩ = .ok a s' → stream.rest s = stream.rest s' → bytes = bytes'

theorem roundTrips_of_reads {α : Type} {Valid : α → Prop} {write : α → List UInt8} {read : StreamM α} {size : α → Nat}
    (h : Reads stream Valid write read) (hsize : ∀ a, size a = (write a).length % 2 ^ 32) :
    RoundTrips Valid write read size := by
  have hok : ∀ {bytes : List UInt8}, bytes.length < CDataStream.maxLength → stream.Ok ⟨bytes, 0⟩ :=
    fun hlen => ⟨Nat.zero_le _, hlen⟩
  have hencode : ∀ bytes a s, bytes.length < CDataStream.maxLength → read ⟨bytes, 0⟩ = .ok a s →
      Valid a ∧ bytes = write a ++ stream.rest s := by
    intro bytes a s hlen hrun
    obtain ⟨ha, -, hrest⟩ := h.only (hok hlen) hrun
    exact ⟨ha, hrest⟩
  constructor
  · intro a ha hlen
    obtain ⟨s, hrun, -, hrest⟩ := h.back (hok hlen) ha (List.append_nil _).symm
    exact ⟨s, hrun, hrest⟩
  · intro a ha hlen
    rw [hsize, Nat.mod_eq_of_lt (Nat.lt_of_lt_of_le hlen (by decide))]
  · exact hencode
  · intro bytes bytes' a s s' hlen hlen' hrun hrun' hrest
    rw [(hencode bytes a s hlen hrun).2, (hencode bytes' a s' hlen' hrun').2, hrest]

/-- **The wire format of transactions and blocks is a bijection.** -/
theorem wire_roundTrips :
    RoundTrips (CTransaction.InRange MAX_SIZE) CTransaction.serialize CTransaction.unserialize CTransaction.nSerSize ∧
      RoundTrips (CBlock.InRange MAX_SIZE) CBlock.serialize CBlock.unserialize CBlock.nSerSize :=
  ⟨roundTrips_of_reads CTransaction.reads fun tx => by rw [CTransaction.nSerSize, tx.length_serialize],
    roundTrips_of_reads CBlock.reads fun block => by rw [CBlock.nSerSize, block.length_serialize]⟩

/-- A transaction of `n` inputs with scripts of `k` bytes. -/
def heavyTx (n k : Nat) : CTransaction := ⟨1, 0, List.replicate n ⟨⟨0, 0⟩, List.replicate k 0, 0⟩, [], 0⟩

theorem inRange_heavyTx {n k : Nat} (hn : n ≤ MAX_SIZE) (hk : k ≤ MAX_SIZE) : (heavyTx n k).InRange MAX_SIZE := by
  have hone : IntRange 4 1 := by decide
  have hzero : 0 < 256 ^ 4 := by decide
  refine ⟨hone, hzero, ⟨?_, fun txin htxin => ?_⟩, ⟨Nat.zero_le _, nofun⟩, hzero⟩
  · rwa [heavyTx, List.length_replicate]
  · obtain rfl := List.eq_of_mem_replicate htxin
    refine ⟨⟨Nat.pow_pos (by decide), hzero⟩, ?_, hzero⟩
    rwa [List.length_replicate]

theorem getSerializeSize_heavyTx (n k : Nat) :
    (heavyTx n k).getSerializeSize = getSizeOfCompactSize n + n * (40 + bytesSize k) + 13 := by
  simp only [CTransaction.getSerializeSize, heavyTx, List.length_replicate, List.map_replicate, List.sum_replicate_nat,
    CTxIn.getSerializeSize, List.map_nil, List.length_nil, List.sum_nil]
  have hnil : getSizeOfCompactSize 0 = 1 := rfl
  rw [hnil, Nat.add_right_comm 36, show 36 + 4 = 40 from rfl]
  omega

/-- **The size is counted in an `unsigned int`.** A transaction of four
gigabytes, each of whose scripts is as long as a count allows, has the size of
one of a few thousand bytes. -/
theorem nSerSize_heavyTx : (heavyTx 128 MAX_SIZE).InRange MAX_SIZE ∧
    (heavyTx 128 MAX_SIZE).nSerSize ≠ (heavyTx 128 MAX_SIZE).serialize.length := by
  refine ⟨inRange_heavyTx (by decide) le_rfl, ?_⟩
  have hsize : getSizeOfCompactSize 128 + 128 * (40 + bytesSize MAX_SIZE) + 13 = 4294973070 := by decide +kernel
  rw [CTransaction.length_serialize, CTransaction.nSerSize, getSerializeSize_heavyTx, hsize]
  decide +kernel

end Pinkcoin
