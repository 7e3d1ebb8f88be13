/-
The block files. A block is appended after eight bytes of header (the
network's magic and the length) and is found again by the number of its
file and its position in it; a transaction by its own position inside the
block, which follows from the sizes of what comes before it.
-/
import Pinkcoin.Types

namespace Pinkcoin

/-! ## Serialized sizes -/

def getSizeOfCompactSize (nSize : Nat) : Nat :=
  if nSize < 253 then 1 else if nSize ≤ 0xffff then 3 else if nSize ≤ 0xffffffff then 5 else 9

/-- The size of a vector of bytes. -/
def bytesSize (nBytes : Nat) : Nat := getSizeOfCompactSize nBytes + nBytes

def CTxIn.getSerializeSize (txin : CTxIn) : Nat := 36 + bytesSize txin.scriptSig.length + 4

def CTxOut.getSerializeSize (txout : CTxOut) : Nat := 8 + bytesSize txout.scriptPubKey.length

namespace CTransaction

def getSerializeSize (tx : CTransaction) : Nat :=
  4 + 4 + getSizeOfCompactSize tx.vin.length + (tx.vin.map CTxIn.getSerializeSize).sum
    + getSizeOfCompactSize tx.vout.length + (tx.vout.map CTxOut.getSerializeSize).sum + 4

theorem getSerializeSize_pos (tx : CTransaction) : 0 < tx.getSerializeSize := by
  unfold getSerializeSize
  omega

end CTransaction

namespace CBlock

/-- The size of a block with no transactions and no signature, less the two
counts: the header. -/
def headerSize : Nat := 4 + 32 + 32 + 4 + 4 + 4

def getSerializeSize (block : CBlock) : Nat :=
  headerSize + getSizeOfCompactSize block.vtx.length + (block.vtx.map CTransaction.getSerializeSize).sum
    + bytesSize block.vchBlockSig.length

/-- Where the first transaction lies in the block. -/
def firstTxOffset (block : CBlock) : Nat := headerSize + getSizeOfCompactSize block.vtx.length

/-- The transaction that starts at an offset, when the first of the list
starts at `start`. -/
def txAtOffset (offset : Nat) : List CTransaction → Nat → Option CTransaction
  | [], _ => none
  | tx :: vtx, start => if start = offset then some tx else txAtOffset offset vtx (start + tx.getSerializeSize)

/-- The offset of the transaction after `vtx` is that of `vtx` and its sizes. -/
theorem txAtOffset_append (pre : List CTransaction) (tx : CTransaction) (post : List CTransaction) (start : Nat) :
    txAtOffset (start + (pre.map CTransaction.getSerializeSize).sum) (pre ++ tx :: post) start = some tx := by
  induction pre generalizing start with
  | nil => simp [txAtOffset]
  | cons t pre ih =>
    have hpos := t.getSerializeSize_pos
    have hne : start ≠ start + ((t :: pre).map CTransaction.getSerializeSize).sum := by
      simp only [List.map_cons, List.sum_cons]
      omega
    rw [List.cons_append, txAtOffset, if_neg hne, List.map_cons, List.sum_cons, ← Nat.add_assoc, ih]

end CBlock

/-! ## The files -/

/-- The block files: the blocks by file and position, the lengths of the
files, and the file that is written next. Every block ends inside its file. -/
structure BlockFiles where
  blocks : Map (Nat × Nat) CBlock
  fileSize : Map Nat Nat
  nCurrentBlockFile : Nat
  ends_inside : ∀ {nFile nBlockPos : Nat} {block : CBlock}, blocks.lookup (nFile, nBlockPos) = some block →
    nBlockPos + block.getSerializeSize ≤ (fileSize.lookup nFile).getD 0

namespace BlockFiles

def empty : BlockFiles := ⟨∅, ∅, 1, by simp⟩

variable (files : BlockFiles)

def sizeOf (nFile : Nat) : Nat := (files.fileSize.lookup nFile).getD 0

/-- FAT32 files stay below 2 GB. -/
def maxAppendSize : Nat := 0x7F000000 - 0x02000000

/-- `AppendBlockFile`: the first file from the current one on that is not
full. A full file is one of `fileSize`, so there are at most as many. -/
def appendBlockFile : Nat → Nat → Nat
  | 0, nFile => nFile
  | fuel + 1, nFile => if files.sizeOf nFile < maxAppendSize then nFile else appendBlockFile fuel (nFile + 1)

/-- The file the next block goes to. -/
def nextFile : Nat := files.appendBlockFile files.fileSize.keys.length files.nCurrentBlockFile

/-- The position the next block gets: after the magic and the length. -/
def nextPos : Nat := files.sizeOf files.nextFile + 4 + 4

/-- `WriteToDisk`. -/
def append (block : CBlock) : BlockFiles where
  blocks := files.blocks.insert (files.nextFile, files.nextPos) block
  fileSize := files.fileSize.insert files.nextFile (files.nextPos + block.getSerializeSize)
  nCurrentBlockFile := files.nextFile
  ends_inside := by
    intro nFile nBlockPos b hb
    by_cases hf : nFile = files.nextFile
    · subst hf
      by_cases hp : nBlockPos = files.nextPos
      · subst hp
        obtain rfl : block = b := by simpa using hb
        simp
      · rw [AList.lookup_insert_ne (by simp [hp])] at hb
        have := files.ends_inside hb
        simp only [AList.lookup_insert, Option.getD_some, nextPos, sizeOf]
        omega
    · rw [AList.lookup_insert_ne (by simp [hf])] at hb
      rw [AList.lookup_insert_ne hf]
      exact files.ends_inside hb

/-- The block at a position. -/
def block (nFile nBlockPos : Nat) : Option CBlock := files.blocks.lookup (nFile, nBlockPos)

/-- The transaction at a position. -/
def tx (pos : CDiskTxPos) : Option CTransaction := do
  let block ← files.block pos.nFile pos.nBlockPos
  if pos.nBlockPos ≤ pos.nTxPos then
    CBlock.txAtOffset (pos.nTxPos - pos.nBlockPos) block.vtx block.firstTxOffset
  else none

variable {files}

@[simp] theorem block_append_self (b : CBlock) : (files.append b).block files.nextFile files.nextPos = some b := by
  simp [append, block]

/-- The position of the next block holds none yet. -/
theorem block_next : files.block files.nextFile files.nextPos = none := by
  by_contra hn
  obtain ⟨b, hb⟩ := Option.ne_none_iff_exists'.mp hn
  have := files.ends_inside hb
  simp only [nextPos, sizeOf] at this
  omega

/-- A block on disk stays where it is. -/
theorem block_append {nFile nBlockPos : Nat} {b c : CBlock} (h : files.block nFile nBlockPos = some c) :
    (files.append b).block nFile nBlockPos = some c := by
  have hne : (nFile, nBlockPos) ≠ (files.nextFile, files.nextPos) := fun he => by
    obtain ⟨rfl, rfl⟩ := Prod.mk.inj he
    simp [block_next] at h
  rw [block, append, AList.lookup_insert_ne hne]
  exact h

/-- A transaction of a block on disk is read at the position its
predecessors' sizes give. -/
theorem tx_of_block {nFile nBlockPos : Nat} {b : CBlock} (h : files.block nFile nBlockPos = some b)
    {pre : List CTransaction} {tx : CTransaction} {post : List CTransaction} (hv : b.vtx = pre ++ tx :: post) :
    files.tx ⟨nFile, nBlockPos, nBlockPos + b.firstTxOffset + (pre.map CTransaction.getSerializeSize).sum⟩ = some tx := by
  have hle : nBlockPos ≤ nBlockPos + b.firstTxOffset + (pre.map CTransaction.getSerializeSize).sum := by omega
  have hsub : nBlockPos + b.firstTxOffset + (pre.map CTransaction.getSerializeSize).sum - nBlockPos =
      b.firstTxOffset + (pre.map CTransaction.getSerializeSize).sum := by omega
  simp [BlockFiles.tx, h, hle, hsub, hv, CBlock.txAtOffset_append]

end BlockFiles

end Pinkcoin
