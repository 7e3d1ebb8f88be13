/-
A block file as bytes: what `WriteToDisk` appends, and what is read at the
position the index has of a transaction.
-/
import Pinkcoin.RoundTrip
import Pinkcoin.Wire

namespace Pinkcoin

open CScript (leBytes length_leBytes)
open CDataStream (stream)
open Codec StateError

/-! ## Writing -/

namespace CBlock

variable (start : Bytes 4)

/-- `WriteToDisk` on the file `AppendBlockFile` opens: the bytes of the file
after it, and `nBlockPosRet`. -/
def appendTo (file : List UInt8) (block : CBlock) : List UInt8 × Nat :=
  let file := file ++ (start.toList ++ leBytes 4 block.nSerSize)
  (file ++ block.serialize, file.length)

/-- Blocks that are written later. Where `AppendBlockFile` finds the file full
it goes to the next one. -/
def writeLater : List CBlock → List UInt8 → List UInt8
  | [], file => file
  | block :: blocks, file => writeLater blocks (if file.length < BlockFiles.maxAppendSize then (block.appendTo start file).1 else file)

/-- `CBlock()`. -/
def init : CBlock := ⟨⟨1, 0, 0, 0, 0, 0⟩, [], []⟩

variable {start} {file : List UInt8} {block : CBlock}

theorem length_appendTo : (block.appendTo start file).1.length = file.length + 8 + block.getSerializeSize := by
  simp [appendTo, length_leBytes, length_serialize]
  omega

/-- Later blocks come behind. -/
theorem writeLater_prefix (blocks : List CBlock) : file <+: writeLater start blocks file := by
  induction blocks generalizing file with
  | nil => exact List.prefix_rfl
  | cons b blocks ih =>
    refine List.IsPrefix.trans ?_ ih
    split
    · simp [appendTo, List.append_assoc]
    · exact List.prefix_rfl

/-- A block file stays below 2 GB. -/
theorem length_writeLater {blocks : List CBlock} (hfile : file.length < 0x7F000000)
    (hblocks : ∀ b ∈ blocks, b.getSerializeSize ≤ MAX_BLOCK_SIZE) : (writeLater start blocks file).length < 0x7F000000 := by
  induction blocks generalizing file with
  | nil => exact hfile
  | cons b blocks ih =>
    refine ih ?_ fun b' hb' => hblocks b' (by simp [hb'])
    split
    next hroom =>
      have hb := hblocks b (by simp)
      rw [length_appendTo]
      simp only [BlockFiles.maxAppendSize, MAX_BLOCK_SIZE] at hroom hb
      omega
    next => exact hfile

end CBlock

/-- The position of the next block is the one its bytes get. -/
theorem BlockFiles.nextPos_eq {files : BlockFiles} {start : Bytes 4} {file : List UInt8} {block : CBlock}
    (hfile : file.length = files.sizeOf files.nextFile) : files.nextPos = (block.appendTo start file).2 := by
  simp [CBlock.appendTo, nextPos, hfile, length_leBytes]

/-! ## Reading -/

/-- `CTransaction::ReadFromDisk`: the file is read from `nTxPos` on. -/
def CTransaction.readFromDisk (file : List UInt8) (pos : CDiskTxPos) : Except String CTransaction :=
  match CTransaction.unserialize ⟨file, pos.nTxPos⟩ with
  | .ok tx _ => .ok tx
  | .error _ _ => .error "CTransaction::ReadFromDisk() : deserialize or I/O error"

theorem CTransaction.readFromDisk_eq {file more : List UInt8} {pos : CDiskTxPos} {tx : CTransaction} (htx : tx.InRange MAX_SIZE)
    (hlen : file.length < 0x7F000000) (hmore : file.drop pos.nTxPos = tx.serialize ++ more) : readFromDisk file pos = .ok tx := by
  have hinside : pos.nTxPos ≤ file.length := by
    have hpos := tx.getSerializeSize_pos
    have hcount := congrArg List.length hmore
    rw [List.length_drop, List.length_append, length_serialize] at hcount
    omega
  have hok : stream.Ok ⟨file, pos.nTxPos⟩ := by
    refine ⟨hinside, ?_⟩
    have hmax : 0x7F000000 < CDataStream.maxLength := by decide
    exact lt_trans hlen hmax
  obtain ⟨s', hread, -⟩ := CTransaction.reads.back hok htx hmore
  rw [readFromDisk, hread]

/-- Where each element takes a byte at least, there are no more of them than bytes. -/
theorem length_le_sum_map {α : Type} (size : α → Nat) (hpos : ∀ a, 0 < size a) (l : List α) : l.length ≤ (l.map size).sum := by
  induction l with
  | nil => simp
  | cons a l ih =>
    have ha := hpos a
    simp only [List.length_cons, List.map_cons, List.sum_cons]
    omega

/-- The vectors of the transactions of a block are shorter than the block. -/
theorem CBlock.InRange.of_size {block : CBlock} (h : block.InRange SIZE_MAX) (hsize : block.getSerializeSize ≤ MAX_BLOCK_SIZE) :
    ∀ tx ∈ block.vtx, tx.InRange MAX_SIZE := by
  intro tx htx
  have hsmall : MAX_BLOCK_SIZE ≤ MAX_SIZE := by decide
  have hsum : tx.getSerializeSize ≤ (block.vtx.map CTransaction.getSerializeSize).sum := List.le_sum_of_mem (List.mem_map_of_mem htx)
  have htx' : tx.getSerializeSize ≤ MAX_BLOCK_SIZE := by
    simp only [getSerializeSize] at hsize
    omega
  obtain ⟨hversion, htime, ⟨-, hvin⟩, ⟨-, hvout⟩, hlock⟩ := h.vtx.2 tx htx
  have hins : (tx.vin.map CTxIn.getSerializeSize).sum ≤ MAX_BLOCK_SIZE := by
    simp only [CTransaction.getSerializeSize] at htx'
    omega
  have houts : (tx.vout.map CTxOut.getSerializeSize).sum ≤ MAX_BLOCK_SIZE := by
    simp only [CTransaction.getSerializeSize] at htx'
    omega
  have hinCount := length_le_sum_map CTxIn.getSerializeSize (fun txin => by simp [CTxIn.getSerializeSize]) tx.vin
  have houtCount := length_le_sum_map CTxOut.getSerializeSize (fun txout => by simp [CTxOut.getSerializeSize]) tx.vout
  refine ⟨hversion, htime, ⟨by omega, fun txin htxin => ?_⟩, ⟨by omega, fun txout htxout => ?_⟩, hlock⟩
  · obtain ⟨hprevout, -, hsequence⟩ := hvin txin htxin
    have hle : txin.getSerializeSize ≤ (tx.vin.map CTxIn.getSerializeSize).sum := List.le_sum_of_mem (List.mem_map_of_mem htxin)
    refine ⟨hprevout, ?_, hsequence⟩
    simp only [CTxIn.getSerializeSize, bytesSize] at hle
    omega
  · obtain ⟨hvalue, -⟩ := hvout txout htxout
    have hle : txout.getSerializeSize ≤ (tx.vout.map CTxOut.getSerializeSize).sum := List.le_sum_of_mem (List.mem_map_of_mem htxout)
    refine ⟨hvalue, ?_⟩
    simp only [CTxOut.getSerializeSize, bytesSize] at hle
    omega

theorem exists_ledgerTx (P : Params) (nFile nBlockPos nTxPos : Nat) {vtx : List CTransaction} {tx : CTransaction} (h : tx ∈ vtx) :
    ∃ t ∈ ledgerTxs P nFile nBlockPos vtx nTxPos, Ledger.Tx.id t = tx.getHash P := by
  have hids : tx.getHash P ∈ (ledgerTxs P nFile nBlockPos vtx nTxPos).map Ledger.Tx.id := by
    rw [ledgerTxs_ids]
    exact List.mem_map_of_mem h
  obtain ⟨t, ht, hid⟩ := List.mem_map.mp hids
  exact ⟨t, ht, hid⟩

/-- What lies in the file from a transaction of the block on. -/
theorem CBlock.drop_appendTo (start : Bytes 4) (file rest : List UInt8) {block : CBlock} {pre post : List CTransaction}
    {tx : CTransaction} (hvtx : block.vtx = pre ++ tx :: post) :
    ∃ more, ((block.appendTo start file).1 ++ rest).drop
      ((block.appendTo start file).2 + block.firstTxOffset + (pre.map CTransaction.getSerializeSize).sum) = tx.serialize ++ more := by
  obtain ⟨front, hfront⟩ : ∃ front, file ++ (start.toList ++ leBytes 4 block.nSerSize) = front := ⟨_, rfl⟩
  obtain ⟨header, hheader⟩ : ∃ header, writeInt 4 block.nVersion ++ (leBytes 32 block.hashPrevBlock ++ (leBytes 32 block.hashMerkleRoot ++
    (leBytes 4 block.nTime ++ (leBytes 4 block.nBits ++ leBytes 4 block.nNonce)))) = header := ⟨_, rfl⟩
  have hserialize : block.serialize = (header ++ writeCompactSize block.vtx.length) ++ (writeAll CTransaction.serialize pre ++
      (tx.serialize ++ (writeAll CTransaction.serialize post ++ serializeBytes block.vchBlockSig))) := by
    rw [serialize, ← hheader, serializeVector, hvtx]
    simp [writeAll]
  have hoffset : (header ++ writeCompactSize block.vtx.length).length = block.firstTxOffset := by
    rw [List.length_append, length_writeCompactSize, ← hheader]
    simp [writeInt, length_leBytes, firstTxOffset, headerSize]
  have hpre : (writeAll CTransaction.serialize pre).length = (pre.map CTransaction.getSerializeSize).sum := by
    simp [length_writeAll, CTransaction.length_serialize]
  refine ⟨(writeAll CTransaction.serialize post ++ serializeBytes block.vchBlockSig) ++ rest, ?_⟩
  simp only [appendTo, hfront]
  rw [hserialize, List.append_assoc, ← List.drop_drop, ← List.drop_drop, List.drop_left, List.append_assoc, List.drop_left' hoffset,
    List.append_assoc, List.drop_left' hpre, List.append_assoc]

/-- **The index has the transactions where they are.** A block is appended to
its file, connected, and more blocks are appended: each of its transactions is
read at the position of its record. -/
theorem CBlock.readFromDisk_connected {P : Params} {env : Env} {s s' : Node} {block : CBlock} {pindex pindex' : CBlockIndex}
    (start : Bytes 4) (file : List UInt8) (later : List CBlock) (hroom : file.length < BlockFiles.maxAppendSize)
    (hlater : ∀ b ∈ later, b.getSerializeSize ≤ MAX_BLOCK_SIZE) (hrange : block.InRange SIZE_MAX)
    (hpos : pindex.nBlockPos = (block.appendTo start file).2) (hrun : block.connectBlock P env pindex false s = .ok pindex' s')
    (i : Nat) (hi : i < block.vtx.length) :
    ∃ txindex pos, s'.txdb.readTxIndex ((block.vtx.get ⟨i, hi⟩).getHash P) = some txindex ∧ txindex.pos = some pos ∧
      pos.nFile = pindex.nFile ∧ pos.nBlockPos = pindex.nBlockPos ∧
      CTransaction.readFromDisk (writeLater start later (block.appendTo start file).1) pos = .ok (block.vtx.get ⟨i, hi⟩) := by
  obtain ⟨acc, hchecked, -, rfl⟩ := connectBlock_ok hrun
  have hsize : block.getSerializeSize ≤ MAX_BLOCK_SIZE := by
    have hcheck := hchecked.checkBlock
    simp only [checkBlock, except_bind_ok, except_rejectIf_ok] at hcheck
    obtain ⟨-, hlimits, -⟩ := hcheck
    omega
  have hmem : block.vtx.get ⟨i, hi⟩ ∈ block.vtx := List.get_mem _ _
  -- the record in the index is that of a transaction of the block with this hash
  obtain ⟨t, ht, hid⟩ := exists_ledgerTx P pindex.nFile pindex.nBlockPos (pindex.nBlockPos + block.firstTxOffset) hmem
  have hsome : (connected P env s block pindex' acc).txdb.book ((block.vtx.get ⟨i, hi⟩).getHash P) ≠ none := by
    rw [hchecked.book_connected]
    exact Ledger.connectAll_ne_none.mpr (.inr ⟨t, ht, hid⟩)
  obtain ⟨e, he⟩ := Option.ne_none_iff_exists'.mp hsome
  obtain ⟨txindex, hread, rfl⟩ := Option.map_eq_some_iff.mp he
  rw [hchecked.book_connected] at he
  rcases Ledger.shape_connectAll he with ⟨t', ht', hid', hshape⟩ | ⟨hnone, -⟩
  · obtain ⟨pre, tx, post, hvtx, rfl⟩ := mem_ledgerTxs ht'
    have htx : tx = block.vtx.get ⟨i, hi⟩ := by
      refine List.inj_on_of_nodup_map hchecked.wellFormed.distinct ?_ hmem hid'
      simp [hvtx]
    have hpre : (block.appendTo start file).1 <+: writeLater start later (block.appendTo start file).1 :=
      writeLater_prefix later
    obtain ⟨rest, hrest⟩ := hpre
    obtain ⟨more, hmore⟩ := drop_appendTo start file rest hvtx
    have hlen : (writeLater start later (block.appendTo start file).1).length < 0x7F000000 := by
      refine length_writeLater ?_ hlater
      rw [length_appendTo]
      simp only [BlockFiles.maxAppendSize, MAX_BLOCK_SIZE] at hroom hsize
      omega
    refine ⟨txindex, ⟨pindex.nFile, pindex.nBlockPos, pindex.nBlockPos + block.firstTxOffset + (pre.map CTransaction.getSerializeSize).sum⟩,
      hread, ?_, rfl, rfl, ?_⟩
    · exact congrArg Prod.fst hshape
    · rw [← htx]
      obtain ⟨nTxPos, hnTxPos⟩ : ∃ nTxPos, pindex.nBlockPos + block.firstTxOffset + (pre.map CTransaction.getSerializeSize).sum = nTxPos := ⟨_, rfl⟩
      rw [← hrest, hnTxPos]
      rw [← hpos, hnTxPos] at hmore
      rw [← hrest] at hlen
      refine CTransaction.readFromDisk_eq (hrange.of_size hsize tx (by simp [hvtx])) hlen hmore
  · exact absurd hid (hnone t ht)

theorem inRange_mintingBlock : Sample.mintingBlock.InRange SIZE_MAX := by
  have htxs : ∀ tx ∈ Sample.mintingBlock.vtx, IntRange 4 tx.nVersion ∧ tx.nTime < 256 ^ 4 ∧ tx.nLockTime < 256 ^ 4 ∧
      tx.vin.length ≤ SIZE_MAX ∧ tx.vout.length ≤ SIZE_MAX ∧
      (∀ txin ∈ tx.vin, txin.prevout.hash < 256 ^ 32 ∧ txin.prevout.n < 256 ^ 4 ∧ txin.scriptSig.length ≤ SIZE_MAX ∧ txin.nSequence < 256 ^ 4) ∧
      ∀ txout ∈ tx.vout, IntRange 8 txout.nValue ∧ txout.scriptPubKey.length ≤ SIZE_MAX := by decide +kernel
  refine ⟨by decide +kernel, by decide +kernel, by decide +kernel, by decide +kernel, by decide +kernel, by decide +kernel,
    ⟨by decide +kernel, fun tx htx => ?_⟩, by decide +kernel⟩
  obtain ⟨hversion, htime, hlock, hin, hout, hins, houts⟩ := htxs tx htx
  refine ⟨hversion, htime, ⟨hin, fun txin htxin => ?_⟩, ⟨hout, fun txout htxout => ?_⟩, hlock⟩
  · obtain ⟨hhash, hn, hscript, hsequence⟩ := hins txin htxin
    exact ⟨⟨hhash, hn⟩, hscript, hsequence⟩
  · obtain ⟨hvalue, hscript⟩ := houts txout htxout
    exact ⟨hvalue, hscript⟩

/-- The three transactions of a block that is connected to a chain of eleven,
with a block behind it in the file. -/
theorem CBlock.readFromDisk_connected_sample :
    let P := Sample.params true
    let disk := Sample.matured.disk
    let s := { Sample.matured with disk := disk.append Sample.mintingBlock }
    let pindex := { CBlockIndex.ofBlock disk.nextFile disk.nextPos Sample.mintingBlock with
      phashBlock := 112, pprev := some 111, nHeight := 12 }
    let start : Bytes 4 := ⟨[0x02, 0x04, 0x05, 0x0d], rfl⟩
    let file := (Sample.mintingBlock.appendTo start (List.replicate (disk.sizeOf disk.nextFile) 0)).1
    ∃ pindex₁ s₁, Sample.mintingBlock.connectBlock P Sample.env pindex false s = .ok pindex₁ s₁ ∧
      ∀ (i : Nat) (hi : i < Sample.mintingBlock.vtx.length), ∃ txindex pos,
        s₁.txdb.readTxIndex ((Sample.mintingBlock.vtx.get ⟨i, hi⟩).getHash P) = some txindex ∧ txindex.pos = some pos ∧
        pos.nFile = pindex.nFile ∧ pos.nBlockPos = pindex.nBlockPos ∧
        CTransaction.readFromDisk (writeLater start [Sample.chainBlock 12] file) pos = .ok (Sample.mintingBlock.vtx.get ⟨i, hi⟩) := by
  intro P disk s pindex start file
  obtain ⟨pindex₁, s₁, h₁⟩ := exists_of_isOk (r := Sample.mintingBlock.connectBlock P Sample.env pindex false s)
    (by decide +kernel)
  have hpos : pindex.nBlockPos = (Sample.mintingBlock.appendTo start (List.replicate (disk.sizeOf disk.nextFile) 0)).2 :=
    BlockFiles.nextPos_eq List.length_replicate
  refine ⟨pindex₁, s₁, h₁, ?_⟩
  refine readFromDisk_connected start (List.replicate (disk.sizeOf disk.nextFile) 0) [Sample.chainBlock 12] ?_ ?_ inRange_mintingBlock hpos h₁
  · rw [List.length_replicate]
    decide +kernel
  · decide +kernel

end Pinkcoin
