/-
What is written is read back, off any stream whose length an `unsigned int`
can hold: here nothing is said of other bytes, so that no read has to be
small against the position.
-/
import Pinkcoin.Wire

namespace Pinkcoin.WireBack

open CScript (leBytes leNat length_leBytes)
open CDataStream (blockSize)
open Codec StateError

/-- A stream whose end the position reaches without wrapping. -/
def wide : Stream CDataStream where
  rest s := s.vch.drop s.nReadPos
  Ok s := s.nReadPos ≤ s.vch.length ∧ s.vch.length < 2 ^ 32

theorem recovers_read (l : List UInt8) : Recovers wide l (CDataStream.read l.length) l := by
  constructor
  intro s more hs hrest
  have hlen := congrArg List.length hrest
  simp only [wide, List.length_drop, List.length_append] at hlen hrest hs
  have hnext : (s.nReadPos + l.length) % 2 ^ 32 = s.nReadPos + l.length := Nat.mod_eq_of_lt (by omega)
  have htake : (s.vch.drop s.nReadPos).take l.length = l := by rw [hrest, List.take_left]
  by_cases hend : s.vch.length ≤ s.nReadPos + l.length
  · have hmore : more = [] := List.length_eq_zero_iff.mp (by omega)
    refine ⟨⟨[], 0⟩, ?_, ⟨le_rfl, by decide⟩, hmore.symm⟩
    rw [CDataStream.read, hnext, if_pos hend, if_neg (by omega), htake]
  · refine ⟨⟨s.vch, s.nReadPos + l.length⟩, ?_, ⟨by simp only; omega, hs.2⟩, ?_⟩
    · rw [CDataStream.read, hnext, if_neg hend, htake]
    · show s.vch.drop (s.nReadPos + l.length) = more
      rw [← List.drop_drop, hrest, List.drop_left]

/-! ## Numbers -/

theorem recovers_readUInt {k n : Nat} (h : n < 256 ^ k) : Recovers wide (leBytes k n) (readUInt k) n := by
  have hread := (recovers_read (leBytes k n)).map (g := leNat)
  rwa [leNat_leBytes, Nat.mod_eq_of_lt h, length_leBytes] at hread

theorem recovers_readInt {k : Nat} {n : Int} (hpos : 0 < k) (hk : k ≤ blockSize) (h : IntRange k n) :
    Recovers wide (writeInt k n) (readInt k) n := by
  have hlen : (writeInt k n).length = k := length_leBytes _ _
  have hread := (recovers_read (writeInt k n)).map (g := fun b => Int.bmod (leNat b) (256 ^ k))
  rw [hlen] at hread
  -- the number that is read is the one the reader of short streams finds
  have hshort : CDataStream.stream.Ok ⟨writeInt k n, 0⟩ :=
    ⟨Nat.zero_le _, by rw [hlen]; exact Nat.lt_of_le_of_lt hk (by decide)⟩
  have hwide : wide.Ok ⟨writeInt k n, 0⟩ := ⟨Nat.zero_le _, by rw [hlen]; exact Nat.lt_of_le_of_lt hk (by decide)⟩
  obtain ⟨s, hrun, -⟩ := (reads_readInt hpos hk).back hshort h (List.append_nil _).symm
  obtain ⟨s', hrun', -⟩ := hread.back hwide (List.append_nil _).symm
  have heq := EStateM.Result.ok.inj (hrun.symm.trans hrun')
  rw [← heq.1] at hread
  exact hread

/-! ## Counts -/

section Reject

variable {σ ε α : Type} {S : Stream σ} {bytes : List UInt8} {p : Prop} [Decidable p] {e : ε} {a : α}

theorem recovers_reject {f : Unit → EStateM ε σ α} (hp : ¬ p) (hf : Recovers S bytes (f ()) a) :
    Recovers S bytes (rejectIf p e >>= f) a := by
  constructor
  intro s more hs hrest
  obtain ⟨s', hrun, h⟩ := hf.back hs hrest
  refine ⟨s', ?_, h⟩
  rw [rejectIf, if_neg hp]
  exact hrun

theorem refuses_reject {f : Unit → EStateM ε σ α} (hp : p) : Refuses S bytes (rejectIf p e >>= f) e := by
  constructor
  intro s more hs hrest
  refine ⟨s, ?_⟩
  rw [rejectIf, if_pos hp]
  rfl

end Reject

/-- The bytes after the first one of a count. -/
theorem recovers_readSize {n : Nat} (h : n < 256 ^ 8) : Recovers wide (sizeBytes n) (readSize (sizeTag n)) n := by
  have hcheck : ∀ {k low : Nat} (text : String), n < 256 ^ k → low ≤ n →
      Recovers wide (leBytes k n) (do let xSize ← readUInt k; rejectIf (xSize < low) text; pure xSize) n := by
    intro k low text hlt hlow
    have hread : Recovers wide (leBytes k n ++ [])
        (do let xSize ← readUInt k; rejectIf (xSize < low) text; pure xSize) n :=
      (recovers_readUInt hlt).bind (recovers_reject (Nat.not_lt.mpr hlow) recovers_pure)
    rwa [List.append_nil] at hread
  obtain ⟨hn, htag, hbytes⟩ | ⟨hn, htag, hbytes⟩ | ⟨hn, htag, hbytes⟩ | ⟨hn, htag, hbytes⟩ := size_cases n
  · rw [htag, hbytes, readSize, if_pos hn]
    exact recovers_pure
  · rw [htag, hbytes]
    exact hcheck _ hn.2 hn.1
  · rw [htag, hbytes]
    exact hcheck _ hn.2 hn.1
  · rw [htag, hbytes]
    exact hcheck _ h hn

theorem recovers_readCompactSize {n : Nat} (h : n ≤ MAX_SIZE) :
    Recovers wide (writeCompactSize n) readCompactSize n := by
  have hlt : n < 256 ^ 8 := Nat.lt_of_le_of_lt h (by decide)
  have hread : Recovers wide (leBytes 1 (sizeTag n) ++ (sizeBytes n ++ [])) readCompactSize n :=
    (recovers_readUInt (sizeTag_lt n)).bind ((recovers_readSize hlt).bind
      (recovers_reject (Nat.not_lt.mpr h) recovers_pure))
  rwa [List.append_nil, ← writeCompactSize_eq] at hread

/-- A count over `MAX_SIZE` is not read. -/
theorem refuses_readCompactSize {n : Nat} (h : MAX_SIZE < n) (hlt : n < 256 ^ 8) :
    Refuses wide (writeCompactSize n) readCompactSize "ReadCompactSize() : size too large" := by
  have hread : Refuses wide (leBytes 1 (sizeTag n) ++ (sizeBytes n ++ [])) readCompactSize
      "ReadCompactSize() : size too large" :=
    (recovers_readUInt (sizeTag_lt n)).refuses ((recovers_readSize hlt).refuses (refuses_reject h))
  rwa [List.append_nil, ← writeCompactSize_eq] at hread

/-! ## Vectors -/

theorem recovers_readBlocks (fuel : Nat) (l : List UInt8) (hfuel : l.length ≤ fuel) :
    Recovers wide l (readBlocks fuel l.length) l := by
  induction fuel generalizing l with
  | zero =>
    obtain rfl := List.length_eq_zero_iff.mp (Nat.le_zero.mp hfuel)
    exact recovers_pure
  | succ fuel ih =>
    unfold readBlocks
    split
    next hzero =>
      obtain rfl := List.length_eq_zero_iff.mp hzero
      exact recovers_pure
    next hleft =>
      obtain ⟨k, hk⟩ : ∃ k, min l.length blockSize = k := ⟨_, rfl⟩
      have hblock : 0 < blockSize := by decide
      have htake : (l.take k).length = k := by rw [List.length_take]; omega
      have hdrop : (l.drop k).length = l.length - k := List.length_drop
      rw [hk]
      have hfirst := recovers_read (l.take k)
      rw [htake] at hfirst
      have hrest := ih (l.drop k) (by omega)
      rw [hdrop] at hrest
      have hread := hfirst.bind (f := fun blk => readBlocks fuel (l.length - k) >>= fun v => pure (blk ++ v)) hrest.map
      rwa [List.take_append_drop] at hread

theorem recovers_unserializeBytes {v : List UInt8} (h : v.length ≤ MAX_SIZE) :
    Recovers wide (serializeBytes v) unserializeBytes v :=
  (recovers_readCompactSize h).bind (recovers_readBlocks v.length v le_rfl)

theorem recovers_readMany {α : Type} {write : α → List UInt8} {read : StreamM α} (l : List α)
    (h : ∀ a ∈ l, Recovers wide (write a) read a) : Recovers wide (writeAll write l) (readMany read l.length) l := by
  induction l with
  | nil => exact recovers_pure
  | cons a l ih =>
    have hrest := ih fun b hb => h b (List.mem_cons_of_mem _ hb)
    exact (h a List.mem_cons_self).bind hrest.map

theorem recovers_unserializeVector {α : Type} {write : α → List UInt8} {read : StreamM α} {v : List α}
    (hlen : v.length ≤ MAX_SIZE) (h : ∀ a ∈ v, Recovers wide (write a) read a) :
    Recovers wide (serializeVector write v) (unserializeVector read) v :=
  (recovers_readCompactSize hlen).bind (recovers_readMany v h)

/-! ## Transactions -/

theorem recovers_COutPoint {o : COutPoint} (h : o.InRange) : Recovers wide o.serialize COutPoint.unserialize o := by
  have hlen : o.serialize.length = 36 := o.length_serialize
  have hread := (recovers_read o.serialize).map (g := fun b => COutPoint.mk (leNat (b.take 32)) (leNat (b.drop 32)))
  rw [hlen] at hread
  have hfields : COutPoint.mk (leNat (o.serialize.take 32)) (leNat (o.serialize.drop 32)) = o := by
    rw [COutPoint.serialize, List.take_left' (length_leBytes _ _), List.drop_left' (length_leBytes _ _), leNat_leBytes,
      leNat_leBytes, Nat.mod_eq_of_lt h.hash, Nat.mod_eq_of_lt h.n]
  rw [hfields] at hread
  exact hread

theorem recovers_CTxIn {txin : CTxIn} (h : txin.InRange MAX_SIZE) :
    Recovers wide txin.serialize CTxIn.unserialize txin :=
  (recovers_COutPoint h.prevout).bind ((recovers_unserializeBytes h.scriptSig).bind (recovers_readUInt h.nSequence).map)

theorem recovers_CTxOut {txout : CTxOut} (h : txout.InRange MAX_SIZE) :
    Recovers wide txout.serialize CTxOut.unserialize txout :=
  (recovers_readInt (by decide) (by decide) h.nValue).bind (recovers_unserializeBytes h.scriptPubKey).map

theorem recovers_CTransaction {tx : CTransaction} (h : tx.InRange MAX_SIZE) :
    Recovers wide tx.serialize CTransaction.unserialize tx :=
  (recovers_readInt (by decide) (by decide) h.nVersion).bind ((recovers_readUInt h.nTime).bind
    ((recovers_unserializeVector h.vin.1 fun txin htxin => recovers_CTxIn (h.vin.2 txin htxin)).bind
      ((recovers_unserializeVector h.vout.1 fun txout htxout => recovers_CTxOut (h.vout.2 txout htxout)).bind
        (recovers_readUInt h.nLockTime).map)))

end Pinkcoin.WireBack
