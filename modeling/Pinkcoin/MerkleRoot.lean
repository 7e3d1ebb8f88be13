/-
The merkle root commits to the list of transaction hashes. A last hash
without a partner is paired with itself, so lists of different length can
have one root; blocks whose hashes are distinct cannot, because then the
nodes of every level are distinct.
-/
import Pinkcoin.CheckBlock
import Pinkcoin.AcceptBlock

namespace Pinkcoin

open StateError

/-! ## One level -/

/-- The pairs that are hashed to make the next level. -/
def merklePairs : List Uint256 → List (Uint256 × Uint256)
  | [] => []
  | [a] => [(a, a)]
  | a :: b :: rest => (a, b) :: merklePairs rest

variable {P : Params} {l l' : List Uint256}

theorem merkleUp_eq : (l : List Uint256) → merkleUp P l = (merklePairs l).map fun p => P.hashPair p.1 p.2
  | [] => rfl
  | [_] => rfl
  | _ :: _ :: rest => by rw [merkleUp, merkleUp_eq rest]; rfl

theorem fst_merklePairs_sublist : (l : List Uint256) → ((merklePairs l).map Prod.fst).Sublist l
  | [] => .slnil
  | [_] => List.Sublist.refl _
  | _ :: _ :: rest => ((fst_merklePairs_sublist rest).cons _).cons_cons _

/-- Distinct nodes have distinct nodes above them. -/
theorem nodup_merkleUp (hinj : ∀ p ∈ merklePairs l, ∀ q ∈ merklePairs l, P.hashPair p.1 p.2 = P.hashPair q.1 q.2 → p = q)
    (hnd : l.Nodup) : (merkleUp P l).Nodup := by
  rw [merkleUp_eq]
  have hpairs : (merklePairs l).Nodup := List.Nodup.of_map Prod.fst (hnd.sublist (fst_merklePairs_sublist l))
  exact List.Nodup.map_on hinj hpairs

/-- Lists of distinct nodes with the same pairs are the same. -/
theorem merklePairs_inj : {l l' : List Uint256} → l.Nodup → l'.Nodup → merklePairs l = merklePairs l' → l = l'
  | [], [], _, _, _ => rfl
  | [], [_], _, _, h => by simp [merklePairs] at h
  | [], _ :: _ :: _, _, _, h => by simp [merklePairs] at h
  | [_], [], _, _, h => by simp [merklePairs] at h
  | _ :: _ :: _, [], _, _, h => by simp [merklePairs] at h
  | [a], [b], _, _, h => by
    simp only [merklePairs, List.cons.injEq, Prod.mk.injEq, and_self, and_true] at h
    rw [h]
  | [a], c :: d :: rest, _, hnd, h => by
    simp only [merklePairs, List.cons.injEq, Prod.mk.injEq] at h
    obtain ⟨⟨rfl, rfl⟩, -⟩ := h
    simp at hnd
  | a :: b :: rest, [c], hnd, _, h => by
    simp only [merklePairs, List.cons.injEq, Prod.mk.injEq] at h
    obtain ⟨⟨rfl, rfl⟩, -⟩ := h
    simp at hnd
  | a :: b :: rest, c :: d :: rest', hnd, hnd', h => by
    simp only [merklePairs, List.cons.injEq, Prod.mk.injEq] at h
    obtain ⟨⟨rfl, rfl⟩, h⟩ := h
    rw [merklePairs_inj hnd.of_cons.of_cons hnd'.of_cons.of_cons h]

/-- Two levels of distinct nodes with the same level above are the same. -/
theorem merkleUp_inj (hinj : ∀ p ∈ merklePairs l, ∀ q ∈ merklePairs l', P.hashPair p.1 p.2 = P.hashPair q.1 q.2 → p = q)
    (hnd : l.Nodup) (hnd' : l'.Nodup) (h : merkleUp P l = merkleUp P l') : l = l' := by
  rw [merkleUp_eq, merkleUp_eq] at h
  refine merklePairs_inj hnd hnd' (List.ext_getElem ?_ fun i h₁ h₂ => ?_)
  · simpa using congrArg List.length h
  · have hi := congrArg (fun m => m[i]?) h
    simp only [List.getElem?_map, List.getElem?_eq_getElem h₁, List.getElem?_eq_getElem h₂, Option.map_some,
      Option.some.injEq] at hi
    exact hinj _ (List.getElem_mem h₁) _ (List.getElem_mem h₂) hi

theorem length_merkleUp : (l : List Uint256) → (merkleUp P l).length = (l.length + 1) / 2
  | [] => rfl
  | [_] => by simp [merkleUp]
  | _ :: _ :: rest => by
    rw [merkleUp, List.length_cons, length_merkleUp rest, List.length_cons, List.length_cons]
    omega

/-! ## The tree -/

/-- The levels are the list, what is above it, and so on to a level of one. -/
theorem merkleLevels_eq {n : ℕ} (hl : l ≠ []) (hn : l.length ≤ n + 1) :
    ∃ k root, merkleLevels P n l = (List.range (k + 1)).map (fun j => (merkleUp P)^[j] l) ∧
      (merkleUp P)^[k] l = [root] := by
  induction n generalizing l with
  | zero =>
    obtain ⟨root, rfl⟩ := List.length_eq_one_iff.mp (Nat.le_antisymm hn (List.length_pos_iff.mpr hl))
    exact ⟨0, root, rfl, rfl⟩
  | succ n ih =>
    rw [merkleLevels]
    by_cases hone : l.length ≤ 1
    · obtain ⟨root, rfl⟩ := List.length_eq_one_iff.mp (Nat.le_antisymm hone (List.length_pos_iff.mpr hl))
      exact ⟨0, root, rfl, rfl⟩
    · have hlen := length_merkleUp (P := P) l
      obtain ⟨k, root, hlevels, hroot⟩ := ih (l := merkleUp P l) (by rw [← List.length_pos_iff]; omega) (by omega)
      refine ⟨k + 1, root, ?_, hroot⟩
      rw [if_neg hone, hlevels, List.range_succ_eq_map (n := k + 1), List.map_cons, List.map_map]
      rfl

namespace CBlock

/-- The hashes of the transactions of a block. -/
def txHashes (P : Params) (block : CBlock) : List Uint256 := block.vtx.map (CTransaction.getHash P)

/-- The nodes of the tree above its leaves. -/
def innerNodes (P : Params) (block : CBlock) : List Uint256 := (block.merkleTree P).tail.flatten

/-- The pairs that are hashed in the tree. -/
def hashedPairs (P : Params) (block : CBlock) : List (Uint256 × Uint256) :=
  (block.merkleTree P).dropLast.flatMap merklePairs

/-- The shape of the tree of a block with transactions: `k` steps above the
leaves there is the root. -/
structure Tree (P : Params) (block : CBlock) (k : ℕ) : Prop where
  root : (merkleUp P)^[k] (block.txHashes P) = [block.buildMerkleTree P]
  inner : ∀ j < k, ∀ h ∈ (merkleUp P)^[j + 1] (block.txHashes P), h ∈ block.innerNodes P
  pairs : ∀ j < k, ∀ p ∈ merklePairs ((merkleUp P)^[j] (block.txHashes P)), p ∈ block.hashedPairs P

theorem exists_tree {block : CBlock} (h : block.vtx ≠ []) : ∃ k, Tree P block k := by
  obtain ⟨k, root, hlevels, hroot⟩ := merkleLevels_eq (P := P) (l := block.txHashes P) (n := block.vtx.length)
    (by simpa [txHashes] using h) (by simp [txHashes])
  have htree : block.merkleTree P = (List.range (k + 1)).map fun j => (merkleUp P)^[j] (block.txHashes P) := hlevels
  refine ⟨k, ?_, fun j hj h hh => ?_, fun j hj p hp => ?_⟩
  · rw [buildMerkleTree, htree, hroot, List.range_succ, List.map_append, List.map_singleton, hroot]
    simp
  · rw [innerNodes, htree, List.range_succ_eq_map, List.map_cons, List.tail_cons, List.map_map]
    exact List.mem_flatten.mpr ⟨_, List.mem_map.mpr ⟨j, List.mem_range.mpr hj, rfl⟩, hh⟩
  · rw [hashedPairs, htree, List.range_succ, List.map_append, List.map_singleton, List.dropLast_concat]
    exact List.mem_flatMap.mpr ⟨_, List.mem_map.mpr ⟨j, List.mem_range.mpr hj, rfl⟩, hp⟩

/-- What is assumed of the hash function on the trees of two blocks: it does
not give two of the pairs hashed there the same hash, and none of them the hash
of a transaction. -/
structure HashesPairsApart (P : Params) (b b' : CBlock) : Prop where
  injective : ∀ p ∈ b.hashedPairs P ++ b'.hashedPairs P, ∀ q ∈ b.hashedPairs P ++ b'.hashedPairs P,
    P.hashPair p.1 p.2 = P.hashPair q.1 q.2 → p = q
  leaves : ∀ h ∈ b.txHashes P ++ b'.txHashes P, h ∉ b.innerNodes P ++ b'.innerNodes P

variable {b b' : CBlock}

theorem HashesPairsApart.symm (h : HashesPairsApart P b b') : HashesPairsApart P b' b := by
  refine ⟨fun p hp q hq => h.injective p ?_ q ?_, fun x hx hn => h.leaves x ?_ ?_⟩
  · exact (List.perm_append_comm.mem_iff).mp hp
  · exact (List.perm_append_comm.mem_iff).mp hq
  · exact (List.perm_append_comm.mem_iff).mp hx
  · exact (List.perm_append_comm.mem_iff).mp hn

/-- The nodes of each level of the tree are distinct. -/
theorem Tree.nodup {k : ℕ} (ht : Tree P b k) (hh : HashesPairsApart P b b') (hnd : (b.txHashes P).Nodup) :
    ∀ j ≤ k, ((merkleUp P)^[j] (b.txHashes P)).Nodup := by
  intro j hj
  induction j with
  | zero => exact hnd
  | succ j ih =>
    rw [Function.iterate_succ_apply']
    exact nodup_merkleUp (fun p hp q hq => hh.injective p (List.mem_append_left _ (ht.pairs j hj p hp)) q
      (List.mem_append_left _ (ht.pairs j hj q hq))) (ih (Nat.le_of_succ_le hj))

/-- Down from the root: the leaves of the lower tree are the nodes of the other
one as far above its leaves as it is higher. -/
theorem Tree.leaves_eq {k d : ℕ} (ht : Tree P b k) (ht' : Tree P b' (k + d)) (hh : HashesPairsApart P b b')
    (hnd : (b.txHashes P).Nodup) (hnd' : (b'.txHashes P).Nodup) (hroot : b.buildMerkleTree P = b'.buildMerkleTree P) :
    b.txHashes P = (merkleUp P)^[d] (b'.txHashes P) := by
  have hdown : ∀ j ≤ k, (merkleUp P)^[k - j] (b.txHashes P) = (merkleUp P)^[k + d - j] (b'.txHashes P) := by
    intro j hj
    induction j with
    | zero => rw [Nat.sub_zero, Nat.sub_zero, ht.root, ht'.root, hroot]
    | succ j ih =>
      have hstep := ih (Nat.le_of_succ_le hj)
      rw [show k - j = (k - (j + 1)) + 1 by omega, show k + d - j = (k + d - (j + 1)) + 1 by omega,
        Function.iterate_succ_apply', Function.iterate_succ_apply'] at hstep
      refine merkleUp_inj (fun p hp q hq => hh.injective p ?_ q ?_) (ht.nodup hh hnd _ (by omega))
        (ht'.nodup hh.symm hnd' _ (by omega)) hstep
      · exact List.mem_append_left _ (ht.pairs _ (by omega) p hp)
      · exact List.mem_append_right _ (ht'.pairs _ (by omega) q hq)
  have hleaf := hdown k (Nat.le_refl k)
  rwa [Nat.sub_self, Nat.add_sub_cancel_left] at hleaf

/-- Trees of distinct transactions with one root have the same height. -/
theorem Tree.txHashes_eq {k k' : ℕ} (ht : Tree P b k) (ht' : Tree P b' k') (hle : k ≤ k') (hne : b.vtx ≠ [])
    (hh : HashesPairsApart P b b') (hnd : (b.txHashes P).Nodup) (hnd' : (b'.txHashes P).Nodup)
    (hroot : b.buildMerkleTree P = b'.buildMerkleTree P) : b.txHashes P = b'.txHashes P := by
  obtain ⟨d, rfl⟩ := Nat.exists_eq_add_of_le hle
  have hleaves := ht.leaves_eq ht' hh hnd hnd' hroot
  cases d with
  | zero => exact hleaves
  | succ d =>
    -- a transaction of the first block would be an inner node of the other tree
    obtain ⟨h, hmem⟩ := List.exists_mem_of_ne_nil (b.txHashes P) (by simpa [txHashes] using hne)
    have hinner : h ∈ b'.innerNodes P := ht'.inner d (by omega) h (hleaves ▸ hmem)
    exact absurd (List.mem_append_right _ hinner) (hh.leaves h (List.mem_append_left _ hmem))

theorem txHashes_eq_of_root (hne : b.vtx ≠ []) (hne' : b'.vtx ≠ []) (hh : HashesPairsApart P b b')
    (hnd : (b.txHashes P).Nodup) (hnd' : (b'.txHashes P).Nodup)
    (hroot : b.buildMerkleTree P = b'.buildMerkleTree P) : b.txHashes P = b'.txHashes P := by
  obtain ⟨k, ht⟩ := exists_tree (P := P) hne
  obtain ⟨k', ht'⟩ := exists_tree (P := P) hne'
  rcases Nat.le_total k k' with hle | hle
  · exact ht.txHashes_eq ht' hle hne hh hnd hnd' hroot
  · exact (ht'.txHashes_eq ht hle hne' hh.symm hnd' hnd hroot.symm).symm

/-- What `CheckBlock` says about the transaction list and the merkle root. -/
theorem checkBlock_root {env : Env} {fCheckPOW fCheckSig : Bool}
    (h : b.checkBlock P env fCheckPOW true fCheckSig = .ok ()) :
    b.vtx ≠ [] ∧ (b.txHashes P).Nodup ∧ b.hashMerkleRoot = b.buildMerkleTree P := by
  simp only [checkBlock, except_bind_ok, except_rejectIf_ok, not_not, not_or, true_and] at h
  obtain ⟨_, ⟨hne, -⟩, _, -, _, -, _, -, _, -, _, -, _, -, _, -, _, hnd, _, -, hroot⟩ := h
  exact ⟨hne, hnd, hroot⟩

/-- **The merkle root commits to the transaction list.** Two blocks that pass
`CheckBlock` and carry the same root have the same transaction hashes. -/
theorem merkleRoot_commits {env env' : Env} {fCheckPOW fCheckPOW' fCheckSig fCheckSig' : Bool}
    (hb : b.checkBlock P env fCheckPOW true fCheckSig = .ok ())
    (hb' : b'.checkBlock P env' fCheckPOW' true fCheckSig' = .ok ())
    (hroot : b.hashMerkleRoot = b'.hashMerkleRoot) (hh : HashesPairsApart P b b') :
    b.vtx.map (CTransaction.getHash P) = b'.vtx.map (CTransaction.getHash P) := by
  obtain ⟨hne, hnd, hr⟩ := checkBlock_root hb
  obtain ⟨hne', hnd', hr'⟩ := checkBlock_root hb'
  exact txHashes_eq_of_root hne hne' hh hnd hnd' (hr.symm.trans (hroot.trans hr'))

/-- A block of three transactions, and the same block mined with another
nonce. -/
theorem merkleRoot_commits_sample :
    let P := Sample.params true
    let b := Sample.mintingBlock
    let b' : CBlock := { b with nNonce := 113 }
    b.getHash P ≠ b'.getHash P ∧ b.vtx.map (CTransaction.getHash P) = b'.vtx.map (CTransaction.getHash P) := by
  intro P b b'
  have hb : b.checkBlock P Sample.env true true true = .ok () := by decide +kernel
  have hb' : b'.checkBlock P Sample.env true true true = .ok () := by decide +kernel
  have hh : HashesPairsApart P b b' := ⟨by decide +kernel, by decide +kernel⟩
  exact ⟨by decide +kernel, merkleRoot_commits hb hb' rfl hh⟩

end CBlock

end Pinkcoin
