/-
The branches of a merkle tree. The source keeps the tree of a block in one
vector, level after level, builds it where it is missing, and reads the
branches from it. The branch of a transaction leads to the root where that
vector is the tree of the transactions the block has now.
-/
import Pinkcoin.MerkleRoot
import Pinkcoin.SpentCoins
import Mathlib.Data.Nat.Bitwise

namespace Pinkcoin

/-! ## The vector of the tree -/

/-- A block in memory, with `vMerkleTree`. -/
structure TreeBlock where
  block : CBlock
  vMerkleTree : List Uint256
  deriving DecidableEq

namespace TreeBlock

variable (P : Params)

/-- The inner loop of `BuildMerkleTree`, with `i` in steps of two. A read
outside the vector is `none`. -/
def pushLevel (j nSize : Nat) (vMerkleTree : List Uint256) : Option (List Uint256) :=
  (List.range ((nSize + 1) / 2)).foldlM (fun vMerkleTree k => do
    let i := 2 * k
    let i2 := min (i + 1) (nSize - 1)
    let left ← vMerkleTree[j + i]?
    let right ← vMerkleTree[j + i2]?
    return vMerkleTree ++ [P.hashPair left right]) vMerkleTree

/-- The outer loop of `BuildMerkleTree`. Each level is shorter than the one
before, so the size of the first is fuel enough. -/
def pushLevels : Nat → Nat → Nat → List Uint256 → Option (List Uint256)
  | 0, _, _, vMerkleTree => some vMerkleTree
  | fuel + 1, j, nSize, vMerkleTree =>
    if nSize > 1 then do
      let vMerkleTree ← pushLevel P j nSize vMerkleTree
      pushLevels fuel (j + nSize) ((nSize + 1) / 2) vMerkleTree
    else some vMerkleTree

variable (b : TreeBlock)

/-- `BuildMerkleTree`. -/
def buildMerkleTree : Option (Uint256 × TreeBlock) := do
  let vMerkleTree ← pushLevels P b.block.vtx.length 0 b.block.vtx.length (b.block.vtx.map (CTransaction.getHash P))
  return (vMerkleTree.getLast?.getD 0, { b with vMerkleTree := vMerkleTree })

/-- The loop of `GetMerkleBranch`. -/
def branchLoop (vMerkleTree : List Uint256) : Nat → Nat → Nat → Nat → Option (List Uint256)
  | 0, _, _, _ => some []
  | fuel + 1, j, nSize, nIndex =>
    if nSize > 1 then do
      let i := min (nIndex ^^^ 1) (nSize - 1)
      let hash ← vMerkleTree[j + i]?
      let vMerkleBranch ← branchLoop vMerkleTree fuel (j + nSize) ((nSize + 1) / 2) (nIndex >>> 1)
      return hash :: vMerkleBranch
    else some []

/-- The tree is built where there is none. -/
def withTree : Option TreeBlock := if b.vMerkleTree = [] then (b.buildMerkleTree P).map Prod.snd else some b

/-- `GetMerkleBranch`. -/
def getMerkleBranch (nIndex : Nat) : Option (List Uint256 × TreeBlock) := do
  let b ← b.withTree P
  let vMerkleBranch ← branchLoop b.vMerkleTree b.block.vtx.length 0 b.block.vtx.length nIndex
  return (vMerkleBranch, b)

/-- The pairs that `CheckMerkleBranch` hashes. -/
def branchPairs (hash : Uint256) : List Uint256 → Int → List (Uint256 × Uint256)
  | [], _ => []
  | otherside :: vMerkleBranch, nIndex =>
    let pair := if nIndex % 2 = 1 then (otherside, hash) else (hash, otherside)
    pair :: branchPairs (P.hashPair pair.1 pair.2) vMerkleBranch (nIndex / 2)

/-- `CheckMerkleBranch`: the branch is followed, except for the index -1. -/
def checkMerkleBranch (hash : Uint256) (vMerkleBranch : List Uint256) (nIndex : Int) : Uint256 :=
  if nIndex = -1 then 0 else Pinkcoin.checkMerkleBranch P hash vMerkleBranch nIndex

end TreeBlock

open TreeBlock (pushLevel pushLevels branchLoop branchPairs)

variable {P : Params} {l : List Uint256}

/-! ## A level of the vector -/

/-- A hash of the next level is made of two hashes below it. -/
theorem getElem?_merkleUp {k : Nat} (hk : 2 * k < l.length) :
    ∃ left right, l[2 * k]? = some left ∧ l[min (2 * k + 1) (l.length - 1)]? = some right ∧
      (merkleUp P l)[k]? = some (P.hashPair left right) := by
  induction l using merkleUp.induct generalizing k with
  | case1 => simp at hk
  | case2 a =>
    obtain rfl : k = 0 := by simp at hk; omega
    exact ⟨a, a, rfl, rfl, rfl⟩
  | case3 a b rest ih =>
    cases k with
    | zero =>
      refine ⟨a, b, rfl, ?_, rfl⟩
      rw [show min (2 * 0 + 1) ((a :: b :: rest).length - 1) = 1 by simp]
      rfl
    | succ k =>
      simp only [List.length_cons] at hk
      obtain ⟨left, right, hleft, hright, hup⟩ := ih (k := k) (by omega)
      refine ⟨left, right, ?_, ?_, hup⟩
      · rw [show 2 * (k + 1) = 2 * k + 1 + 1 by omega]
        exact hleft
      · rw [show min (2 * (k + 1) + 1) ((a :: b :: rest).length - 1) = min (2 * k + 1) (rest.length - 1) + 1 + 1 by
          simp only [List.length_cons]
          omega]
        exact hright

/-- Behind a level, the next one is put. -/
theorem pushLevel_eq (pre : List Uint256) :
    pushLevel P pre.length l.length (pre ++ l) = some (pre ++ l ++ merkleUp P l) := by
  have hsteps : ∀ n, n ≤ (l.length + 1) / 2 → (List.range n).foldlM (fun vMerkleTree k => do
      let i := 2 * k
      let i2 := min (i + 1) (l.length - 1)
      let left ← vMerkleTree[pre.length + i]?
      let right ← vMerkleTree[pre.length + i2]?
      return vMerkleTree ++ [P.hashPair left right]) (pre ++ l) = some (pre ++ l ++ (merkleUp P l).take n) := by
    intro n hn
    induction n with
    | zero => simp
    | succ n ih =>
      obtain ⟨left, right, hleft, hright, hup⟩ := getElem?_merkleUp (P := P) (l := l) (k := n) (by omega)
      have hread : ∀ {i : Nat} {h : Uint256} (more : List Uint256), l[i]? = some h →
          (pre ++ l ++ more)[pre.length + i]? = some h := by
        intro i h more hi
        have hlt := (List.getElem?_eq_some_iff.mp hi).1
        rw [List.append_assoc, List.getElem?_append_right (by omega), Nat.add_sub_cancel_left,
          List.getElem?_append_left hlt, hi]
      rw [List.range_succ, List.foldlM_append, ih (by omega)]
      simp only [Option.bind_eq_bind, Option.bind_some, List.foldlM_cons, List.foldlM_nil, hread _ hleft,
        hread _ hright]
      rw [List.take_add_one, hup]
      simp
  have hall := hsteps _ (Nat.le_refl _)
  rw [← length_merkleUp (P := P), List.take_length, length_merkleUp] at hall
  exact hall

/-! ## The vector is the levels, one after the other -/

theorem merkleLevels_cons (n : Nat) (l : List Uint256) : ∃ rest, merkleLevels P n l = l :: rest := by
  cases n with
  | zero => exact ⟨[], rfl⟩
  | succ n =>
    rw [merkleLevels]
    split
    · exact ⟨[], rfl⟩
    · exact ⟨_, rfl⟩

theorem pushLevels_eq (fuel : Nat) (pre l : List Uint256) :
    pushLevels P fuel pre.length l.length (pre ++ l) = some (pre ++ (merkleLevels P fuel l).flatten) := by
  induction fuel generalizing pre l with
  | zero => simp [pushLevels, merkleLevels]
  | succ fuel ih =>
    rw [pushLevels, merkleLevels]
    by_cases hone : l.length ≤ 1
    · simp [hone]
    · have hnext := ih (pre ++ l) (merkleUp P l)
      rw [List.length_append, length_merkleUp] at hnext
      rw [if_pos (by omega), if_neg hone, pushLevel_eq, Option.bind_eq_bind, Option.bind_some, hnext]
      simp

/-- **The tree is built**, and its last hash is the root. -/
theorem buildMerkleTree_eq (b : TreeBlock) :
    b.buildMerkleTree P =
      some (b.block.buildMerkleTree P, { b with vMerkleTree := (b.block.merkleTree P).flatten }) := by
  have htree := pushLevels_eq (P := P) b.block.vtx.length [] (b.block.vtx.map (CTransaction.getHash P))
  rw [List.length_map, List.nil_append, List.nil_append] at htree
  have hroot : ((b.block.merkleTree P).flatten.getLast?).getD 0 = b.block.buildMerkleTree P := by
    by_cases hvtx : b.block.vtx = []
    · simp [CBlock.buildMerkleTree, CBlock.merkleTree, hvtx, merkleLevels]
    · obtain ⟨k, root, hlevels, hlast⟩ := merkleLevels_eq (P := P) (l := b.block.vtx.map (CTransaction.getHash P))
        (n := b.block.vtx.length) (by simpa using hvtx) (by simp)
      rw [CBlock.buildMerkleTree, CBlock.merkleTree, hlevels, List.range_succ, List.map_append, List.map_singleton,
        hlast]
      simp
  have hall : pushLevels P b.block.vtx.length 0 b.block.vtx.length (b.block.vtx.map (CTransaction.getHash P)) =
    some (b.block.merkleTree P).flatten := htree
  rw [TreeBlock.buildMerkleTree, hall, Option.bind_eq_bind, Option.bind_some, hroot]
  rfl

/-! ## Branches -/

theorem go_cons {level : List Uint256} {levels : List (List Uint256)} (h : levels ≠ []) (nIndex : Nat) :
    CBlock.getMerkleBranch.go (level :: levels) nIndex =
      level.getD (min (nIndex ^^^ 1) (level.length - 1)) 0 :: CBlock.getMerkleBranch.go levels (nIndex / 2) := by
  obtain ⟨upper, rest, rfl⟩ := List.exists_cons_of_ne_nil h
  rfl

/-- The branch is read from the vector. -/
theorem branchLoop_eq (fuel : Nat) (pre l : List Uint256) (nIndex : Nat) :
    branchLoop (pre ++ (merkleLevels P fuel l).flatten) fuel pre.length l.length nIndex =
      some (CBlock.getMerkleBranch.go (merkleLevels P fuel l) nIndex) := by
  induction fuel generalizing pre l nIndex with
  | zero => rfl
  | succ fuel ih =>
    rw [branchLoop, merkleLevels]
    by_cases hone : l.length ≤ 1
    · rw [if_neg (by omega), if_pos hone]
      rfl
    · have hnext := ih (pre ++ l) (merkleUp P l) (nIndex / 2)
      rw [List.length_append, length_merkleUp, List.append_assoc] at hnext
      have hlt : min (nIndex ^^^ 1) (l.length - 1) < l.length := by omega
      have hread : (pre ++ (l :: merkleLevels P fuel (merkleUp P l)).flatten)[pre.length +
          min (nIndex ^^^ 1) (l.length - 1)]? =
          some (l.getD (min (nIndex ^^^ 1) (l.length - 1)) 0) := by
        rw [List.flatten_cons, List.getElem?_append_right (by omega), Nat.add_sub_cancel_left,
          List.getElem?_append_left hlt, List.getElem?_eq_getElem hlt, List.getD_eq_getElem _ _ hlt]
      obtain ⟨rest, hcons⟩ := merkleLevels_cons (P := P) fuel (merkleUp P l)
      rw [if_pos (by omega), if_neg hone]
      dsimp only
      rw [hread, go_cons (by rw [hcons]; exact List.cons_ne_nil _ _), Option.bind_eq_bind,
        Option.bind_some, Nat.shiftRight_eq_div_pow, Nat.pow_one, List.flatten_cons, hnext]
      rfl

theorem checkMerkleBranch_cons (hash otherside : Uint256) (vMerkleBranch : List Uint256) (nIndex : Int) :
    Pinkcoin.checkMerkleBranch P hash (otherside :: vMerkleBranch) nIndex =
      Pinkcoin.checkMerkleBranch P (if nIndex % 2 = 1 then P.hashPair otherside hash else P.hashPair hash otherside)
        vMerkleBranch (nIndex / 2) := rfl

/-- A hash and the one beside it are the pair below the hash above. -/
theorem merkleUp_sibling {i : Nat} (hi : i < l.length) {hash : Uint256} (hhash : l[i]? = some hash) :
    (merkleUp P l)[i / 2]? = some (if (i : Int) % 2 = 1 then P.hashPair (l.getD (min (i ^^^ 1) (l.length - 1)) 0) hash
      else P.hashPair hash (l.getD (min (i ^^^ 1) (l.length - 1)) 0)) := by
  obtain ⟨left, right, hleft, hright, hup⟩ := getElem?_merkleUp (P := P) (l := l) (k := i / 2) (by omega)
  rcases Nat.even_or_odd i with heven | hodd
  · have hmod := Nat.even_iff.mp heven
    rw [if_neg (by omega), Nat.xor_one_of_even heven, hup, List.getD_eq_getElem?_getD,
      show i + 1 = 2 * (i / 2) + 1 by omega, hright]
    rw [show 2 * (i / 2) = i by omega, hhash] at hleft
    rw [Option.some.inj hleft]
    rfl
  · have hmod := Nat.odd_iff.mp hodd
    rw [if_pos (by omega), Nat.xor_one_of_odd hodd, hup, List.getD_eq_getElem?_getD,
      show min (i - 1) (l.length - 1) = 2 * (i / 2) by omega, hleft]
    rw [show min (2 * (i / 2) + 1) (l.length - 1) = i by omega, hhash] at hright
    rw [Option.some.inj hright]
    rfl

/-- The branch of a hash leads to the last level. -/
theorem fold_branch {n : Nat} (hn : l.length ≤ n + 1) {i : Nat} {hash : Uint256} (hhash : l[i]? = some hash) :
    ((merkleLevels P n l).getLast?.bind List.getLast?) =
      some (Pinkcoin.checkMerkleBranch P hash (CBlock.getMerkleBranch.go (merkleLevels P n l) i) i) := by
  have hi := (List.getElem?_eq_some_iff.mp hhash).1
  induction n generalizing l i hash with
  | zero =>
    obtain ⟨a, rfl⟩ := List.length_eq_one_iff.mp (show l.length = 1 by omega)
    obtain rfl : i = 0 := by simp at hi; omega
    exact hhash
  | succ n ih =>
    rw [merkleLevels]
    by_cases hone : l.length ≤ 1
    · obtain ⟨a, rfl⟩ := List.length_eq_one_iff.mp (show l.length = 1 by omega)
      obtain rfl : i = 0 := by simp at hi; omega
      rw [if_pos hone]
      exact hhash
    · obtain ⟨rest, hcons⟩ := merkleLevels_cons (P := P) n (merkleUp P l)
      have hne : merkleLevels P n (merkleUp P l) ≠ [] := by rw [hcons]; exact List.cons_ne_nil _ _
      have hup := merkleUp_sibling (P := P) hi hhash
      have hlen := length_merkleUp (P := P) l
      have hnext := ih (by omega) hup (by omega)
      rw [if_neg hone, go_cons hne, List.getLast?_cons_of_ne_nil hne, hnext, checkMerkleBranch_cons]
      rfl

/-- The branch of a transaction leads to the root. -/
theorem checkMerkleBranch_eq {block : CBlock} {i : Nat} {tx : CTransaction} (htx : block.vtx[i]? = some tx) :
    TreeBlock.checkMerkleBranch P (tx.getHash P) (block.getMerkleBranch P i) i = block.buildMerkleTree P := by
  have hhash : (block.vtx.map (CTransaction.getHash P))[i]? = some (tx.getHash P) := by simp [htx]
  have hfold := fold_branch (P := P) (n := block.vtx.length) (by simp) hhash
  rw [TreeBlock.checkMerkleBranch, if_neg (by omega), CBlock.buildMerkleTree, CBlock.merkleTree, hfold]
  rfl

/-- Where no two of the pairs that are hashed have one hash, only one hash leads
along a branch to a root. -/
theorem eq_of_checkMerkleBranch {hash hash' : Uint256} {vMerkleBranch : List Uint256} {nIndex : Int}
    (hinj : ∀ p ∈ branchPairs P hash vMerkleBranch nIndex, ∀ q ∈ branchPairs P hash' vMerkleBranch nIndex,
      P.hashPair p.1 p.2 = P.hashPair q.1 q.2 → p = q)
    (h : Pinkcoin.checkMerkleBranch P hash vMerkleBranch nIndex =
      Pinkcoin.checkMerkleBranch P hash' vMerkleBranch nIndex) :
    hash = hash' := by
  induction vMerkleBranch generalizing hash hash' nIndex with
  | nil => exact h
  | cons otherside vMerkleBranch ih =>
    rw [checkMerkleBranch_cons, checkMerkleBranch_cons] at h
    simp only [branchPairs] at hinj
    by_cases hodd : nIndex % 2 = 1
    · simp only [if_pos hodd] at h hinj
      have hpair := ih (fun p hp q hq => hinj p (List.mem_cons_of_mem _ hp) q (List.mem_cons_of_mem _ hq)) h
      exact (Prod.mk.inj (hinj _ List.mem_cons_self _ List.mem_cons_self hpair)).2
    · simp only [if_neg hodd] at h hinj
      have hpair := ih (fun p hp q hq => hinj p (List.mem_cons_of_mem _ hp) q (List.mem_cons_of_mem _ hq)) h
      exact (Prod.mk.inj (hinj _ List.mem_cons_self _ List.mem_cons_self hpair)).1

/-! ## Branches verify -/

/-- The vector is empty, or was built from the transactions the block has. -/
def TreeBlock.Fresh (P : Params) (b : TreeBlock) : Prop :=
  b.vMerkleTree = [] ∨ ∃ b' : TreeBlock, ∃ root, b'.block = b.block ∧ b'.buildMerkleTree P = some (root, b)

/-- **A branch verifies**: it is read, the hash of the transaction leads along it
to the root that `BuildMerkleTree` returns, and so does no other hash, unless two
of the pairs hashed on the way have one hash. -/
structure Verifies (P : Params) (b : TreeBlock) (i : Nat) (tx : CTransaction) (vMerkleBranch : List Uint256)
    (root : Uint256) : Prop where
  branch : ∃ b', b.getMerkleBranch P i = some (vMerkleBranch, b') ∧ b'.block = b.block
  built : ∃ b', b.buildMerkleTree P = some (root, b')
  verified : TreeBlock.checkMerkleBranch P (tx.getHash P) vMerkleBranch i = root
  unique : ∀ hash, (∀ p ∈ branchPairs P (tx.getHash P) vMerkleBranch i, ∀ q ∈ branchPairs P hash vMerkleBranch i,
    P.hashPair p.1 p.2 = P.hashPair q.1 q.2 → p = q) →
    TreeBlock.checkMerkleBranch P hash vMerkleBranch i = root → hash = tx.getHash P

theorem withTree_eq {b : TreeBlock} (hfresh : b.Fresh P) :
    b.withTree P = some { b with vMerkleTree := (b.block.merkleTree P).flatten } := by
  rw [TreeBlock.withTree, buildMerkleTree_eq]
  rcases hfresh with hempty | ⟨b', root, hblock, hbuilt⟩
  · rw [if_pos hempty]
    rfl
  · rw [buildMerkleTree_eq, hblock] at hbuilt
    have hb := (Prod.mk.inj (Option.some.inj hbuilt)).2
    split
    · rfl
    · rw [← hb]

theorem getMerkleBranch_eq {b : TreeBlock} (hfresh : b.Fresh P) (nIndex : Nat) :
    b.getMerkleBranch P nIndex = some (b.block.getMerkleBranch P nIndex,
      { b with vMerkleTree := (b.block.merkleTree P).flatten }) := by
  have hread := branchLoop_eq (P := P) b.block.vtx.length [] (b.block.vtx.map (CTransaction.getHash P)) nIndex
  rw [List.length_map, List.nil_append] at hread
  rw [TreeBlock.getMerkleBranch, withTree_eq hfresh, Option.bind_eq_bind, Option.bind_some]
  exact congrArg (Option.bind · fun vMerkleBranch =>
    some (vMerkleBranch, { b with vMerkleTree := (b.block.merkleTree P).flatten })) hread

/-- **Merkle branches verify** for every transaction of a block whose vector is
empty or was built from its transactions. -/
theorem branch_verifies {b : TreeBlock} {i : Nat} {tx : CTransaction} (hfresh : b.Fresh P)
    (htx : b.block.vtx[i]? = some tx) :
    ∃ vMerkleBranch root, Verifies P b i tx vMerkleBranch root := by
  have hverified := checkMerkleBranch_eq (P := P) htx
  refine ⟨_, _, ⟨_, getMerkleBranch_eq hfresh i, rfl⟩, ⟨_, buildMerkleTree_eq b⟩, hverified, fun hash hinj hcheck => ?_⟩
  rw [← hverified, TreeBlock.checkMerkleBranch, TreeBlock.checkMerkleBranch, if_neg (by omega),
    if_neg (by omega)] at hcheck
  exact (eq_of_checkMerkleBranch hinj hcheck.symm).symm

/-! ## Three transactions -/

namespace Sample

/-- A transaction of which only the time, and so the hash, matters. -/
def timedTx (nTime : Nat) : CTransaction := ⟨1, nTime, [], [], 0⟩

/-- Three transactions, the tree of which is not built. -/
def treeBlock : TreeBlock := ⟨{ mintingBlock with vtx := [timedTx 1, timedTx 2, timedTx 4] }, []⟩

/-- Two transactions. -/
def earlierBlock : TreeBlock := ⟨{ mintingBlock with vtx := [timedTx 5, timedTx 2] }, []⟩

/-- The first of them was replaced after the tree had been built. -/
def staleBlock : TreeBlock := ⟨{ mintingBlock with vtx := [timedTx 1, timedTx 2] }, [5, 2, 7]⟩

end Sample

theorem branch_verifies_sample :
    ∃ vMerkleBranch root, Verifies (Sample.params true) Sample.treeBlock 2 (Sample.timedTx 4) vMerkleBranch root :=
  branch_verifies (.inl rfl) rfl

/-- Where the tree is the one of a transaction that was replaced since, the
branch does not lead to the root. -/
theorem not_branch_verifies_stale :
    (Sample.earlierBlock.buildMerkleTree (Sample.params true)).map (fun built => built.2.vMerkleTree) =
        some Sample.staleBlock.vMerkleTree ∧
      Sample.staleBlock.block.vtx[1]? = some (Sample.timedTx 2) ∧
      Sample.staleBlock.getMerkleBranch (Sample.params true) 1 = some ([5], Sample.staleBlock) ∧
      (Sample.staleBlock.buildMerkleTree (Sample.params true)).map Prod.fst = some 3 ∧
      TreeBlock.checkMerkleBranch (Sample.params true) ((Sample.timedTx 2).getHash (Sample.params true)) [5] 1 = 7 := by
  decide +kernel

end Pinkcoin
