/-
Merkle trees over the transaction hashes of a block. The source keeps the
levels one after the other in one vector; here they are a list of lists.
-/
import Pinkcoin.Params

namespace Pinkcoin

/-- The next level: the hashes of the pairs, an odd last hash paired with
itself. -/
def merkleUp (P : Params) : List Uint256 → List Uint256
  | [] => []
  | [a] => [P.hashPair a a]
  | a :: b :: rest => P.hashPair a b :: merkleUp P rest

/-- The levels from the leaves to the root. A level of more than one hash
is longer than the next, so its length is fuel enough. -/
def merkleLevels (P : Params) : Nat → List Uint256 → List (List Uint256)
  | 0, level => [level]
  | fuel + 1, level => if level.length ≤ 1 then [level] else level :: merkleLevels P fuel (merkleUp P level)

namespace CBlock

def merkleTree (P : Params) (block : CBlock) : List (List Uint256) :=
  merkleLevels P block.vtx.length (block.vtx.map (CTransaction.getHash P))

/-- `BuildMerkleTree`: the last hash of the tree, 0 for a block without
transactions. -/
def buildMerkleTree (P : Params) (block : CBlock) : Uint256 :=
  ((block.merkleTree P).getLast?.bind List.getLast?).getD 0

/-- `GetMerkleBranch`: on each level but the last, the hash beside the one
that leads to `nIndex`, or the last one. -/
def getMerkleBranch (P : Params) (block : CBlock) (nIndex : Nat) : List Uint256 :=
  go (block.merkleTree P) nIndex
where
  go : List (List Uint256) → Nat → List Uint256
    | [], _ => []
    | [_] , _ => []
    | level :: upper :: rest, nIndex =>
      level.getD (min (nIndex ^^^ 1) (level.length - 1)) 0 :: go (upper :: rest) (nIndex / 2)

end CBlock

end Pinkcoin
