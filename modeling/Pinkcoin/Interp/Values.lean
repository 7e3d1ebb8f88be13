/-
The values of the script machine: vectors of bytes, read as numbers, as
truth values, as signatures and as public keys.
-/
import Mathlib.Data.Vector.Basic
import Pinkcoin.SigHash

namespace Pinkcoin

open CScript (leBytes leNat vchSize)

abbrev Valtype := List UInt8

def vchFalse : Valtype := []
def vchTrue : Valtype := [1]

/-- The hash functions and the elliptic curve: whether a signature (without
its hash type) is one of a hash under a public key that is a point. -/
structure ScriptParams where
  RIPEMD160 : List UInt8 → List.Vector UInt8 20
  SHA1 : List UInt8 → List.Vector UInt8 20
  SHA256 : List UInt8 → List.Vector UInt8 32
  verify : Valtype → Uint256 → Valtype → Bool

namespace ScriptParams

variable (P : ScriptParams)

/-- `Hash160`. -/
def hash160 (vch : List UInt8) : List.Vector UInt8 20 := P.RIPEMD160 (P.SHA256 vch).toList

/-- `Hash`, as it lies in memory. -/
def hash256 (vch : List UInt8) : List.Vector UInt8 32 := P.SHA256 (P.SHA256 vch).toList

end ScriptParams

/-- `size()`, which is a `size_t`. -/
def sizeT {α : Type} (l : List α) : Nat := l.length % 2 ^ 64

/-! ## Numbers and truth values -/

/-- `CBigNum(vch)`: the least significant byte first, the sign in the highest
bit of the last one. -/
def setvch (vch : Valtype) : Int :=
  match vch.getLast? with
  | none => 0
  | some b =>
    if b.toNat < 128 then leNat vch else -((leNat vch - 128 * 256 ^ (vch.length - 1) : Nat) : Int)

/-- `getvch`: as few bytes as there is room for the sign in. -/
def getvch (bn : Int) : Valtype :=
  let nSize := vchSize bn.natAbs
  leBytes nSize (if bn < 0 then bn.natAbs + 128 * 256 ^ (nSize - 1) else bn.natAbs)

def INT_MAX : Int := 2 ^ 31 - 1

/-- `getint`, which stops at the limits of an `int`. -/
def getint (bn : Int) : Int := if 0 ≤ bn then min bn INT_MAX else max bn (-INT_MAX - 1)

/-- `nMaxNumSize`. -/
def nMaxNumSize : Nat := 4

/-- `CastToBool`: some byte is not zero, and it is not the sign only. -/
def castToBool : Valtype → Bool
  | [] => false
  | [b] => b ≠ 0 && b ≠ 0x80
  | b :: vch => b ≠ 0 || castToBool vch

/-! ## Signatures and public keys -/

/-- `vchMaxModHalfOrder`. -/
def maxModHalfOrder : Nat := 0x7FFFFFFFFFFFFFFFFFFFFFFFFFFFFFFF5D576E7357A4501DDFE92F46681B20A0

/-- `IsCanonicalPubKey`. -/
def isCanonicalPubKey (vchPubKey : Valtype) : Bool :=
  match vchPubKey with
  | [] => false
  | b :: _ =>
    33 ≤ vchPubKey.length &&
      if b = 0x04 then vchPubKey.length = 65 else (b = 0x02 || b = 0x03) && vchPubKey.length = 33

/-- One of the two numbers in a signature: not empty, not negative, and not
padded more than it has to be. -/
def isCanonicalElement (vch : Valtype) : Bool :=
  match vch with
  | [] => false
  | [b] => b.toNat < 128
  | b :: b' :: _ => b.toNat < 128 && ¬ (b = 0 ∧ b'.toNat < 128)

/-- `CKey::CheckSignatureElement(vch, len, true)`: from one to half of the
order. -/
def checkSignatureElement (vch : Valtype) : Bool :=
  0 < leNat vch.reverse && leNat vch.reverse ≤ maxModHalfOrder

/-- The byte of a vector at a place inside it. -/
def byteAt (vch : Valtype) (i : Nat) : Nat := ((vch[i]?).map UInt8.toNat).getD 0

/-- `IsCanonicalSignature`. -/
def isCanonicalSignature (vchSig : Valtype) : Bool :=
  let nHashType := byteAt vchSig (vchSig.length - 1) &&& 0x7f
  let nLenR := byteAt vchSig 3
  let nLenS := byteAt vchSig (5 + nLenR)
  let R := (vchSig.drop 4).take nLenR
  let S := (vchSig.drop (6 + nLenR)).take nLenS
  9 ≤ vchSig.length && vchSig.length ≤ 73 && SIGHASH_ALL ≤ nHashType && nHashType ≤ SIGHASH_SINGLE &&
    byteAt vchSig 0 = 0x30 && byteAt vchSig 1 = vchSig.length - 3 && 5 + nLenR < vchSig.length &&
    nLenR + nLenS + 7 = vchSig.length && byteAt vchSig 2 = 0x02 && isCanonicalElement R &&
    byteAt vchSig (4 + nLenR) = 0x02 && isCanonicalElement S && checkSignatureElement S

/-- The transaction, the input and the hash type a script is run for. -/
structure SigContext where
  txTo : CTransaction
  nIn : Nat
  nHashType : BitVec 32

/-- `CheckSig`. The hash type is the last byte of the signature; the cache of
valid signatures answers as the check does. -/
def checkSig (P : ScriptParams) (ctx : SigContext) (vchSig vchPubKey : Valtype) (scriptCode : CScript) : Bool :=
  match vchSig.getLast? with
  | none => false
  | some b =>
    if ctx.nHashType = 0 ∨ ctx.nHashType = BitVec.ofNat 32 b.toNat then
      let sighash := signatureHash (fun bytes => leNat (P.hash256 bytes).toList) scriptCode ctx.txTo ctx.nIn
        (BitVec.ofNat 32 b.toNat)
      P.verify vchPubKey sighash vchSig.dropLast
    else false

end Pinkcoin
