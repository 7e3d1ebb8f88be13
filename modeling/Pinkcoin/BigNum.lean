/-
`CBigNum` as an integer: the compact form of a target (`nBits`), which is
OpenSSL's length-prefixed format cut after three bytes, and the fixed-width
readings of a value. Division is C's, towards zero.
-/
import Mathlib.Data.Int.Basic
import Pinkcoin.Types

namespace Pinkcoin

abbrev CBigNum := Int

namespace CBigNum

/-- `SetCompact`: a length byte, then a sign bit and the 23 leading bits of
the magnitude. The sign bit is read only where there is a byte to hold it. -/
def setCompact (nCompact : Nat) : CBigNum :=
  let nSize := nCompact / 2 ^ 24
  let mantissa := nCompact % 2 ^ 23
  let magnitude : Nat := if nSize ≤ 3 then mantissa / 2 ^ (8 * (3 - nSize)) else mantissa * 2 ^ (8 * (nSize - 3))
  if 1 ≤ nSize ∧ nCompact / 2 ^ 23 % 2 = 1 then -(magnitude : Int) else magnitude

/-- The bytes OpenSSL writes for a magnitude: one more than the full bytes
below its leading bit, so that the sign bit is free. -/
def mpiSize (magnitude : Nat) : Nat := if magnitude = 0 then 0 else (Nat.log2 magnitude + 1) / 8 + 1

/-- `GetCompact`. -/
def getCompact (bn : CBigNum) : Nat :=
  let nSize := mpiSize bn.natAbs
  let leading := if nSize ≤ 3 then bn.natAbs * 2 ^ (8 * (3 - nSize)) else bn.natAbs / 2 ^ (8 * (nSize - 3))
  (nSize * 2 ^ 24 + leading + if bn < 0 then 2 ^ 23 else 0) % 2 ^ 32

/-- `getuint256`: the magnitude's low 256 bits. -/
def getuint256 (bn : CBigNum) : Uint256 := bn.natAbs % 2 ^ 256

/-- `getuint64`. -/
def getuint64 (bn : CBigNum) : Nat := bn.natAbs % 2 ^ 64

end CBigNum

example : (CBigNum.setCompact 0x1e0fffff).getCompact = 0x1e0fffff := by decide +kernel

end Pinkcoin
