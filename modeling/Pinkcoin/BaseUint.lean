/-
`base_uint`: a number of a fixed width as an array of 32-bit words, the least
significant one first. The rest of the development takes a `uint256` as the
number it is; the operators here are the ones that compute it. The array is
written in place, and an operand may be the object itself.
-/
import Pinkcoin.Lib.Words
import Pinkcoin.Smsg.Address
import Pinkcoin.Text.Base64

namespace Pinkcoin

open Words (inPlace ripple orAt)

/-- The words of a number of so many bits. -/
abbrev WIDTH (BITS : Nat) : Nat := BITS / 32

/-- `base_uint<BITS>`. -/
structure BaseUint (BITS : Nat) where
  pn : List (BitVec 32)
  size : pn.length = WIDTH BITS
  deriving DecidableEq

namespace BaseUint

variable {BITS : Nat}

/-- What an operator takes on its right: another object, or the one it writes
to. -/
inductive Operand (BITS : Nat)
  | other (b : BaseUint BITS)
  | self

/-- The words of an operand, when the array of the object is `pn`. -/
def Operand.words : Operand BITS → List (BitVec 32) → List (BitVec 32)
  | .other b, _ => b.pn
  | .self, pn => pn

/-- The operand before the operator runs. -/
def Operand.of : Operand BITS → BaseUint BITS → BaseUint BITS
  | .other b, _ => b
  | .self, a => a

/-- The number. -/
def value (a : BaseUint BITS) : Nat := Words.value a.pn

/-! ## Words -/

/-- The loop over the words of the object and of an operand. -/
def loop {σ : Type} (step : σ → BitVec 32 → BitVec 32 → BitVec 32 × σ) (s : σ) (a : BaseUint BITS)
    (b : Operand BITS) : BaseUint BITS :=
  ⟨(inPlace step b.words a.pn s).1, (Words.length_inPlace _ _ _).trans a.size⟩

/-- The low word of a `uint64_t`. -/
def low (b : BitVec 64) : BitVec 32 := b.setWidth 32

def high (b : BitVec 64) : BitVec 32 := (b >>> 32).setWidth 32

/-- `operator=`, of a `uint64_t`. -/
def assign (b : BitVec 64) : BaseUint BITS :=
  ⟨(low b :: high b :: List.replicate (WIDTH BITS - 2) 0#32).take (WIDTH BITS), by
    rw [List.length_take, List.length_cons, List.length_cons, List.length_replicate]
    omega⟩

/-- `operator!`. -/
def isNot (a : BaseUint BITS) : Bool := a.pn.all fun x => decide (x = 0)

/-- `operator~`. -/
def compl (a : BaseUint BITS) : BaseUint BITS := ⟨a.pn.map (~~~ ·), (List.length_map _).trans a.size⟩

/-- `operator^=`. -/
def xorAssign (a : BaseUint BITS) (b : Operand BITS) : BaseUint BITS := loop (fun s x y => (x ^^^ y, s)) () a b

/-- `operator&=`. -/
def andAssign (a : BaseUint BITS) (b : Operand BITS) : BaseUint BITS := loop (fun s x y => (x &&& y, s)) () a b

/-- `operator|=`. -/
def orAssign (a : BaseUint BITS) (b : Operand BITS) : BaseUint BITS := loop (fun s x y => (x ||| y, s)) () a b

/-- An operator on the two low words. -/
def onLow (f : BitVec 32 → BitVec 32 → BitVec 32) (a : BaseUint BITS) (b : BitVec 64) : BaseUint BITS :=
  ⟨(a.pn.modify 0 (f · (low b))).modify 1 (f · (high b)), by
    rw [List.length_modify, List.length_modify, a.size]⟩

/-- `operator^=`, of a `uint64_t`. -/
def xorAssign64 (a : BaseUint BITS) (b : BitVec 64) : BaseUint BITS := onLow (· ^^^ ·) a b

/-- `operator|=`, of a `uint64_t`. -/
def orAssign64 (a : BaseUint BITS) (b : BitVec 64) : BaseUint BITS := onLow (· ||| ·) a b

/-! ## Shifts -/

/-- One turn of `<<=`: the word `x` at `i` goes to `i + k` and `i + k + 1`. -/
def shlTurn (WIDTH k shift : Nat) (pn : List (BitVec 32)) (i : Nat) (x : BitVec 32) : List (BitVec 32) :=
  let pn := if i + k + 1 < WIDTH ∧ shift ≠ 0 then orAt pn (i + k + 1) (x >>> (32 - shift)) else pn
  if i + k < WIDTH then orAt pn (i + k) (x <<< shift) else pn

/-- One turn of `>>=`: the word `x` at `i` goes to `i - k` and `i - k - 1`. -/
def shrTurn (k shift : Nat) (pn : List (BitVec 32)) (i : Nat) (x : BitVec 32) : List (BitVec 32) :=
  let pn := if k + 1 ≤ i ∧ shift ≠ 0 then orAt pn (i - k - 1) (x <<< (32 - shift)) else pn
  if k ≤ i then orAt pn (i - k) (x >>> shift) else pn

theorem length_shlTurn (WIDTH k shift : Nat) (pn : List (BitVec 32)) (i : Nat) (x : BitVec 32) :
    (shlTurn WIDTH k shift pn i x).length = pn.length := by
  unfold shlTurn
  split <;> split <;> simp

theorem length_shrTurn (k shift : Nat) (pn : List (BitVec 32)) (i : Nat) (x : BitVec 32) :
    (shrTurn k shift pn i x).length = pn.length := by
  unfold shrTurn
  split <;> split <;> simp

/-- The loop of a shift: all words are zero at first, the ones there were are
read off a copy. -/
def shiftLoop (turn : List (BitVec 32) → Nat → BitVec 32 → List (BitVec 32))
    (hturn : ∀ pn i x, (turn pn i x).length = pn.length) (a : BaseUint BITS) : BaseUint BITS :=
  ⟨(List.range (WIDTH BITS)).foldl (fun pn i => turn pn i (a.pn.getD i 0#32)) (List.replicate (WIDTH BITS) 0#32),
    (Words.length_orLoop (fun pn i => hturn pn i _) _ _).trans List.length_replicate⟩

/-- `operator<<=`. -/
def shlAssign (a : BaseUint BITS) (shift : Nat) : BaseUint BITS :=
  shiftLoop (shlTurn (WIDTH BITS) (shift / 32) (shift % 32)) (length_shlTurn _ _ _) a

/-- `operator>>=`. -/
def shrAssign (a : BaseUint BITS) (shift : Nat) : BaseUint BITS :=
  shiftLoop (shrTurn (shift / 32) (shift % 32)) (length_shrTurn _ _) a

/-! ## Arithmetic -/

/-- One turn of `+=`: the sum of the words and the carry in 64 bits. -/
def addStep (carry : BitVec 64) (x y : BitVec 32) : BitVec 32 × BitVec 64 :=
  let n := carry + x.setWidth 64 + y.setWidth 64
  ((n &&& 0xffffffff#64).setWidth 32, n >>> 32)

/-- `operator+=`. -/
def addAssign (a : BaseUint BITS) (b : Operand BITS) : BaseUint BITS := loop addStep 0 a b

/-- `while (++pn[i] == 0 && i < WIDTH-1) i++;`. -/
def incWords : List (BitVec 32) → List (BitVec 32)
  | [] => []
  | x :: pn => (x + 1) :: if x + 1 = 0 then incWords pn else pn

/-- `while (--pn[i] == -1 && i < WIDTH-1) i++;`. -/
def decWords : List (BitVec 32) → List (BitVec 32)
  | [] => []
  | x :: pn => (x - 1) :: if x - 1 = -1 then decWords pn else pn

theorem length_incWords (pn : List (BitVec 32)) : (incWords pn).length = pn.length := by
  induction pn with
  | nil => rfl
  | cons x pn ih =>
    rw [incWords, List.length_cons, List.length_cons]
    split
    · rw [ih]
    · rfl

theorem length_decWords (pn : List (BitVec 32)) : (decWords pn).length = pn.length := by
  induction pn with
  | nil => rfl
  | cons x pn ih =>
    rw [decWords, List.length_cons, List.length_cons]
    split
    · rw [ih]
    · rfl

/-- `operator++`, the prefix one. -/
def preInc (a : BaseUint BITS) : BaseUint BITS := ⟨incWords a.pn, (length_incWords _).trans a.size⟩

/-- `operator++(int)`: what it returns, and the object after it. -/
def postInc (a : BaseUint BITS) : BaseUint BITS × BaseUint BITS := (a, preInc a)

/-- `operator--`, the prefix one. -/
def preDec (a : BaseUint BITS) : BaseUint BITS := ⟨decWords a.pn, (length_decWords _).trans a.size⟩

/-- `operator--(int)`. -/
def postDec (a : BaseUint BITS) : BaseUint BITS × BaseUint BITS := (a, preDec a)

/-- `operator-`, of one number. -/
def neg (a : BaseUint BITS) : BaseUint BITS := (postInc (compl a)).2

/-- `operator-=`. The negative is a number of its own. -/
def subAssign (a : BaseUint BITS) (b : Operand BITS) : BaseUint BITS := addAssign a (.other (neg (b.of a)))

/-- `operator+=`, of a `uint64_t`. -/
def addAssign64 (a : BaseUint BITS) (b64 : BitVec 64) : BaseUint BITS := addAssign a (.other (assign b64))

/-- `operator-=`, of a `uint64_t`. -/
def subAssign64 (a : BaseUint BITS) (b64 : BitVec 64) : BaseUint BITS := addAssign a (.other (neg (assign b64)))

/-! ## Comparisons -/

/-- The loop of the comparisons, over the words from the most significant on:
`first` decides for it, `second` against it. -/
def compareLoop (first second : BitVec 32 → BitVec 32 → Bool) (atEnd : Bool) :
    List (BitVec 32) → List (BitVec 32) → Bool
  | x :: xs, y :: ys => if first x y then true else if second x y then false else compareLoop first second atEnd xs ys
  | _, _ => atEnd

def less (x y : BitVec 32) : Bool := decide (x < y)

def greater (x y : BitVec 32) : Bool := decide (y < x)

/-- `operator<`. -/
def lt (a b : BaseUint BITS) : Bool := compareLoop less greater false a.pn.reverse b.pn.reverse

/-- `operator<=`. -/
def le (a b : BaseUint BITS) : Bool := compareLoop less greater true a.pn.reverse b.pn.reverse

/-- `operator>`. -/
def gt (a b : BaseUint BITS) : Bool := compareLoop greater less false a.pn.reverse b.pn.reverse

/-- `operator>=`. -/
def ge (a b : BaseUint BITS) : Bool := compareLoop greater less true a.pn.reverse b.pn.reverse

/-- The loop of `==`. -/
def eqWords : List (BitVec 32) → List (BitVec 32) → Bool
  | x :: xs, y :: ys => if x ≠ y then false else eqWords xs ys
  | _, _ => true

/-- `operator==`. -/
def eq (a b : BaseUint BITS) : Bool := eqWords a.pn b.pn

/-- `operator==`, with a `uint64_t`. -/
def eq64 (a : BaseUint BITS) (b : BitVec 64) : Bool :=
  if a.pn.getD 0 0 ≠ low b then false
  else if a.pn.getD 1 0 ≠ high b then false
  else (a.pn.drop 2).all fun x => decide (x = 0)

/-- `operator!=`. -/
def ne (a b : BaseUint BITS) : Bool := !eq a b

/-- `operator!=`, with a `uint64_t`. -/
def ne64 (a : BaseUint BITS) (b : BitVec 64) : Bool := !eq64 a b

/-! ## Hexadecimal -/

/-- The bytes of the array. -/
def bytes (a : BaseUint BITS) : List UInt8 := a.pn.flatMap fun x => CScript.leBytes 4 x.toNat

/-- The array that so many words of bytes are. -/
def ofBytes : Nat → List UInt8 → List (BitVec 32)
  | 0, _ => []
  | n + 1, bytes => BitVec.ofNat 32 (CScript.leNat (bytes.take 4)) :: ofBytes n (bytes.drop 4)

theorem length_ofBytes (n : Nat) (bytes : List UInt8) : (ofBytes n bytes).length = n := by
  induction n generalizing bytes with
  | zero => rfl
  | succ n ih => exact congrArg (· + 1) (ih _)

/-- `"%02x"`, of one byte. -/
def twoDigits (c : UInt8) : List UInt8 :=
  [(chars "0123456789abcdef").getD (c >>> 4).toNat 0, (chars "0123456789abcdef").getD (c &&& 15).toNat 0]

/-- `GetHex`: the most significant byte first. -/
def getHex (a : BaseUint BITS) : List UInt8 := (bytes a).reverse.flatMap twoDigits

/-- The table of the digits. What it leaves out is zero. -/
def phexdigit : List UInt8 :=
  [
    0, 0, 0, 0, 0, 0, 0, 0, 0, 0, 0, 0, 0, 0, 0, 0,
    0, 0, 0, 0, 0, 0, 0, 0, 0, 0, 0, 0, 0, 0, 0, 0,
    0, 0, 0, 0, 0, 0, 0, 0, 0, 0, 0, 0, 0, 0, 0, 0,
    0, 1, 2, 3, 4, 5, 6, 7, 8, 9, 0, 0, 0, 0, 0, 0,
    0, 0xa, 0xb, 0xc, 0xd, 0xe, 0xf, 0, 0, 0, 0, 0, 0, 0, 0, 0,
    0, 0, 0, 0, 0, 0, 0, 0, 0, 0, 0, 0, 0, 0, 0, 0,
    0, 0xa, 0xb, 0xc, 0xd, 0xe, 0xf, 0, 0, 0, 0, 0, 0, 0, 0, 0
  ]

def digit (c : UInt8) : UInt8 := phexdigit.getD c.toNat 0

/-- What the digits end before. -/
def isDigit (c : UInt8) : Bool := decide (digit c ≠ 0) || decide (c = 48)

def skip0x : List UInt8 → List UInt8
  | c :: d :: psz => if c = 48 ∧ tolower d = 120 then psz else c :: d :: psz
  | psz => psz

/-- The loop that fills the bytes, two digits each, while there is room: the
digits come with the last one first, and bytes without one stay zero. -/
def fill : Nat → List UInt8 → List UInt8
  | 0, _ => []
  | room + 1, [] => 0 :: fill room []
  | room + 1, [d] => digit d :: fill room []
  | room + 1, d :: e :: digits => (digit d ||| digit e <<< 4) :: fill room digits

/-- `SetHex`. Nothing is left of what the object was. -/
def setHex (psz : List UInt8) : BaseUint BITS :=
  let pbegin := skip0x (psz.dropWhile fun c => isspace (Char.ofNat c.toNat))
  ⟨ofBytes (WIDTH BITS) (fill (WIDTH BITS * 4) (pbegin.takeWhile isDigit).reverse), length_ofBytes _ _⟩

end BaseUint

end Pinkcoin
