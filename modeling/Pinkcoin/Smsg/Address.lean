/-
Base58 addresses: a version byte and the hash of a public key, with four
bytes of a checksum, written as one number to the base 58.
-/
import Pinkcoin.Smsg.Message

namespace Pinkcoin

/-! ## Base 58 -/

def pszBase58 : List Char := "123456789ABCDEFGHJKLMNPQRSTUVWXYZabcdefghijkmnopqrstuvwxyz".toList

def isspace (c : Char) : Bool := [' ', '\t', '\n', '\x0b', '\x0c', '\r'].contains c

/-- The number the bytes stand for, the most significant first. -/
def beNat (bytes : List UInt8) : Nat := CScript.leNat bytes.reverse

/-- The digits of a number, the least significant first, at most `fuel` of
them. -/
def base58Digits : Nat → Nat → List Char
  | 0, _ => []
  | fuel + 1, n => if n = 0 then [] else pszBase58.getD (n % 58) '1' :: base58Digits fuel (n / 58)

/-- `EncodeBase58`: a zero byte at the start is a `1`. -/
def encodeBase58 (bytes : List UInt8) : List Char :=
  ((base58Digits (2 * bytes.length) (beNat bytes)) ++ (bytes.takeWhile (· = 0)).map fun _ => '1').reverse

/-- The loop over the digits, which can end with blanks only. -/
def base58Value : List Char → Nat → Option Nat
  | [], bn => some bn
  | c :: p, bn =>
    match pszBase58.idxOf? c with
    | some i => base58Value p (bn * 58 + i)
    | none => if (c :: p).all isspace then some bn else none

/-- The bytes of a number, the least significant first, without zeros at the
end. -/
def bignumBytes : Nat → Nat → List UInt8
  | 0, _ => []
  | fuel + 1, n => if n = 0 then [] else UInt8.ofNat (n % 256) :: bignumBytes fuel (n / 256)

/-- `DecodeBase58`, of the string up to its first NUL. -/
def decodeBase58 (str : List Char) : Option (List UInt8) := do
  let psz := (str.takeWhile (· ≠ '\x00')).dropWhile isspace
  let bn ← base58Value psz 0
  pure ((psz.takeWhile (· = '1')).map (fun _ => 0) ++ (bignumBytes psz.length bn).reverse)

/-! ## Addresses -/

abbrev CKeyID := Bytes 20

instance : LawfulBEq CKeyID := inferInstance

/-- `CBitcoinAddress`. -/
structure CBitcoinAddress where
  nVersion : UInt8
  vchData : List UInt8
  deriving DecidableEq

namespace CBitcoinAddress

def PUBKEY_ADDRESS : UInt8 := 3
def SCRIPT_ADDRESS : UInt8 := 28
def PUBKEY_ADDRESS_TEST : UInt8 := 55
def SCRIPT_ADDRESS_TEST : UInt8 := 196

variable (hash : List UInt8 → Bytes 32)

/-- `SetString`, with the checksum of `DecodeBase58Check`. -/
def setString (str : List Char) : Option CBitcoinAddress := do
  let vch ← decodeBase58 str
  if vch.length < 4 then none
  else
    let vchTemp := vch.take (vch.length - 4)
    if (hash vchTemp).toList.take 4 ≠ vch.drop (vch.length - 4) then none
    else match vchTemp with
      | [] => none
      | nVersion :: vchData => some ⟨nVersion, vchData⟩

/-- `ToString`. -/
def toString (addr : CBitcoinAddress) : List Char :=
  let vch := addr.nVersion :: addr.vchData
  encodeBase58 (vch ++ (hash vch).toList.take 4)

/-- `Set`, of a key. -/
def ofKeyID (fTestNet : Bool) (id : CKeyID) : CBitcoinAddress :=
  ⟨if fTestNet then PUBKEY_ADDRESS_TEST else PUBKEY_ADDRESS, id.toList⟩

/-- `IsValid`. -/
def isValid (fTestNet : Bool) (addr : CBitcoinAddress) : Prop :=
  (if fTestNet then addr.nVersion = PUBKEY_ADDRESS_TEST ∨ addr.nVersion = SCRIPT_ADDRESS_TEST
    else addr.nVersion = PUBKEY_ADDRESS ∨ addr.nVersion = SCRIPT_ADDRESS) ∧ addr.vchData.length = 20

instance (fTestNet : Bool) (addr : CBitcoinAddress) : Decidable (addr.isValid fTestNet) :=
  inferInstanceAs (Decidable ((if fTestNet then _ else _) ∧ _))

theorem length_of_isValid {fTestNet : Bool} {addr : CBitcoinAddress} (h : addr.isValid fTestNet) :
    addr.vchData.length = 20 := h.2

/-- `GetKeyID`. -/
def getKeyID (fTestNet : Bool) (addr : CBitcoinAddress) : Option CKeyID :=
  if h : addr.isValid fTestNet then
    if addr.nVersion = PUBKEY_ADDRESS ∨ addr.nVersion = PUBKEY_ADDRESS_TEST then some ⟨addr.vchData, length_of_isValid h⟩
    else none
  else none

theorem isValid_ofKeyID (fTestNet : Bool) (id : CKeyID) : (ofKeyID fTestNet id).isValid fTestNet := by
  refine ⟨?_, id.toList_length⟩
  cases fTestNet with
  | true => exact .inl rfl
  | false => exact .inl rfl

/-- An address with a key is the one `Set` makes of the key. -/
theorem ofKeyID_of_getKeyID {fTestNet : Bool} {addr : CBitcoinAddress} {id : CKeyID} (h : addr.getKeyID fTestNet = some id) :
    ofKeyID fTestNet id = addr := by
  obtain ⟨nVersion, vchData⟩ := addr
  unfold getKeyID at h
  split at h
  next hvalid =>
    split at h
    next hversion =>
      obtain rfl := Option.some.inj h
      have hver : (if fTestNet then PUBKEY_ADDRESS_TEST else PUBKEY_ADDRESS) = nVersion := by
        obtain ⟨hv, -⟩ := hvalid
        cases fTestNet with
        | true => exact hv.elim Eq.symm fun hv => absurd (hv ▸ hversion) (by decide)
        | false => exact hv.elim Eq.symm fun hv => absurd (hv ▸ hversion) (by decide)
      exact congrArg (CBitcoinAddress.mk · vchData) hver
    next => simp at h
  next => simp at h

end CBitcoinAddress

end Pinkcoin
