/-
The state of the secure-message module, the cryptography it calls, and what
it meets from outside during a call.
-/
import Pinkcoin.Lib.StateError
import Pinkcoin.Types
import Pinkcoin.Smsg.Address
import Pinkcoin.Smsg.Bucket

namespace Pinkcoin

/-- `CKey` with a private key. -/
structure CKey where
  secret : Bytes 32
  fCompressedPubKey : Bool

/-- The functions of the crypto library, and the network. Where the library
can fail the value is an option. -/
structure SmsgParams where
  fTestNet : Bool
  /-- `Hash`: SHA-256 twice. -/
  hash : List UInt8 → Bytes 32
  /-- `Hash160`. -/
  hash160 : List UInt8 → Bytes 20
  sha512 : List UInt8 → Bytes 64
  hmacSha256 : Bytes 32 → List UInt8 → Option (Bytes 32)
  /-- AES-256-CBC, under a key and an initial vector. -/
  aesEncrypt : Bytes 32 → Bytes 16 → List UInt8 → Option (List UInt8)
  aesDecrypt : Bytes 32 → Bytes 16 → List UInt8 → Option (List UInt8)
  /-- The public key of a secret, compressed and not. -/
  pubKey : Bytes 32 → Bytes 33
  pubKeyUncompressed : Bytes 32 → Bytes 65
  /-- `CKey::SetPubKey` succeeds. -/
  validPubKey : List UInt8 → Bool
  /-- `ECDH_compute_key`, when it gives 32 bytes. -/
  ecdh : Bytes 32 → List UInt8 → Option (Bytes 32)
  signCompact : CKey → Bytes 32 → Bytes 65
  /-- `SetCompactSignature`, and `GetPubKey` of the key it recovers. -/
  recoverCompact : Bytes 32 → Bytes 65 → Option (List UInt8)
  /-- `LZ4_decompress_safe` into a buffer of the given size. -/
  LZ4_decompress_safe : List UInt8 → Nat → Option (List UInt8)

/-- A file of the message store: `<bucket>_01.dat`, or `<bucket>_01_wl.dat`
for what is received while the wallet is locked. -/
inductive SmsgFile
  | dat (bucket : Int)
  | wl (bucket : Int)
  deriving DecidableEq

/-- The bucket a file belongs to. -/
def SmsgFile.bucket : SmsgFile → Int
  | .dat time => time
  | .wl time => time

/-- What happens around a call: the clock, the wallet, the random bytes and
the new key of an encryption, which database and file operations succeed, how
many bytes of a record get into a file and how many of a file can be read,
what lies in memory behind a buffer, and whether the module is still enabled
the n-th time a thread looks. -/
structure SmsgEnv where
  adjustedTime : Int
  isLocked : Bool
  getKey : CKeyID → Option CKey
  dbOpen : Bool
  dbWritten : Bool
  iv : Bytes 16
  newKey : Bytes 32
  createDirectory : Bool
  fopen : SmsgFile → Bool
  fseek : Bool
  fwrite : List UInt8 → Nat
  fwriteOk : Bool
  fread : SmsgFile → Nat
  remove : SmsgFile → Bool
  heap : Nat → UInt8
  enabled : Nat → Bool

/-- `SecMsgAddress`. -/
structure SecMsgAddress where
  sAddress : List Char
  fReceiveEnabled : Bool
  fReceiveAnon : Bool

/-- `SecMsgStored`, of the inbox. -/
structure SecMsgStored where
  timeReceived : Int
  status : Nat
  sAddrTo : List Char
  vchMessage : List UInt8

/-- The globals of the module, the directory `smsgStore`, and the public keys
and the inbox of its database. -/
structure Smsg where
  fSecMsgenabled : Bool
  smsgBuckets : Map Int SecMsgBucket
  smsgAddresses : List SecMsgAddress
  files : Map SmsgFile (List UInt8)
  pubkeys : Map CKeyID (List UInt8)
  inbox : Map (List UInt8) SecMsgStored

/-- A return value that is not 0, or an exception of a key. -/
inductive SmsgError
  | rv (n : Nat)
  | keyError
  deriving DecidableEq

abbrev SmsgM := EStateM SmsgError Smsg

/-- Bytes from an offset of a buffer, and from behind it. -/
def SmsgEnv.memory (env : SmsgEnv) (vch : List UInt8) (ofs n : Nat) : List UInt8 :=
  (List.range n).map fun i => vch.getD (ofs + i) (env.heap (ofs + i))

theorem SmsgEnv.length_memory (env : SmsgEnv) (vch : List UInt8) (ofs n : Nat) : (env.memory vch ofs n).length = n := by
  simp [memory]

/-- Within the buffer its own bytes are read. -/
theorem SmsgEnv.memory_eq (env : SmsgEnv) {vch : List UInt8} {ofs n : Nat} (h : ofs + n ≤ vch.length) :
    env.memory vch ofs n = (vch.drop ofs).take n := by
  refine List.ext_getElem (by simp [length_memory]; omega) fun i hi hi' => ?_
  rw [length_memory] at hi
  rw [List.getElem_take, List.getElem_drop]
  simp only [memory, List.getElem_map, List.getElem_range]
  rw [List.getD_eq_getElem?_getD, List.getElem?_eq_getElem (by omega), Option.getD_some]

end Pinkcoin
