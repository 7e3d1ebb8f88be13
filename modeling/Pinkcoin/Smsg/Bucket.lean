/-
The buckets of the message store: the tokens of the messages of ten minutes,
in order, and a hash of their samples that two nodes compare.
-/
import Mathlib.Data.List.Lex
import Mathlib.Data.Int.Order.Basic
import Pinkcoin.Lib.OrderedSet
import Pinkcoin.Smsg.Message
import Pinkcoin.Smsg.XxHash

namespace Pinkcoin

/-- `SecMsgToken`: a message by its time and the first bytes of its payload,
and where it lies in the bucket's file. -/
structure SecMsgToken where
  timestamp : Int
  sample : Bytes 8
  offset : Nat
  deriving DecidableEq

namespace SecMsgToken

/-- The constructor. A payload too short to sample gets a sample of zeros. -/
def ofPayload (ts : Int) (p : List UInt8) (o : Nat) : SecMsgToken where
  timestamp := ts
  sample := if h : p.length < 8 then List.Vector.replicate 8 0
    else ⟨p.take 8, by rw [List.length_take]; omega⟩
  offset := o

/-- What `operator <` compares: the time, and then the sample by `memcmp`. -/
def key (token : SecMsgToken) : Lex (Int × List Nat) := toLex (token.timestamp, token.sample.toList.map UInt8.toNat)

theorem key_eq {a b : SecMsgToken} : a.key = b.key ↔ a.timestamp = b.timestamp ∧ a.sample = b.sample := by
  have hinj : Function.Injective (List.map UInt8.toNat) := List.map_injective_iff.mpr fun _ _ => UInt8.toNat_inj.mp
  constructor
  · intro h
    obtain ⟨ht, hs⟩ := Prod.mk.inj (toLex_inj.mp h)
    exact ⟨ht, Subtype.ext (hinj hs)⟩
  · rintro ⟨ht, hs⟩
    rw [key, key, ht, hs]

end SecMsgToken

/-- `std::set<SecMsgToken>`. -/
abbrev TokenSet := OrderedSet SecMsgToken.key

/-- The hash of the samples, in the order of the set. -/
def TokenSet.hash (setTokens : TokenSet) : BitVec 32 :=
  XxHash.digest (setTokens.toList.foldl (fun state token => XxHash.update state token.sample.toList) (XxHash.init 1))

/-- `SecMsgBucket`. -/
structure SecMsgBucket where
  timeChanged : Int
  hash : BitVec 32
  nLockCount : Nat
  nLockPeerId : Nat
  setTokens : TokenSet

namespace SecMsgBucket

/-- The constructor. -/
def new : SecMsgBucket := ⟨0, 0, 0, 0, OrderedSet.empty⟩

/-- `hashBucket`. -/
def hashBucket (now : Int) (bucket : SecMsgBucket) : SecMsgBucket :=
  { bucket with timeChanged := now, hash := bucket.setTokens.hash }

/-- The stored hash is the hash of the tokens. -/
def Hashed (bucket : SecMsgBucket) : Prop := bucket.hash = bucket.setTokens.hash

instance (bucket : SecMsgBucket) : Decidable bucket.Hashed := inferInstanceAs (Decidable (_ = _))

theorem hashed_hashBucket (now : Int) (bucket : SecMsgBucket) : (bucket.hashBucket now).Hashed := rfl

end SecMsgBucket

end Pinkcoin
