/-
The 32-bit xxHash, fed piece by piece, on a little-endian machine.
-/
import Pinkcoin.Script

namespace Pinkcoin.XxHash

abbrev U32 := BitVec 32

def PRIME32_1 : U32 := 2654435761
def PRIME32_2 : U32 := 2246822519
def PRIME32_3 : U32 := 3266489917
def PRIME32_4 : U32 := 668265263
def PRIME32_5 : U32 := 374761393

def rotl32 (x : U32) (r : Nat) : U32 := (x <<< r) ||| (x >>> (32 - r))

/-- `XXH_readLE32`. -/
def readLE32 (p : List UInt8) : U32 := BitVec.ofNat 32 (CScript.leNat (p.take 4))

/-- `XXH_state32_t`. `memsize` is the length of `memory`. -/
structure XXH_state32_t where
  total_len : Nat
  seed : U32
  v1 : U32
  v2 : U32
  v3 : U32
  v4 : U32
  memory : List UInt8

/-- `XXH32_init`. -/
def init (seed : U32) : XXH_state32_t where
  total_len := 0
  seed := seed
  v1 := seed + PRIME32_1 + PRIME32_2
  v2 := seed + PRIME32_2
  v3 := seed
  v4 := seed - PRIME32_1
  memory := []

def round (v : U32) (p : List UInt8) : U32 := rotl32 (v + readLE32 p * PRIME32_2) 13 * PRIME32_1

/-- Sixteen bytes, four to each accumulator. -/
def stripe (state : XXH_state32_t) (p : List UInt8) : XXH_state32_t :=
  { state with
    v1 := round state.v1 p
    v2 := round state.v2 (p.drop 4)
    v3 := round state.v3 (p.drop 8)
    v4 := round state.v4 (p.drop 12) }

/-- The loop over the whole stripes of the input. What is left goes to the
buffer. -/
def stripes : Nat → XXH_state32_t → List UInt8 → XXH_state32_t
  | 0, state, _ => state
  | fuel + 1, state, p =>
    if 16 ≤ p.length then stripes fuel (stripe state p) (p.drop 16)
    else if p = [] then state
    else { state with memory := p }

/-- `XXH32_update`. -/
def update (state : XXH_state32_t) (input : List UInt8) : XXH_state32_t :=
  let state := { state with total_len := state.total_len + input.length }
  if state.memory.length + input.length < 16 then { state with memory := state.memory ++ input }
  else if state.memory = [] then stripes (input.length + 1) state input
  else
    let fill := 16 - state.memory.length
    stripes (input.length + 1) { stripe state (state.memory ++ input.take fill) with memory := [] } (input.drop fill)

/-- The loops of the digest over the buffer, by fours and then by ones. -/
def tail : Nat → U32 → List UInt8 → U32
  | 0, h32, _ => h32
  | fuel + 1, h32, p =>
    if 4 ≤ p.length then tail fuel (rotl32 (h32 + readLE32 p * PRIME32_3) 17 * PRIME32_4) (p.drop 4)
    else match p with
      | [] => h32
      | b :: p => tail fuel (rotl32 (h32 + BitVec.ofNat 32 b.toNat * PRIME32_5) 11 * PRIME32_1) p

/-- `XXH32_digest`. -/
def digest (state : XXH_state32_t) : U32 :=
  let h32 :=
    if 16 ≤ state.total_len then rotl32 state.v1 1 + rotl32 state.v2 7 + rotl32 state.v3 12 + rotl32 state.v4 18
    else state.seed + PRIME32_5
  let h32 := tail (state.memory.length + 1) (h32 + BitVec.ofNat 32 state.total_len) state.memory
  let h32 := (h32 ^^^ (h32 >>> 15)) * PRIME32_2
  let h32 := (h32 ^^^ (h32 >>> 13)) * PRIME32_3
  h32 ^^^ (h32 >>> 16)

/-- The known value of no input under the seed 1. -/
example : digest (init 1) = 0x0B2CB792 := by decide

end Pinkcoin.XxHash
