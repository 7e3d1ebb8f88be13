/-
`LZ4_compress`, for an input within the 64K limit: the search for matches,
and the block it writes. A match saves at least what its token and offset
take, so a block is longer than its input by little more than the bytes that
count long runs.
-/
import Pinkcoin.Smsg.Message

namespace Pinkcoin.Lz4

def MINMATCH : Nat := 4
def LASTLITERALS : Nat := 5
def MFLIMIT : Nat := 8 + MINMATCH
def LZ4_minLength : Nat := MFLIMIT + 1
def LZ4_64KLIMIT : Nat := 64 * 1024 + (MFLIMIT - 1)
def SKIPSTRENGTH : Nat := 6
def MAX_DISTANCE : Nat := 2 ^ 16 - 1
def RUN_MASK : Nat := 15
def ML_MASK : Nat := 15

/-! ## The hash table -/

/-- Positions in the input, by the hash of the four bytes there. -/
abbrev Table := Nat → Nat

variable (source : List UInt8)

def byte (p : Nat) : UInt8 := source.getD p 0

/-- `A32`. -/
def A32 (p : Nat) : Nat := CScript.leNat ((source.drop p).take 4)

/-- `LZ4_hashPosition`, with a table of 16-bit positions. -/
def hashPosition (p : Nat) : Nat := A32 source p * 2654435761 % 2 ^ 32 / 2 ^ 19

/-- `LZ4_putPosition`. -/
def putPosition (p : Nat) (table : Table) : Table := fun h => if h = hashPosition source p then p % 2 ^ 16 else table h

/-- `LZ4_getPosition`. -/
def getPosition (p : Nat) (table : Table) : Nat := table (hashPosition source p)

/-- The four bytes at `ref` and `ip` are equal, and `ref` is near enough. -/
def isMatch (ref ip : Nat) : Prop := ip ≤ ref + MAX_DISTANCE ∧ A32 source ref = A32 source ip

instance (ref ip : Nat) : Decidable (isMatch source ref ip) := inferInstanceAs (Decidable (_ ∧ _))

/-! ## The search -/

/-- The loop that finds a match, in steps that grow with the attempts after
the first 67. The hash it carries along is that of the next position. -/
def findMatch (attempts forwardIp : Nat) (table : Table) : Option (Nat × Nat × Table) :=
  let step := (67 + attempts) / 2 ^ SKIPSTRENGTH
  if source.length < forwardIp + step + MFLIMIT then none
  else
    let ref := getPosition source forwardIp table
    let table := putPosition source forwardIp table
    if isMatch source ref forwardIp then some (forwardIp, ref, table)
    else findMatch (attempts + 1) (forwardIp + step) table
termination_by source.length - forwardIp
decreasing_by
  have hstep : 0 < (67 + attempts) / 2 ^ SKIPSTRENGTH := Nat.div_pos (by simp only [SKIPSTRENGTH]; omega) (by decide)
  simp only [MFLIMIT, MINMATCH] at *
  omega

/-- Catch up: the match is extended backwards, down to the anchor. -/
def catchUp (anchor : Nat) : Nat → Nat → Nat × Nat
  | 0, ref => (0, ref)
  | ip + 1, ref =>
    if anchor < ip + 1 ∧ 0 < ref ∧ byte source ip = byte source (ref - 1) then catchUp anchor ip (ref - 1) else (ip + 1, ref)

/-- How far the bytes at `ip` and `ref` agree, at most `fuel` of them. -/
def count : Nat → Nat → Nat → Nat
  | 0, _, _ => 0
  | fuel + 1, ip, ref => if byte source ip = byte source ref then count fuel (ip + 1) (ref + 1) + 1 else 0

/-! ## Decompression without room -/

/-- The bytes of a run length: up to the first that is not 255. -/
def runBytes : List UInt8 → Nat
  | [] => 0
  | s :: rest => if s = 255 then runBytes rest + 1 else 1

/-- What `LZ4_decompress_safe` returns for a capacity that is negative as an
`int`: the first token is read, and the length of its run, whose literals do
not fit. -/
def refusal : Int := -(1 + (if byte source 0 / 16 = 15 then runBytes (source.drop 1) else 0) : Nat) - 1

theorem refusal_lt : refusal source < -1 := by
  rw [refusal]
  omega

/-! ## The block -/

/-- The bytes after a token that count what its four bits cannot hold. -/
def lengthBytes (length : Nat) : List UInt8 :=
  if length < RUN_MASK then [] else List.replicate ((length - RUN_MASK) / 255) 255 ++ [UInt8.ofNat ((length - RUN_MASK) % 255)]

/-- The four bits of the token. -/
def tokenBits (length : Nat) : Nat := min length RUN_MASK

/-- One sequence: the token, the literals, the offset and the length of the
match beyond `MINMATCH`. -/
def sequence (literals : List UInt8) (offset length : Nat) : List UInt8 :=
  UInt8.ofNat (tokenBits literals.length * 16 + tokenBits length) ::
    (lengthBytes literals.length ++ (literals ++ (CScript.leBytes 2 offset ++ lengthBytes length)))

/-- `_last_literals`. -/
def lastLiterals (anchor : Nat) : List UInt8 :=
  let literals := source.drop anchor
  UInt8.ofNat (tokenBits literals.length * 16) :: (lengthBytes literals.length ++ literals)

theorem le_findMatch {attempts forwardIp ip ref : Nat} {table table' : Table}
    (h : findMatch source attempts forwardIp table = some (ip, ref, table')) : forwardIp ≤ ip := by
  fun_induction findMatch source attempts forwardIp table with
  | case1 => simp at h
  | case2 =>
    obtain ⟨rfl, -⟩ := Prod.mk.inj (Option.some.inj h)
    exact le_rfl
  | case3 attempts forwardIp table step _ _ _ _ ih =>
    exact Nat.le_trans (Nat.le_add_right forwardIp step) (ih h)

theorem le_catchUp {anchor ip : Nat} (ref : Nat) (h : anchor ≤ ip) : anchor ≤ (catchUp source anchor ip ref).1 := by
  induction ip generalizing ref with
  | zero => exact h
  | succ ip ih =>
    rw [catchUp]
    split
    next hlt => exact ih (ref - 1) (by omega)
    next => exact h

/-- A match that was found, and the anchor its literals start at. -/
structure Match where
  anchor : Nat
  ip : Nat
  ref : Nat
  le : anchor ≤ ip

/-- The next match at or after `ip`. -/
def search (anchor ip : Nat) (h : anchor ≤ ip) (table : Table) : Option (Match × Table) :=
  match hfind : findMatch source 0 ip table with
  | none => none
  | some (found, ref, table) =>
    let caught := catchUp source anchor found ref
    some (⟨anchor, caught.1, caught.2, le_catchUp source ref (Nat.le_trans h (le_findMatch source hfind))⟩, table)

/-- Where a match ends: it is counted up to the last literals. -/
def matchEnd (m : Match) : Nat :=
  m.ip + MINMATCH + count source (source.length - LASTLITERALS - (m.ip + MINMATCH)) (m.ip + MINMATCH) (m.ref + MINMATCH)

/-- After a match: the place right behind it is tried first, and then the
search goes on. -/
def nextMatch (ip : Nat) (table : Table) : Option (Match × Table) :=
  let table := putPosition source (ip - 2) table
  let ref := getPosition source ip table
  let table := putPosition source ip table
  if isMatch source ref ip then some (⟨ip, ip, ref, le_rfl⟩, table) else search source ip (ip + 1) (Nat.le_succ ip) table

theorem anchor_search {anchor ip : Nat} {h : anchor ≤ ip} {table table' : Table} {m : Match}
    (hs : search source anchor ip h table = some (m, table')) : m.anchor = anchor := by
  unfold search at hs
  split at hs
  next => simp at hs
  next =>
    obtain ⟨rfl, -⟩ := Prod.mk.inj (Option.some.inj hs)
    rfl

theorem anchor_nextMatch {ip : Nat} {table table' : Table} {m : Match} (h : nextMatch source ip table = some (m, table')) :
    m.anchor = ip := by
  simp only [nextMatch] at h
  split at h
  next =>
    obtain ⟨rfl, -⟩ := Prod.mk.inj (Option.some.inj h)
    rfl
  next => exact anchor_search source h

theorem lt_matchEnd (m : Match) : m.ip + 3 < matchEnd source m := by
  simp only [matchEnd, MINMATCH]
  omega

/-- The block from a match on. -/
def encode (m : Match) (table : Table) : List UInt8 :=
  let ip := matchEnd source m
  let written := sequence ((source.drop m.anchor).take (m.ip - m.anchor)) (m.ip - m.ref) (ip - m.ip - MINMATCH)
  if _h : source.length < ip + MFLIMIT then written ++ lastLiterals source ip
  else match _hnext : nextMatch source ip table with
    | none => written ++ lastLiterals source ip
    | some (m', table) => written ++ encode m' table
termination_by source.length - m.anchor
decreasing_by
  have hanchor := anchor_nextMatch source _hnext
  have hend := lt_matchEnd source m
  have hle := m.le
  simp only [MFLIMIT, MINMATCH] at _h
  omega

/-- `LZ4_compress`. -/
def LZ4_compress : List UInt8 :=
  if source.length < LZ4_minLength then lastLiterals source 0
  else match search source 0 1 (Nat.zero_le 1) (putPosition source 0 fun _ => 0) with
    | none => lastLiterals source 0
    | some (m, table) => encode source m table

/-! ## The size of a block -/

theorem length_lengthBytes (n : Nat) : (lengthBytes n).length = if n < 15 then 0 else (n - 15) / 255 + 1 := by
  rw [lengthBytes, RUN_MASK]
  split <;> simp

theorem length_sequence (literals : List UInt8) (offset length : Nat) :
    (sequence literals offset length).length ≤ literals.length + (length + MINMATCH) + literals.length / 255 := by
  simp only [sequence, List.length_cons, List.length_append, CScript.length_leBytes, length_lengthBytes, MINMATCH]
  split <;> split <;> omega

theorem length_lastLiterals (anchor : Nat) :
    (lastLiterals source anchor).length ≤ (source.length - anchor) + (source.length - anchor) / 255 + 2 := by
  simp only [lastLiterals, List.length_cons, List.length_append, length_lengthBytes, List.length_drop]
  split <;> omega

/-- A match is found before the last bytes. -/
theorem findMatch_add_le {attempts forwardIp ip ref : Nat} {table table' : Table}
    (h : findMatch source attempts forwardIp table = some (ip, ref, table')) : ip + MFLIMIT ≤ source.length := by
  fun_induction findMatch source attempts forwardIp table with
  | case1 => simp at h
  | case2 attempts forwardIp table step hlt =>
    obtain ⟨rfl, -⟩ := Prod.mk.inj (Option.some.inj h)
    exact Nat.le_trans (Nat.add_le_add_right (Nat.le_add_right forwardIp step) _) (Nat.not_lt.mp hlt)
  | case3 _ _ _ _ _ _ _ _ ih => exact ih h

theorem catchUp_le (anchor ip ref : Nat) : (catchUp source anchor ip ref).1 ≤ ip := by
  induction ip generalizing ref with
  | zero => exact le_rfl
  | succ ip ih =>
    rw [catchUp]
    split
    next => exact Nat.le_succ_of_le (ih (ref - 1))
    next => exact le_rfl

theorem search_add_le {anchor ip : Nat} {h : anchor ≤ ip} {table table' : Table} {m : Match}
    (hs : search source anchor ip h table = some (m, table')) : m.ip + MFLIMIT ≤ source.length := by
  unfold search at hs
  split at hs
  next => simp at hs
  next found ref _ hfind =>
    obtain ⟨rfl, -⟩ := Prod.mk.inj (Option.some.inj hs)
    have hlt := findMatch_add_le source hfind
    have hle := catchUp_le source anchor found ref
    change (catchUp source anchor found ref).1 + MFLIMIT ≤ source.length
    omega

theorem nextMatch_add_le {ip : Nat} {table table' : Table} {m : Match} (hip : ip + MFLIMIT ≤ source.length)
    (h : nextMatch source ip table = some (m, table')) : m.ip + MFLIMIT ≤ source.length := by
  simp only [nextMatch] at h
  split at h
  next =>
    obtain ⟨rfl, -⟩ := Prod.mk.inj (Option.some.inj h)
    exact hip
  next => exact search_add_le source h

theorem count_le (fuel ip ref : Nat) : count source fuel ip ref ≤ fuel := by
  induction fuel generalizing ip ref with
  | zero => exact le_rfl
  | succ fuel ih =>
    rw [count]
    split
    next => exact Nat.succ_le_succ (ih (ip + 1) (ref + 1))
    next => exact Nat.zero_le _

theorem matchEnd_le {m : Match} (h : m.ip + MFLIMIT ≤ source.length) : matchEnd source m ≤ source.length := by
  have hcount := count_le source (source.length - LASTLITERALS - (m.ip + MINMATCH)) (m.ip + MINMATCH) (m.ref + MINMATCH)
  simp only [MFLIMIT] at h
  rw [matchEnd]
  omega

/-- What is written for the literals and the match. -/
theorem length_written (m : Match) (h : m.ip + MFLIMIT ≤ source.length) (offset : Nat) :
    (sequence ((source.drop m.anchor).take (m.ip - m.anchor)) offset (matchEnd source m - m.ip - MINMATCH)).length ≤
      (matchEnd source m - m.anchor) + (m.ip - m.anchor) / 255 := by
  have hseq := length_sequence ((source.drop m.anchor).take (m.ip - m.anchor)) offset (matchEnd source m - m.ip - MINMATCH)
  have hend := lt_matchEnd source m
  have hle := m.le
  have hlen : ((source.drop m.anchor).take (m.ip - m.anchor)).length = m.ip - m.anchor := by
    rw [List.length_take, List.length_drop]
    omega
  rw [hlen] at hseq
  simp only [MINMATCH] at hseq ⊢
  omega

/-- After a match, a rest that is hardly longer than its input. -/
theorem length_written_append (m : Match) (h : m.ip + MFLIMIT ≤ source.length) (offset : Nat) (rest : List UInt8)
    (hrest : rest.length ≤ (source.length - matchEnd source m) + (source.length - matchEnd source m) / 255 + 2) :
    (sequence ((source.drop m.anchor).take (m.ip - m.anchor)) offset (matchEnd source m - m.ip - MINMATCH) ++ rest).length ≤
      (source.length - m.anchor) + (source.length - m.anchor) / 255 + 2 := by
  have hwritten := length_written source m h offset
  have hend := lt_matchEnd source m
  have hend' := matchEnd_le source h
  have hle := m.le
  rw [List.length_append]
  omega

theorem length_encode (m : Match) (table : Table) (h : m.ip + MFLIMIT ≤ source.length) :
    (encode source m table).length ≤ (source.length - m.anchor) + (source.length - m.anchor) / 255 + 2 := by
  fun_induction encode source m table with
  | case1 m table ip written hlast => exact length_written_append source m h _ _ (length_lastLiterals source ip)
  | case2 m table ip written hlast hnext => exact length_written_append source m h _ _ (length_lastLiterals source ip)
  | case3 m table ip written hlast m' table' hnext ih =>
    have hrest := ih (nextMatch_add_le source (Nat.not_lt.mp hlast) hnext)
    rw [anchor_nextMatch source hnext] at hrest
    exact length_written_append source m h _ _ hrest

/-- **A block is hardly longer than its input.** -/
theorem length_LZ4_compress : (LZ4_compress source).length ≤ source.length + source.length / 255 + 2 := by
  rw [LZ4_compress]
  split
  next => exact length_lastLiterals source 0
  next =>
    split
    next => exact length_lastLiterals source 0
    next m table hsearch =>
      have hencode := length_encode source m table (search_add_le source hsearch)
      rw [anchor_search source hsearch] at hencode
      exact hencode

end Pinkcoin.Lz4
