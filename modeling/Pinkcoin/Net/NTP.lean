/-
`SetNTPOffset`: the offset of the local clock, from the answers of four time
servers in up to four rounds. A server's time is a `uint64_t` of microseconds,
which wraps around; the offset is an `int64_t`. What a round gets of its
threads until it wakes up is given.
-/
import Mathlib.Algebra.Order.Ring.Int
import Pinkcoin.Lib.Hull

namespace Pinkcoin

open Hull

def nNTPUnix : Int := 2208988800

/-! ## A round -/

/-- An answer of `GetNTPTime`, and the clock of the thread after it. -/
structure NTPReply where
  timeRet : UInt64
  nowMicros : UInt64

/-- `threadGetNTPTime`: what it writes to `ntpTime`. -/
def threadGetNTPTime (reply : Option NTPReply) (startMicros : UInt64) : UInt64 :=
  match reply with
  | none => 0
  | some r => r.timeRet - (r.nowMicros - startMicros)

/-- A round: the clock at its start, the servers that have answered when it
wakes up, and the clock then. -/
structure NTPRound where
  startMicros : UInt64
  replies : Fin 4 → Option NTPReply
  nowMicros : UInt64

namespace NTPRound

/-- `ntpTime`. -/
def ntpTime (r : NTPRound) : List UInt64 := List.ofFn fun i => threadGetNTPTime (r.replies i) r.startMicros

/-- A time is there, and not that of the largest `uint32_t`. -/
def accepts (t : UInt64) : Bool :=
  decide (0 < t ∧ 10 < (((t / 1000000).toNat : Int) + nNTPUnix - (2 ^ 32 - 1 : Nat)).natAbs)

/-- The times accepted. -/
def accepted (r : NTPRound) : List UInt64 := r.ntpTime.filter accepts

/-- What is added for the wait. -/
def waitMicros (nWait : Nat) : UInt64 := UInt64.ofNat (500000 * nWait)

/-- `ntpMicros`. -/
def ntpMicros (r : NTPRound) (nWait : Nat) : List UInt64 := r.accepted.map (· + waitMicros nWait)

/-- `avMicros`. -/
def avMicros (r : NTPRound) (nWait : Nat) : UInt64 :=
  let sum := (r.ntpMicros nWait).foldl (· + ·) 0
  if 0 < (r.ntpMicros nWait).length then sum / UInt64.ofNat (r.ntpMicros nWait).length else sum

/-- `nTimeOffset += (avMicros - nowMicros)`, and its half from the second
round on. -/
def nextOffset (r : NTPRound) (nWait : Nat) (nTimeOffset : Int) : Int :=
  let sum := (nTimeOffset + ((r.avMicros nWait).toNat - r.nowMicros.toNat)).bmod (2 ^ 64)
  if 1 < nWait then sum.tdiv 2 else sum

/-- The differences of the times accepted, with the correction for the wait,
to the local time. -/
def differences (r : NTPRound) (nWait : Nat) : List Int :=
  r.accepted.map fun t => (t.toNat : Int) + (500000 * nWait : Nat) - r.nowMicros.toNat

end NTPRound

/-! ## The call -/

/-- The static counter, and the offset that `SetTimeOffset` sets. -/
structure NTPState where
  tCount : Nat
  nTimeOffset : Int

/-- The rounds, with `left` to go after `nWait = 4 - left`: `none` where it
gives up. -/
def ntpLoop (rounds : Nat → NTPRound) : Nat → Nat → Int → Option Int × Nat
  | 0, tCount, nTimeOffset => if tCount < 4 then (none, tCount) else (some nTimeOffset, tCount)
  | left + 1, tCount, nTimeOffset =>
    if tCount < 4 then
      let nWait := 4 - left
      let r := rounds nWait
      ntpLoop rounds left (tCount + (r.ntpMicros nWait).length) (r.nextOffset nWait nTimeOffset)
    else (some nTimeOffset, tCount)

/-- `SetNTPOffset`. -/
def setNTPOffset (rounds : Nat → NTPRound) (s : NTPState) : Bool × NTPState :=
  match ntpLoop rounds 4 s.tCount 0 with
  | (none, tCount) => (false, { s with tCount })
  | (some nTimeOffset, _) => (true, ⟨0, nTimeOffset.tdiv 1000000⟩)

/-- The rounds that are made, by their `nWait`. -/
def roundsMade (rounds : Nat → NTPRound) : Nat → Nat → List Nat
  | 0, _ => []
  | left + 1, tCount =>
    if tCount < 4 then (4 - left) :: roundsMade rounds left (tCount + ((rounds (4 - left)).ntpMicros (4 - left)).length)
    else []

/-- The samples of a call. -/
def callDifferences (rounds : Nat → NTPRound) (tCount : Nat) : List Int :=
  (roundsMade rounds 4 tCount).flatMap fun nWait => (rounds nWait).differences nWait

/-- Between the smallest and the largest sample, in whole seconds. -/
def AmongSamples (samples : List Int) (nSeconds : Int) : Prop := ∃ m, Within samples m ∧ nSeconds = m.tdiv 1000000

/-- Every round of the call has a time accepted. -/
def Answered (rounds : Nat → NTPRound) (tCount : Nat) : Prop :=
  ∀ nWait ∈ roundsMade rounds 4 tCount, (rounds nWait).accepted ≠ []

/-- The times of the call are so small that no sum of them wraps around. -/
def Unwrapped (rounds : Nat → NTPRound) (tCount : Nat) : Prop :=
  ∀ nWait ∈ roundsMade rounds 4 tCount, (rounds nWait).nowMicros.toNat < 2 ^ 61 ∧
    ∀ t ∈ (rounds nWait).accepted, t.toNat + 500000 * nWait < 2 ^ 61

/-- The servers are not far off: all samples of the call are within `D`
microseconds, and the local clock has run much longer. -/
def Plausible (rounds : Nat → NTPRound) (tCount : Nat) (D : Int) : Prop :=
  (∀ d ∈ callDifferences rounds tCount, -D ≤ d ∧ d ≤ D) ∧
    ∀ nWait ∈ roundsMade rounds 4 tCount, 32 * D + 10000000 ≤ (rounds nWait).nowMicros.toNat

/-! ## The mean of a round -/

theorem toNat_foldl_add (l : List UInt64) (a : UInt64) (h : a.toNat + (l.map UInt64.toNat).sum < 2 ^ 64) :
    (l.foldl (· + ·) a).toNat = a.toNat + (l.map UInt64.toNat).sum := by
  induction l generalizing a with
  | nil => simp
  | cons b l ih =>
    rw [List.map_cons, List.sum_cons] at h
    have hadd : (a + b).toNat = a.toNat + b.toNat := by
      rw [UInt64.toNat_add]
      omega
    rw [List.foldl_cons, ih (a + b) (by omega), hadd, List.map_cons, List.sum_cons]
    omega

namespace NTPRound

variable {r : NTPRound} {nWait : Nat}

theorem length_ntpMicros_le (r : NTPRound) (nWait : Nat) : (r.ntpMicros nWait).length ≤ 4 := by
  rw [ntpMicros, List.length_map]
  refine le_trans (List.length_filter_le _ _) ?_
  rw [ntpTime, List.length_ofFn]

/-- The times with their correction, as numbers. -/
theorem map_ntpMicros (hn : nWait ≤ 4) (hsmall : ∀ t ∈ r.accepted, t.toNat + 500000 * nWait < 2 ^ 61) :
    (r.ntpMicros nWait).map UInt64.toNat = r.accepted.map fun t => t.toNat + 500000 * nWait := by
  rw [ntpMicros, List.map_map]
  refine List.map_congr_left fun t ht => ?_
  have ht' := hsmall t ht
  have hwait : (waitMicros nWait).toNat = 500000 * nWait := by
    rw [waitMicros, UInt64.toNat_ofNat', Nat.mod_eq_of_lt (by omega)]
  rw [Function.comp_apply, UInt64.toNat_add, hwait]
  omega

theorem sum_ntpMicros_lt (hn : nWait ≤ 4) (hsmall : ∀ t ∈ r.accepted, t.toNat + 500000 * nWait < 2 ^ 61) :
    ((r.ntpMicros nWait).map UInt64.toNat).sum < 2 ^ 64 := by
  have hbound : ∀ n ∈ (r.ntpMicros nWait).map UInt64.toNat, n ≤ 2 ^ 61 := by
    rw [map_ntpMicros hn hsmall]
    intro n hmem
    obtain ⟨t, ht, rfl⟩ := List.mem_map.mp hmem
    exact Nat.le_of_lt (hsmall t ht)
  have hsum := List.sum_le_card_nsmul _ _ hbound
  have hlen := length_ntpMicros_le r nWait
  rw [List.length_map, smul_eq_mul] at hsum
  omega

/-- **The mean of a round is among its samples.** -/
theorem within_round (hn : nWait ≤ 4) (hsmall : ∀ t ∈ r.accepted, t.toNat + 500000 * nWait < 2 ^ 61)
    (hsome : r.accepted ≠ []) :
    Within (r.differences nWait) (((r.avMicros nWait).toNat : Int) - r.nowMicros.toNat) := by
  have hmap := map_ntpMicros hn hsmall
  have hsum := sum_ntpMicros_lt hn hsmall
  have hlen : (r.ntpMicros nWait).length = r.accepted.length := by rw [ntpMicros, List.length_map]
  have hpos : 0 < r.accepted.length := List.length_pos_iff.mpr hsome
  have hfour := length_ntpMicros_le r nWait
  have hmean : (r.avMicros nWait).toNat =
      (r.accepted.map fun t => t.toNat + 500000 * nWait).sum / (r.accepted.map fun t => t.toNat + 500000 * nWait).length := by
    have hcast : (UInt64.ofNat (r.ntpMicros nWait).length).toNat = (r.ntpMicros nWait).length := by
      rw [UInt64.toNat_ofNat', Nat.mod_eq_of_lt (by omega)]
    rw [avMicros, if_pos (hlen ▸ hpos), UInt64.toNat_div, hcast, toNat_foldl_add _ 0 (by simpa using hsum), hmap, hlen,
      List.length_map]
    simp
  have hne : (r.accepted.map fun t => t.toNat + 500000 * nWait) ≠ [] := fun h => hsome (List.map_eq_nil_iff.mp h)
  obtain ⟨⟨a, ha, hle⟩, b, hb, hge⟩ := mean_within hne
  rw [← hmean] at hle hge
  obtain ⟨t, ht, rfl⟩ := List.mem_map.mp ha
  obtain ⟨u, hu, rfl⟩ := List.mem_map.mp hb
  refine ⟨⟨_, List.mem_map.mpr ⟨t, ht, rfl⟩, by omega⟩, _, List.mem_map.mpr ⟨u, hu, rfl⟩, by omega⟩

/-- Without a sample the mean is 0. -/
theorem avMicros_eq_zero (h : r.accepted = []) : r.avMicros nWait = 0 := by
  rw [avMicros, ntpMicros, h]
  rfl

theorem nextOffset_first (hwait : nWait ≤ 1) {x : Int}
    (hrange : -2 ^ 63 ≤ x + ((r.avMicros nWait).toNat - r.nowMicros.toNat) ∧
      x + ((r.avMicros nWait).toNat - r.nowMicros.toNat) < 2 ^ 63) :
    r.nextOffset nWait x = x + ((r.avMicros nWait).toNat - r.nowMicros.toNat) := by
  rw [nextOffset, if_neg (by omega)]
  exact Int.bmod_eq_of_le (by omega) (by omega)

theorem nextOffset_later (hwait : 1 < nWait) {x : Int}
    (hrange : -2 ^ 63 ≤ x + ((r.avMicros nWait).toNat - r.nowMicros.toNat) ∧
      x + ((r.avMicros nWait).toNat - r.nowMicros.toNat) < 2 ^ 63) :
    r.nextOffset nWait x = (x + ((r.avMicros nWait).toNat - r.nowMicros.toNat)).tdiv 2 := by
  have hsum : (x + ((r.avMicros nWait).toNat - r.nowMicros.toNat)).bmod (2 ^ 64) =
      x + ((r.avMicros nWait).toNat - r.nowMicros.toNat) := Int.bmod_eq_of_le (by omega) (by omega)
  rw [nextOffset, hsum, if_pos hwait]

/-- Samples of a round that does not wrap around are no larger than 62 bits. -/
theorem differences_bounds (hsmall : ∀ t ∈ r.accepted, t.toNat + 500000 * nWait < 2 ^ 61) (hnow : r.nowMicros.toNat < 2 ^ 61) :
    ∀ d ∈ r.differences nWait, -2 ^ 61 ≤ d ∧ d ≤ 2 ^ 61 := by
  intro d hd
  obtain ⟨t, ht, rfl⟩ := List.mem_map.mp hd
  have := hsmall t ht
  omega

/-- What a round without wrap-around adds is no larger than 62 bits. -/
theorem mean_bounds (hn : nWait ≤ 4) (hsmall : ∀ t ∈ r.accepted, t.toNat + 500000 * nWait < 2 ^ 61)
    (hnow : r.nowMicros.toNat < 2 ^ 61) :
    -2 ^ 61 ≤ ((r.avMicros nWait).toNat : Int) - r.nowMicros.toNat ∧
      ((r.avMicros nWait).toNat : Int) - r.nowMicros.toNat ≤ 2 ^ 61 := by
  by_cases hsome : r.accepted = []
  · rw [avMicros_eq_zero hsome]
    have hzero : (0 : UInt64).toNat = 0 := rfl
    omega
  · exact (within_round hn hsmall hsome).between (differences_bounds hsmall hnow)

/-- The offset stays in 62 bits: in the first round it is the mean, and later
half of the sum. -/
theorem nextOffset_bounds (hn : nWait ≤ 4) (hsmall : ∀ t ∈ r.accepted, t.toNat + 500000 * nWait < 2 ^ 61)
    (hnow : r.nowMicros.toNat < 2 ^ 61) {x : Int} (hx : -2 ^ 61 ≤ x ∧ x ≤ 2 ^ 61) (hfirst : nWait ≤ 1 → x = 0) :
    (nWait ≤ 1 → r.nextOffset nWait x = ((r.avMicros nWait).toNat : Int) - r.nowMicros.toNat) ∧
      (1 < nWait → r.nextOffset nWait x = (x + ((r.avMicros nWait).toNat - r.nowMicros.toNat)).tdiv 2) ∧
      -2 ^ 61 ≤ r.nextOffset nWait x ∧ r.nextOffset nWait x ≤ 2 ^ 61 := by
  have hmean := mean_bounds hn hsmall hnow
  by_cases hwait : nWait ≤ 1
  · have hnext := nextOffset_first (r := r) (x := x) hwait (by omega)
    rw [hfirst hwait, Int.zero_add] at hnext
    rw [hfirst hwait, hnext]
    exact ⟨fun _ => rfl, fun hlater => absurd hwait (Nat.not_le.mpr hlater), hmean⟩
  · have hnext := nextOffset_later (r := r) (x := x) (Nat.not_le.mp hwait) (by omega)
    have hhalf := tdiv_two_bounds (x + ((r.avMicros nWait).toNat - r.nowMicros.toNat))
    rw [hnext]
    exact ⟨fun h => absurd h hwait, fun _ => rfl, by omega, by omega⟩

end NTPRound

/-! ## The rounds of a call -/

open NTPRound

variable {rounds : Nat → NTPRound} {left tCount c : Nat} {x o : Int}

theorem roundsMade_of_lt (h : tCount < 4) : roundsMade rounds (left + 1) tCount = (4 - left) ::
    roundsMade rounds left (tCount + ((rounds (4 - left)).ntpMicros (4 - left)).length) := by
  rw [roundsMade, if_pos h]

theorem ntpLoop_of_lt (h : tCount < 4) : ntpLoop rounds (left + 1) tCount x =
    ntpLoop rounds left (tCount + ((rounds (4 - left)).ntpMicros (4 - left)).length)
      ((rounds (4 - left)).nextOffset (4 - left) x) := by
  rw [ntpLoop, if_pos h]

theorem ntpLoop_of_le (h : 4 ≤ tCount) : ntpLoop rounds left tCount x = (some x, tCount) := by
  cases left with
  | zero => rw [ntpLoop, if_neg (Nat.not_lt.mpr h)]
  | succ left => rw [ntpLoop, if_neg (Nat.not_lt.mpr h)]

/-- The counter of a call that gives up stays below 4. -/
theorem ntpLoop_none (h : ntpLoop rounds left tCount x = (none, c)) : c < 4 := by
  induction left generalizing tCount x with
  | zero =>
    rw [ntpLoop] at h
    split at h
    next hlt => exact (Prod.mk.inj h).2 ▸ hlt
    next => exact nomatch (Prod.mk.inj h).1
  | succ left ih =>
    by_cases hlt : tCount < 4
    · rw [ntpLoop_of_lt hlt] at h
      exact ih h
    · rw [ntpLoop_of_le (Nat.not_lt.mp hlt)] at h
      exact nomatch (Prod.mk.inj h).1

/-- The rounds to come do not wrap around. -/
def SmallRounds (rounds : Nat → NTPRound) (made : List Nat) : Prop :=
  ∀ nWait ∈ made, (rounds nWait).nowMicros.toNat < 2 ^ 61 ∧ ∀ t ∈ (rounds nWait).accepted, t.toNat + 500000 * nWait < 2 ^ 61

/-- **The mean of a call stays among its samples**: what it holds so far is
among those so far, and each round with samples keeps it among them and its
own. -/
theorem ntpLoop_within (hleft : left ≤ 4) (hsmall : SmallRounds rounds (roundsMade rounds left tCount))
    (hsome : ∀ nWait ∈ roundsMade rounds left tCount, (rounds nWait).accepted ≠ []) {samples : List Int}
    (hbounds : ∀ d ∈ samples, -2 ^ 61 ≤ d ∧ d ≤ 2 ^ 61)
    (hx : left = 4 ∧ tCount < 4 ∧ x = 0 ∧ samples = [] ∨ left < 4 ∧ Within samples x)
    (h : ntpLoop rounds left tCount x = (some o, c)) :
    Within (samples ++ (roundsMade rounds left tCount).flatMap fun nWait => (rounds nWait).differences nWait) o := by
  induction left generalizing tCount x samples with
  | zero =>
    obtain ⟨hzero, -⟩ | ⟨-, hx⟩ := hx
    · exact absurd hzero (by decide)
    · rw [ntpLoop] at h
      split at h
      next => exact nomatch (Prod.mk.inj h).1
      next =>
        obtain rfl := Option.some.inj (Prod.mk.inj h).1
        exact hx.append_left
  | succ left ih =>
    by_cases hlt : tCount < 4
    · have hn : 4 - left ≤ 4 := Nat.sub_le 4 left
      rw [roundsMade_of_lt hlt] at hsmall hsome ⊢
      rw [ntpLoop_of_lt hlt] at h
      obtain ⟨hnow, htimes⟩ := hsmall _ List.mem_cons_self
      have hround := within_round hn htimes (hsome _ List.mem_cons_self)
      have hrange : -2 ^ 61 ≤ x ∧ x ≤ 2 ^ 61 := by
        rcases hx with ⟨-, -, rfl, -⟩ | ⟨-, hx⟩
        · exact ⟨by decide, by decide⟩
        · exact hx.between hbounds
      have hfirst : 4 - left ≤ 1 → x = 0 := fun hone => by
        rcases hx with ⟨-, -, hzero, -⟩ | ⟨hlater, -⟩
        · exact hzero
        · omega
      obtain ⟨hone, hmore, -⟩ := nextOffset_bounds hn htimes hnow hrange hfirst
      have hnext : Within (samples ++ (rounds (4 - left)).differences (4 - left))
          ((rounds (4 - left)).nextOffset (4 - left) x) := by
        rcases hx with ⟨hfour, -, -, -⟩ | ⟨hlater, hx⟩
        · rw [hone (by omega)]
          exact hround.append_right
        · rw [hmore (by omega)]
          exact hx.append_left.mean hround.append_right
      have hbounds' : ∀ d ∈ samples ++ (rounds (4 - left)).differences (4 - left), -2 ^ 61 ≤ d ∧ d ≤ 2 ^ 61 := fun d hd => by
        rcases List.mem_append.mp hd with hd | hd
        · exact hbounds d hd
        · exact differences_bounds htimes hnow d hd
      rw [List.flatMap_cons, ← List.append_assoc]
      exact ih (by omega) (fun n hmem => hsmall n (List.mem_cons_of_mem _ hmem))
        (fun n hmem => hsome n (List.mem_cons_of_mem _ hmem)) hbounds' (.inr ⟨by omega, hnext⟩) h
    · rcases hx with ⟨-, hcount, -, -⟩ | ⟨-, hx⟩
      · exact absurd hcount hlt
      · rw [ntpLoop_of_le (Nat.not_lt.mp hlt)] at h
        obtain rfl := Option.some.inj (Prod.mk.inj h).1
        exact hx.append_left

/-! ## A round without samples -/

section Low

variable {D : Int}

/-- What a round adds is at most `D` where its samples are. -/
theorem mean_le {nWait : Nat} (hn : nWait ≤ 4)
    (htimes : ∀ t ∈ (rounds nWait).accepted, t.toNat + 500000 * nWait < 2 ^ 61) (hD : 0 ≤ D)
    (hall : ∀ d ∈ (rounds nWait).differences nWait, -D ≤ d ∧ d ≤ D) :
    (((rounds nWait).avMicros nWait).toNat : Int) - (rounds nWait).nowMicros.toNat ≤ D := by
  by_cases hsome : (rounds nWait).accepted = []
  · rw [avMicros_eq_zero hsome]
    have hzero : (0 : UInt64).toNat = 0 := rfl
    omega
  · exact ((within_round hn htimes hsome).between hall).2

/-- An offset that is low by far stays low: each round to come halves it at
most. -/
theorem ntpLoop_stays_low (hleft : left < 4) (hD : 0 ≤ D) (hsmall : SmallRounds rounds (roundsMade rounds left tCount))
    (hall : ∀ nWait ∈ roundsMade rounds left tCount, ∀ d ∈ (rounds nWait).differences nWait, -D ≤ d ∧ d ≤ D)
    (hrange : -2 ^ 61 ≤ x) (hx : x ≤ D + 1 - 2 ^ left * (2 * D + 1000001))
    (h : ntpLoop rounds left tCount x = (some o, c)) : o ≤ -D - 1000000 := by
  induction left generalizing tCount x with
  | zero =>
    rw [ntpLoop] at h
    split at h
    next => exact nomatch (Prod.mk.inj h).1
    next =>
      obtain rfl := Option.some.inj (Prod.mk.inj h).1
      omega
  | succ left ih =>
    have hpos : 2 * D + 1000001 ≤ 2 ^ left * (2 * D + 1000001) := by
      have hpow : (1 : Int) ≤ 2 ^ left := one_le_pow₀ (by omega)
      exact le_mul_of_one_le_left (by omega) hpow
    rw [pow_succ, mul_comm ((2 : Int) ^ left) 2, mul_assoc] at hx
    generalize hT : (2 : Int) ^ left * (2 * D + 1000001) = T at *
    by_cases hlt : tCount < 4
    · have hn : 4 - left ≤ 4 := Nat.sub_le 4 left
      rw [roundsMade_of_lt hlt] at hsmall hall
      rw [ntpLoop_of_lt hlt] at h
      obtain ⟨hnow, htimes⟩ := hsmall _ List.mem_cons_self
      have hmean := mean_le hn htimes hD (hall _ List.mem_cons_self)
      obtain ⟨-, hmore, hlow, -⟩ := nextOffset_bounds (x := x) hn htimes hnow ⟨hrange, by omega⟩ (by omega)
      have hhalf := tdiv_two_bounds
        (x + (((rounds (4 - left)).avMicros (4 - left)).toNat - (rounds (4 - left)).nowMicros.toNat))
      rw [← hmore (by omega)] at hhalf
      exact ih (by omega) (fun n hmem => hsmall n (List.mem_cons_of_mem _ hmem))
        (fun n hmem => hall n (List.mem_cons_of_mem _ hmem)) hlow (by omega) h
    · rw [ntpLoop_of_le (Nat.not_lt.mp hlt)] at h
      obtain rfl := Option.some.inj (Prod.mk.inj h).1
      omega

/-- **A round without samples takes the offset away from the samples.** -/
theorem ntpLoop_low (hleft : left ≤ 4) (hD : 0 ≤ D) (hsmall : SmallRounds rounds (roundsMade rounds left tCount))
    (hall : ∀ nWait ∈ roundsMade rounds left tCount, (∀ d ∈ (rounds nWait).differences nWait, -D ≤ d ∧ d ≤ D) ∧
      32 * D + 10000000 ≤ (rounds nWait).nowMicros.toNat)
    (hrange : -2 ^ 61 ≤ x) (hx : x ≤ D) (hfirst : left = 4 → x = 0)
    (hempty : ∃ nWait ∈ roundsMade rounds left tCount, (rounds nWait).accepted = [])
    (h : ntpLoop rounds left tCount x = (some o, c)) : o ≤ -D - 1000000 := by
  induction left generalizing tCount x with
  | zero =>
    obtain ⟨n, hn, -⟩ := hempty
    exact nomatch hn
  | succ left ih =>
    by_cases hlt : tCount < 4
    · have hn : 4 - left ≤ 4 := Nat.sub_le 4 left
      rw [roundsMade_of_lt hlt] at hsmall hall hempty
      rw [ntpLoop_of_lt hlt] at h
      obtain ⟨hnow, htimes⟩ := hsmall _ List.mem_cons_self
      obtain ⟨hdiffs, hlong⟩ := hall _ List.mem_cons_self
      have hmean := mean_le hn htimes hD hdiffs
      obtain ⟨hone, hmore, hlow, -⟩ := nextOffset_bounds (x := x) hn htimes hnow ⟨hrange, by omega⟩ (by omega)
      have hhalf := tdiv_two_bounds
        (x + (((rounds (4 - left)).avMicros (4 - left)).toNat - (rounds (4 - left)).nowMicros.toNat))
      have hsmall' : SmallRounds rounds _ := fun n hmem => hsmall n (List.mem_cons_of_mem _ hmem)
      by_cases hsome : (rounds (4 - left)).accepted = []
      · -- from here it is low: the round adds minus the local time
        have hzero : ((rounds (4 - left)).avMicros (4 - left)).toNat = 0 := by
          rw [avMicros_eq_zero hsome]
          rfl
        refine ntpLoop_stays_low (by omega) hD hsmall' (fun n hmem => (hall n (List.mem_cons_of_mem _ hmem)).1) hlow ?_ h
        by_cases hthree : left = 3
        · subst hthree
          rw [hone (by omega), hzero]
          omega
        · have hpow : (2 : Int) ^ left * (2 * D + 1000001) ≤ 2 ^ 2 * (2 * D + 1000001) := by
            have hle : (2 : Int) ^ left ≤ 2 ^ 2 := pow_le_pow_right₀ (by omega) (by omega)
            exact mul_le_mul_of_nonneg_right hle (by omega)
          rw [← hmore (by omega), hzero] at hhalf
          omega
      · have hempty' : ∃ nWait ∈ roundsMade rounds left (tCount + ((rounds (4 - left)).ntpMicros (4 - left)).length),
            (rounds nWait).accepted = [] := by
          obtain ⟨n, hmem, hnone⟩ := hempty
          rcases List.mem_cons.mp hmem with rfl | hmem
          · exact absurd hnone hsome
          · exact ⟨n, hmem, hnone⟩
        refine ih (by omega) hsmall' (fun n hmem => hall n (List.mem_cons_of_mem _ hmem)) hlow ?_ (by omega) hempty' h
        by_cases hthree : left = 3
        · rw [hone (by omega)]
          exact hmean
        · rw [← hmore (by omega)] at hhalf
          omega
    · rw [roundsMade, if_neg hlt] at hempty
      obtain ⟨n, hn, -⟩ := hempty
      exact nomatch hn

end Low

/-! ## The offset set -/

/-- Whole seconds keep apart what is a second or more apart, where one of the
two is a second or more below zero. -/
theorem tdiv_lt_tdiv {a b : Int} (ha : a ≤ -1000000) (hab : a + 1000000 ≤ b) : a.tdiv 1000000 < b.tdiv 1000000 := by
  have hneg : ∀ {n : Int}, n ≤ 0 → n.tdiv 1000000 = -((-n) / 1000000) := fun hn => by
    rw [← Int.tdiv_eq_ediv_of_nonneg (Int.neg_nonneg.mpr hn), Int.neg_tdiv, Int.neg_neg]
  rw [hneg (by omega)]
  rcases Int.le_total 0 b with hb | hb
  · rw [Int.tdiv_eq_ediv_of_nonneg hb]
    omega
  · rw [hneg hb]
    omega

theorem setNTPOffset_none {s : NTPState} (h : ntpLoop rounds 4 s.tCount 0 = (none, c)) :
    setNTPOffset rounds s = (false, { s with tCount := c }) := by
  rw [setNTPOffset, h]

theorem setNTPOffset_some {s : NTPState} (h : ntpLoop rounds 4 s.tCount 0 = (some o, c)) :
    setNTPOffset rounds s = (true, ⟨0, o.tdiv 1000000⟩) := by
  rw [setNTPOffset, h]

/-- **The offset and its samples.** A call that fails leaves the offset; one
that succeeds, where nothing wraps around, sets an offset among the samples of
the call if every round had one, and, where the servers are not far off, only
then. The counter is below 4 before every call. -/
theorem ntp_offset_among_iff (rounds : Nat → NTPRound) (s : NTPState) (D : Int) (hcount : s.tCount < 4) :
    (setNTPOffset rounds s).2.tCount < 4 ∧
      ((setNTPOffset rounds s).1 = false → (setNTPOffset rounds s).2.nTimeOffset = s.nTimeOffset) ∧
      ((setNTPOffset rounds s).1 = true → Unwrapped rounds s.tCount →
        (Answered rounds s.tCount →
          AmongSamples (callDifferences rounds s.tCount) (setNTPOffset rounds s).2.nTimeOffset) ∧
        (0 ≤ D → Plausible rounds s.tCount D →
          (AmongSamples (callDifferences rounds s.tCount) (setNTPOffset rounds s).2.nTimeOffset ↔
            Answered rounds s.tCount))) := by
  cases hloop : ntpLoop rounds 4 s.tCount 0 with
  | mk result c =>
    cases result with
    | none =>
      rw [setNTPOffset_none hloop]
      exact ⟨ntpLoop_none hloop, fun _ => rfl, nofun⟩
    | some o =>
      rw [setNTPOffset_some hloop]
      refine ⟨Nat.zero_lt_succ 3, nofun, fun _ hsmall => ?_⟩
      have hamong : Answered rounds s.tCount → AmongSamples (callDifferences rounds s.tCount) (o.tdiv 1000000) := fun hsome =>
        ⟨o, ntpLoop_within (Nat.le_refl 4) hsmall hsome (List.forall_mem_nil _) (.inl ⟨rfl, hcount, rfl, rfl⟩) hloop, rfl⟩
      refine ⟨hamong, fun hD hplausible => ⟨fun ⟨m, hm, hseconds⟩ => ?_, hamong⟩⟩
      by_contra hnot
      have hempty : ∃ nWait ∈ roundsMade rounds 4 s.tCount, (rounds nWait).accepted = [] := by
        simpa [Answered] using hnot
      have hlow : o ≤ -D - 1000000 := by
        refine ntpLoop_low (Nat.le_refl 4) hD hsmall (fun n hn => ⟨fun d hd => ?_, hplausible.2 n hn⟩) (by decide) hD
          (fun _ => rfl) hempty hloop
        exact hplausible.1 d (List.mem_flatMap.mpr ⟨n, hn, hd⟩)
      have hbetween := hm.between hplausible.1
      exact absurd hseconds (Int.ne_of_lt (tdiv_lt_tdiv (by omega) (by omega)))

/-- A round in which all four servers answer with the local time, late by
`wait`. -/
def exactRound (nWait : Nat) : NTPRound :=
  ⟨1600000000000000, fun _ => some ⟨UInt64.ofNat (1600000001000000 - 500000 * nWait), 1600000000000000⟩, 1600000001000000⟩

/-- A round in which no server answers. -/
def silentRound : NTPRound := ⟨1600000000000000, fun _ => none, 1600000000500000⟩

theorem ntp_offset_among_iff_sample : (setNTPOffset (fun _ => exactRound 1) ⟨0, 7⟩).1 = true ∧
    AmongSamples (callDifferences (fun _ => exactRound 1) 0) (setNTPOffset (fun _ => exactRound 1) ⟨0, 7⟩).2.nTimeOffset := by
  have htrue : (setNTPOffset (fun _ => exactRound 1) ⟨0, 7⟩).1 = true := by decide +kernel
  have hmade : roundsMade (fun _ => exactRound 1) 4 0 = [1] := by decide +kernel
  have hsmall : (exactRound 1).accepted.all (fun t => decide (t.toNat + 500000 * 1 < 2 ^ 61)) = true := by decide +kernel
  have hunwrapped : Unwrapped (fun _ => exactRound 1) 0 := by
    intro n hn
    rw [hmade] at hn
    obtain rfl := List.mem_singleton.mp hn
    exact ⟨by decide +kernel, fun t ht => of_decide_eq_true (List.all_eq_true.mp hsmall t ht)⟩
  have hplausible : Plausible (fun _ => exactRound 1) 0 1000 := by
    refine ⟨by decide +kernel, fun n hn => ?_⟩
    rw [hmade] at hn
    obtain rfl := List.mem_singleton.mp hn
    decide +kernel
  have hanswered : Answered (fun _ => exactRound 1) 0 := by
    intro n hn
    rw [hmade] at hn
    obtain rfl := List.mem_singleton.mp hn
    decide +kernel
  have hiff := ((ntp_offset_among_iff (fun _ => exactRound 1) ⟨0, 7⟩ 1000 (by decide)).2.2 htrue hunwrapped).2 (by decide)
    hplausible
  exact ⟨htrue, hiff.mpr hanswered⟩

/-- After a round without an answer four exact answers set the clock back by
half of the time it shows. -/
theorem not_ntp_offset_among : ¬ ∀ (rounds : Nat → NTPRound) (s : NTPState), s.tCount < 4 →
    (setNTPOffset rounds s).1 = true →
      AmongSamples (callDifferences rounds s.tCount) (setNTPOffset rounds s).2.nTimeOffset := by
  intro h
  have hcall := h (fun nWait => if nWait = 1 then silentRound else exactRound 2) ⟨0, 0⟩ (by decide) (by decide +kernel)
  have hoffset : (setNTPOffset (fun nWait => if nWait = 1 then silentRound else exactRound 2) ⟨0, 0⟩).2.nTimeOffset =
      -800000000 := by decide +kernel
  have hsamples : callDifferences (fun nWait => if nWait = 1 then silentRound else exactRound 2) 0 = [0, 0, 0, 0] := by
    decide +kernel
  rw [hoffset, hsamples] at hcall
  obtain ⟨m, hm, hseconds⟩ := hcall
  have hbetween := hm.between (a := 0) (b := 0) (by decide)
  have hzero : m = 0 := by omega
  rw [hzero] at hseconds
  exact absurd hseconds (by decide)

end Pinkcoin
