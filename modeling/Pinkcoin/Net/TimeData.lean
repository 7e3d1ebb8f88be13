/-
`AddTimeData`: the clock's offset, from what the peers say about the time. A
sample is the difference of two 64-bit times; a filter keeps the last 200 of
them, and the offset is their median, where their number is odd and the
median is small. The time and the addresses of a call are given.
-/
import Mathlib.Data.List.Induction
import Pinkcoin.Lib.Median
import Pinkcoin.Lib.Runs
import Pinkcoin.Types

namespace Pinkcoin

open Median Runs

/-! ## The filter -/

/-- `CMedianFilter<int64_t>`. -/
structure CMedianFilter where
  vValues : List Int
  vSorted : List Int
  nSize : Nat
  deriving DecidableEq

namespace CMedianFilter

def new (size : Nat) (initial_value : Int) : CMedianFilter := ⟨[initial_value], [initial_value], size⟩

def input (f : CMedianFilter) (value : Int) : CMedianFilter :=
  let vValues := if f.vValues.length = f.nSize then f.vValues.tail else f.vValues
  let vValues := vValues ++ [value]
  { f with vValues, vSorted := vValues.insertionSort (· ≤ ·) }

/-- `median`. It asserts that there are values. -/
def median (f : CMedianFilter) : Int :=
  let size := f.vSorted.length
  if size % 2 = 1 then f.vSorted.getD (size / 2) 0
  else ((f.vSorted.getD (size / 2 - 1) 0 + f.vSorted.getD (size / 2) 0).bmod (2 ^ 64)).tdiv 2

def size (f : CMedianFilter) : Nat := f.vValues.length

end CMedianFilter

/-- `abs64`, in 64 bits. -/
def abs64 (n : Int) : Int := if 0 ≤ n then n else (-n).bmod (2 ^ 64)

/-! ## The calls -/

/-- The globals and statics of the calls. -/
structure TimeData (Addr : Type) where
  setKnown : List Addr
  vTimeOffsets : CMedianFilter
  nTimeOffset : Int
  fDone : Bool
  strMiscWarning : String
  deriving DecidableEq

/-- The warning of `CompareTimeWithPeers`. -/
def timeWarning : String :=
  "Warning: Please check that your computer's date and time are correct! " ++
    "If your clock is wrong Pinkcoin will not work properly."

namespace TimeData

variable {Addr : Type}

def compareTimeWithPeers (s : TimeData Addr) (vSorted : List Int) : TimeData Addr :=
  if s.fDone then s
  else if vSorted.any fun nOffset => nOffset ≠ 0 ∧ abs64 nOffset < 30 then s
  else { s with fDone := true, strMiscWarning := timeWarning }

end TimeData

/-- What a call gets, with what `GetTime` returns in it. -/
structure TimeCall (Addr : Type) where
  ip : Addr
  nTime : Int64
  now : Int64

/-- `nOffsetSample`. -/
def TimeCall.nOffsetSample {Addr : Type} (c : TimeCall Addr) : Int := (c.nTime - c.now).toInt

namespace TimeData

variable {Addr : Type} [DecidableEq Addr]

/-- `AddTimeData`. -/
def addTimeData (fSyncTime : Bool) (c : TimeCall Addr) (s : TimeData Addr) : TimeData Addr :=
  if c.ip ∈ s.setKnown then s
  else
    let vTimeOffsets := s.vTimeOffsets.input c.nOffsetSample
    let s := { s with setKnown := c.ip :: s.setKnown, vTimeOffsets }
    if !fSyncTime then if 5 ≤ vTimeOffsets.size then s.compareTimeWithPeers vTimeOffsets.vSorted else s
    else if 5 ≤ vTimeOffsets.size ∧ vTimeOffsets.size % 2 = 1 then
      let nMedian := vTimeOffsets.median
      if abs64 nMedian < 30 then { s with nTimeOffset := nMedian }
      else { s with nTimeOffset := 0 }.compareTimeWithPeers vTimeOffsets.vSorted
    else s

/-- At the start. -/
def initial : TimeData Addr := ⟨[], CMedianFilter.new 200 0, 0, false, ""⟩

/-- The state after some calls, all with `fSyncTime`. -/
def after (calls : List (TimeCall Addr)) : TimeData Addr := play (addTimeData true) calls initial

end TimeData

/-! ## What the calls are for -/

section Heard

variable {Addr : Type} [DecidableEq Addr]

/-- A sample counts where its address is a new one. -/
def heard (p : List Addr × List Int) (c : TimeCall Addr) : List Addr × List Int :=
  if c.ip ∈ p.1 then p else (c.ip :: p.1, p.2 ++ [c.nOffsetSample])

/-- The addresses of the calls, and the initial 0 with the samples that count. -/
def heardOf (calls : List (TimeCall Addr)) : List Addr × List Int := calls.foldl heard ([], [0])

/-- The last `k` of a list. -/
def lastOf {α : Type} (k : Nat) (l : List α) : List α := l.drop (l.length - k)

/-- The samples the offset is computed from. -/
def windowOf (calls : List (TimeCall Addr)) : List Int := lastOf 200 (heardOf calls).2

/-- The call brings a new sample, and an odd number of them, from five on. -/
def Decides (calls : List (TimeCall Addr)) (c : TimeCall Addr) : Prop :=
  c.ip ∉ (heardOf calls).1 ∧ 5 ≤ (windowOf (calls ++ [c])).length ∧ (windowOf (calls ++ [c])).length % 2 = 1

/-- **The clock is guarded** at the call that follows `calls`: the offset stays
below 30 seconds, a second sample of an address changes nothing, and a new
sample sets the offset to the median, or to 0. -/
structure ClockGuarded (calls : List (TimeCall Addr)) (c : TimeCall Addr) : Prop where
  bound : -30 < (TimeData.after (calls ++ [c])).nTimeOffset ∧ (TimeData.after (calls ++ [c])).nTimeOffset < 30
  known : c.ip ∈ (heardOf calls).1 → TimeData.after (calls ++ [c]) = TimeData.after calls
  decided : Decides calls c → ∃ m, IsMedian (windowOf (calls ++ [c])) m ∧
    (TimeData.after (calls ++ [c])).nTimeOffset = if -30 < m ∧ m < 30 then m else 0

/-- More than half of the samples are the least 64-bit number. -/
def Swamped (calls : List (TimeCall Addr)) (c : TimeCall Addr) : Prop :=
  Decides calls c ∧ (windowOf (calls ++ [c])).length < 2 * (windowOf (calls ++ [c])).count (-2 ^ 63)

end Heard

/-! ## One call -/

namespace TimeData

variable {Addr : Type} {s : TimeData Addr} {c : TimeCall Addr} {fSyncTime : Bool}

@[simp] theorem compareTimeWithPeers_setKnown (vSorted : List Int) :
    (s.compareTimeWithPeers vSorted).setKnown = s.setKnown := by
  unfold compareTimeWithPeers
  split
  · rfl
  · split <;> rfl

@[simp] theorem compareTimeWithPeers_vTimeOffsets (vSorted : List Int) :
    (s.compareTimeWithPeers vSorted).vTimeOffsets = s.vTimeOffsets := by
  unfold compareTimeWithPeers
  split
  · rfl
  · split <;> rfl

@[simp] theorem compareTimeWithPeers_nTimeOffset (vSorted : List Int) :
    (s.compareTimeWithPeers vSorted).nTimeOffset = s.nTimeOffset := by
  unfold compareTimeWithPeers
  split
  · rfl
  · split <;> rfl

variable [DecidableEq Addr]

/-- A second sample of an address changes nothing. -/
theorem addTimeData_known (h : c.ip ∈ s.setKnown) : addTimeData fSyncTime c s = s := if_pos h

theorem setKnown_addTimeData (h : c.ip ∉ s.setKnown) :
    (addTimeData fSyncTime c s).setKnown = c.ip :: s.setKnown := by
  rw [addTimeData, if_neg h]
  dsimp only
  repeat' split
  all_goals simp

theorem vTimeOffsets_addTimeData (h : c.ip ∉ s.setKnown) :
    (addTimeData fSyncTime c s).vTimeOffsets = s.vTimeOffsets.input c.nOffsetSample := by
  rw [addTimeData, if_neg h]
  dsimp only
  repeat' split
  all_goals simp

/-- The offset that a filter sets. -/
def offsetOf (f : CMedianFilter) : Int := if abs64 f.median < 30 then f.median else 0

theorem nTimeOffset_addTimeData (h : c.ip ∉ s.setKnown) : (addTimeData true c s).nTimeOffset =
    if 5 ≤ (s.vTimeOffsets.input c.nOffsetSample).size ∧ (s.vTimeOffsets.input c.nOffsetSample).size % 2 = 1 then
      offsetOf (s.vTimeOffsets.input c.nOffsetSample)
    else s.nTimeOffset := by
  rw [addTimeData, if_neg h]
  simp only [Bool.not_true, Bool.false_eq_true, if_false, offsetOf]
  split
  · split <;> simp
  · rfl

end TimeData

/-! ## The filter keeps the last samples -/

section LastOf

variable {α : Type} {k : Nat}

theorem length_lastOf (k : Nat) (l : List α) : (lastOf k l).length = min k l.length := by
  rw [lastOf, List.length_drop]
  omega

theorem mem_of_mem_lastOf {l : List α} {x : α} (h : x ∈ lastOf k l) : x ∈ l := List.mem_of_mem_drop h

/-- One more element takes the place of the first, once there are `k`. -/
theorem lastOf_append (hk : 0 < k) (l : List α) (x : α) :
    (if (lastOf k l).length = k then (lastOf k l).tail else lastOf k l) ++ [x] = lastOf k (l ++ [x]) := by
  rw [length_lastOf]
  by_cases hfull : k ≤ l.length
  · have hone : (l ++ [x]).length - k = l.length - k + 1 := by
      rw [List.length_append, List.length_singleton]
      omega
    rw [if_pos (by omega), lastOf, lastOf, hone, List.tail_drop, List.drop_append_of_le_length (by omega)]
  · have hall : l.length - k = 0 := by omega
    have hone : (l ++ [x]).length - k = 0 := by
      rw [List.length_append, List.length_singleton]
      omega
    rw [if_neg (by omega), lastOf, lastOf, hone, hall, List.drop_zero, List.drop_zero]

end LastOf

section Heeds

variable {Addr : Type} {s : TimeData Addr} {p : List Addr × List Int} {c : TimeCall Addr}

/-- **The filter holds the last 200 samples that count**, and all of them are
64-bit numbers. -/
structure Heeds (s : TimeData Addr) (p : List Addr × List Int) : Prop where
  known : s.setKnown = p.1
  nSize_eq : s.vTimeOffsets.nSize = 200
  values : s.vTimeOffsets.vValues = lastOf 200 p.2
  sorted : s.vTimeOffsets.vSorted = (lastOf 200 p.2).insertionSort (· ≤ ·)
  range : ∀ x ∈ p.2, -2 ^ 63 ≤ x ∧ x < 2 ^ 63

theorem heeds_initial : Heeds (TimeData.initial : TimeData Addr) ([], [0]) :=
  ⟨rfl, rfl, by simp [TimeData.initial, CMedianFilter.new, lastOf],
    by simp [TimeData.initial, CMedianFilter.new, lastOf], by simp⟩

theorem nOffsetSample_range (c : TimeCall Addr) : -2 ^ 63 ≤ c.nOffsetSample ∧ c.nOffsetSample < 2 ^ 63 :=
  ⟨Int64.le_toInt _, Int64.toInt_lt _⟩

/-- What the filter holds after a new sample. -/
theorem Heeds.input (h : Heeds s p) (v : Int) :
    (s.vTimeOffsets.input v).vValues = lastOf 200 (p.2 ++ [v]) ∧
      (s.vTimeOffsets.input v).vSorted = (lastOf 200 (p.2 ++ [v])).insertionSort (· ≤ ·) := by
  have hvalues : (s.vTimeOffsets.input v).vValues = lastOf 200 (p.2 ++ [v]) := by
    simp only [CMedianFilter.input, h.nSize_eq, h.values]
    exact lastOf_append (by decide) p.2 v
  refine ⟨hvalues, ?_⟩
  rw [← hvalues]
  rfl

variable [DecidableEq Addr]

theorem Heeds.addTimeData (h : Heeds s p) (fSyncTime : Bool) (c : TimeCall Addr) :
    Heeds (TimeData.addTimeData fSyncTime c s) (heard p c) := by
  by_cases hknown : c.ip ∈ p.1
  · rw [TimeData.addTimeData_known (h.known ▸ hknown), heard, if_pos hknown]
    exact h
  · have hnew : c.ip ∉ s.setKnown := h.known ▸ hknown
    obtain ⟨hvalues, hsorted⟩ := h.input c.nOffsetSample
    rw [heard, if_neg hknown]
    refine ⟨?_, ?_, ?_, ?_, ?_⟩
    · rw [TimeData.setKnown_addTimeData hnew, h.known]
    · rw [TimeData.vTimeOffsets_addTimeData hnew]
      exact h.nSize_eq
    · rw [TimeData.vTimeOffsets_addTimeData hnew, hvalues]
    · rw [TimeData.vTimeOffsets_addTimeData hnew, hsorted]
    · intro x hx
      rcases List.mem_append.mp hx with hx | hx
      · exact h.range x hx
      · rw [List.mem_singleton.mp hx]
        exact nOffsetSample_range c

/-- **The filter follows the samples** along every run. -/
theorem heeds_after (calls : List (TimeCall Addr)) : Heeds (TimeData.after calls) (heardOf calls) := by
  have hrun : ∀ (s : TimeData Addr) (p : List Addr × List Int), Heeds s p →
      Heeds (play (TimeData.addTimeData true) calls s) (calls.foldl heard p) := by
    induction calls with
    | nil => exact fun _ _ h => h
    | cons c calls ih => exact fun s p h => ih _ _ (h.addTimeData true c)
  exact hrun _ _ heeds_initial

theorem after_append (calls : List (TimeCall Addr)) (c : TimeCall Addr) :
    TimeData.after (calls ++ [c]) = TimeData.addTimeData true c (TimeData.after calls) := play_append

end Heeds

/-! ## The median of the filter -/

theorem isMedian_median {f : CMedianFilter} (hsorted : f.vSorted = f.vValues.insertionSort (· ≤ ·))
    (hodd : f.size % 2 = 1) : IsMedian f.vValues f.median := by
  have hperm : f.vSorted.Perm f.vValues := hsorted ▸ List.perm_insertionSort _ _
  have hlen : f.vSorted.length = f.size := hperm.length_eq
  have hmid : f.vSorted.length / 2 < f.vSorted.length := by omega
  have hpair : f.vSorted.Pairwise (· ≤ ·) := hsorted ▸ List.pairwise_insertionSort _ _
  have hmedian : f.median = f.vSorted[f.vSorted.length / 2] := by
    simp only [CMedianFilter.median]
    rw [if_pos (by omega), List.getD_eq_getElem?_getD, List.getElem?_eq_getElem hmid]
    rfl
  rw [hmedian]
  exact (isMedian_getElem hpair hmid).perm hperm

/-- The absolute value of the least number is negative. -/
theorem abs64_lt_iff {n : Int} (hlow : -2 ^ 63 ≤ n) (hhigh : n < 2 ^ 63) :
    abs64 n < 30 ↔ -30 < n ∧ n < 30 ∨ n = -2 ^ 63 := by
  unfold abs64
  split
  · omega
  · by_cases hleast : n = -2 ^ 63
    · subst hleast
      decide
    · rw [Int.bmod_eq_of_le (by omega) (by omega)]
      omega

/-- What a call that decides sets the offset to. -/
theorem nTimeOffset_decides {Addr : Type} [DecidableEq Addr] {calls : List (TimeCall Addr)} {c : TimeCall Addr}
    (h : Decides calls c) : ∃ m, IsMedian (windowOf (calls ++ [c])) m ∧ (-2 ^ 63 ≤ m ∧ m < 2 ^ 63) ∧
      (TimeData.after (calls ++ [c])).nTimeOffset = if abs64 m < 30 then m else 0 := by
  have hfollows := heeds_after calls
  have hfollows' := heeds_after (calls ++ [c])
  obtain ⟨hnew, hfive, hodd⟩ := h
  have hunknown : c.ip ∉ (TimeData.after calls).setKnown := hfollows.known ▸ hnew
  have hfilter : (TimeData.after (calls ++ [c])).vTimeOffsets =
      (TimeData.after calls).vTimeOffsets.input c.nOffsetSample := by
    rw [after_append, TimeData.vTimeOffsets_addTimeData hunknown]
  have hvalues : ((TimeData.after calls).vTimeOffsets.input c.nOffsetSample).vValues = windowOf (calls ++ [c]) :=
    hfilter ▸ hfollows'.values
  have hsize : ((TimeData.after calls).vTimeOffsets.input c.nOffsetSample).size = (windowOf (calls ++ [c])).length :=
    congrArg List.length hvalues
  have hmedian := isMedian_median (f := (TimeData.after calls).vTimeOffsets.input c.nOffsetSample) rfl
    (hsize ▸ hodd)
  rw [hvalues] at hmedian
  refine ⟨_, hmedian, hfollows'.range _ (mem_of_mem_lastOf hmedian.mem), ?_⟩
  rw [after_append, TimeData.nTimeOffset_addTimeData hunknown, if_pos ⟨hsize ▸ hfive, hsize ▸ hodd⟩]
  rfl

theorem nTimeOffset_undecided {Addr : Type} [DecidableEq Addr] {calls : List (TimeCall Addr)} {c : TimeCall Addr}
    (h : ¬ Decides calls c) :
    (TimeData.after (calls ++ [c])).nTimeOffset = (TimeData.after calls).nTimeOffset := by
  have hfollows := heeds_after calls
  have hfollows' := heeds_after (calls ++ [c])
  rw [after_append]
  by_cases hknown : c.ip ∈ (TimeData.after calls).setKnown
  · rw [TimeData.addTimeData_known hknown]
  · have hsize : ((TimeData.after calls).vTimeOffsets.input c.nOffsetSample).size =
        (windowOf (calls ++ [c])).length := by
      have hvalues := hfollows'.values
      rw [after_append, TimeData.vTimeOffsets_addTimeData hknown] at hvalues
      exact congrArg List.length hvalues
    rw [TimeData.nTimeOffset_addTimeData hknown, if_neg]
    rw [hsize]
    exact fun hodd => h ⟨hfollows.known ▸ hknown, hodd⟩

/-! ## The bound on the offset -/

section Bound

variable {Addr : Type} [DecidableEq Addr] {calls : List (TimeCall Addr)} {c : TimeCall Addr}

theorem windowOf_low {x : Int} (h : x ∈ windowOf calls) : -2 ^ 63 ≤ x :=
  ((heeds_after calls).range x (mem_of_mem_lastOf h)).1

/-- With too many of the least samples the offset is that number. -/
theorem nTimeOffset_swamped (h : Swamped calls c) : (TimeData.after (calls ++ [c])).nTimeOffset = -2 ^ 63 := by
  obtain ⟨m, hmedian, -, hoffset⟩ := nTimeOffset_decides h.1
  have hleast : m = -2 ^ 63 := (hmedian.eq_least_iff h.1.2.2 fun _ hx => windowOf_low hx).mpr h.2
  subst hleast
  exact hoffset

/-- Without, it is the median, or 0. -/
theorem nTimeOffset_unswamped (h : Decides calls c) (hnot : ¬ Swamped calls c) :
    ∃ m, IsMedian (windowOf (calls ++ [c])) m ∧
      (TimeData.after (calls ++ [c])).nTimeOffset = if -30 < m ∧ m < 30 then m else 0 := by
  obtain ⟨m, hmedian, ⟨hlow, hhigh⟩, hoffset⟩ := nTimeOffset_decides h
  have hleast : m ≠ -2 ^ 63 := fun heq => hnot ⟨h,
    (hmedian.eq_least_iff h.2.2 fun _ hx => windowOf_low hx).mp heq⟩
  have hiff : abs64 m < 30 ↔ -30 < m ∧ m < 30 := by
    rw [abs64_lt_iff hlow hhigh]
    exact or_iff_left hleast
  refine ⟨m, hmedian, ?_⟩
  rw [hoffset]
  exact if_congr hiff rfl rfl

theorem bound_append (h : -30 < (TimeData.after calls).nTimeOffset ∧ (TimeData.after calls).nTimeOffset < 30)
    (hnot : ¬ Swamped calls c) : -30 < (TimeData.after (calls ++ [c])).nTimeOffset ∧
      (TimeData.after (calls ++ [c])).nTimeOffset < 30 := by
  by_cases hdecides : Decides calls c
  · obtain ⟨m, -, hoffset⟩ := nTimeOffset_unswamped hdecides hnot
    rw [hoffset]
    split <;> omega
  · rw [nTimeOffset_undecided hdecides]
    exact h

/-- No call of the run brings too many of the least samples. -/
theorem bound_after (h : ∀ before c rest, calls = before ++ c :: rest → ¬ Swamped before c) :
    -30 < (TimeData.after calls).nTimeOffset ∧ (TimeData.after calls).nTimeOffset < 30 := by
  induction calls using List.reverseRecOn with
  | nil =>
    have hzero : (TimeData.after ([] : List (TimeCall Addr))).nTimeOffset = 0 := rfl
    omega
  | append_singleton calls c ih =>
    refine bound_append (ih fun before d rest heq => ?_) (h calls c [] rfl)
    exact h before d (rest ++ [c]) (by simp [heq])

end Bound

/-- **Which runs leave the clock guarded:** those in which no deciding sample
comes with more than half of the window at the least 64-bit number, whose
absolute value is itself. -/
theorem clockGuarded_iff {Addr : Type} [DecidableEq Addr] (calls : List (TimeCall Addr)) :
    (∀ before c rest, calls = before ++ c :: rest → ClockGuarded before c) ↔
      ∀ before c rest, calls = before ++ c :: rest → ¬ Swamped before c := by
  constructor
  · intro hguarded before c rest heq hswamped
    have hbound := (hguarded before c rest heq).bound
    rw [nTimeOffset_swamped hswamped] at hbound
    exact absurd hbound.1 (by decide)
  · intro hnot before c rest heq
    refine ⟨bound_after fun b d r hsplit => hnot b d (r ++ rest) ?_, fun hknown => ?_, fun hdecides =>
      nTimeOffset_unswamped hdecides (hnot before c rest heq)⟩
    · have hmore := congrArg (· ++ rest) hsplit
      simpa [heq] using hmore
    · rw [after_append, TimeData.addTimeData_known]
      rw [(heeds_after before).known]
      exact hknown

namespace TimeData.Sample

/-- A peer that is 2^63 seconds behind. -/
def behind (ip : Nat) : TimeCall Nat := ⟨ip, -9223372036854775808, 0⟩

def calls : List (TimeCall Nat) := [behind 1, behind 2, behind 3]

theorem nTimeOffset_eq : (after (calls ++ [behind 4])).nTimeOffset = -9223372036854775808 := by
  decide +kernel

end TimeData.Sample

/-- Four such peers move the clock. -/
theorem not_clockGuarded : ¬ ∀ (calls : List (TimeCall Nat)) (before : List (TimeCall Nat)) (c : TimeCall Nat)
    (rest : List (TimeCall Nat)), calls = before ++ c :: rest → ClockGuarded before c := by
  intro h
  have hbound := (h _ TimeData.Sample.calls (TimeData.Sample.behind 4) [] rfl).bound
  rw [TimeData.Sample.nTimeOffset_eq] at hbound
  exact absurd hbound.1 (by decide)

end Pinkcoin
