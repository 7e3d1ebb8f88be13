/-
The rescan of `importwallet`: back from the best block to the first that is two
hours older than the oldest key imported, and from there up the main chain.
Times of blocks go back and forth; the rules of `AcceptBlock` keep those before
the first such block from being as late as the keys.
-/
import Pinkcoin.Keys.Birthday
import Pinkcoin.Retarget.Spacing
import Pinkcoin.TrustReads

namespace Pinkcoin

/-! ## The rescan -/

/-- The loop back from the best block, over the main chain from there to the
genesis block: the blocks it looks at. It stops at the last of them. -/
def walkBack (nTimeBegin : Int) : List CBlockIndex → List CBlockIndex
  | [] => []
  | [pindex] => [pindex]
  | pindex :: pprev :: rest =>
    if nTimeBegin - 7200 < pindex.nTime then pindex :: walkBack nTimeBegin (pprev :: rest) else [pindex]

namespace KeyWallet

/-- `importwallet`, to its rescan: the blocks whose transactions are given to
`AddToWalletIfInvolvingMe`. `chain` is the main chain from the best block. -/
def importRescan (w : KeyWallet) (lines : List (CKeyID × Int)) (chain : List CBlockIndex) : List CBlockIndex :=
  let bestTime : Int := (chain.head?.map CBlockIndex.nTime).getD 0
  let nTimeBegin := (lines.foldl importLine (w, bestTime)).2
  scanForWalletTransactions (w.importwallet lines bestTime).nTimeFirstKey (fun pindex => UInt32.ofNat pindex.nTime)
    (walkBack nTimeBegin chain).reverse

end KeyWallet

/-! ## How far the time can fall -/

theorem Admitted.tail {b : CBlockIndex} {rest : List CBlockIndex} (h : Admitted (b :: rest)) : Admitted rest := by
  cases rest with
  | nil => trivial
  | cons prev rest => exact h.2.2

/-- **After a block no other is as much as two hours before it.** Ten minutes
for each of the next eleven; from then on the median of those. -/
theorem nTime_after {t : Int} {b : CBlockIndex} {rest : List CBlockIndex} (ht : t ≤ b.nTime)
    (above : List CBlockIndex) (h : Admitted (above ++ b :: rest)) :
    (∀ c ∈ above, t - 6600 ≤ c.nTime) ∧
      (above.length ≤ 11 → ∀ c ∈ (above ++ b :: rest).head?, t - 600 * above.length ≤ c.nTime) := by
  induction above with
  | nil =>
    refine ⟨nofun, fun _ c hc => ?_⟩
    obtain rfl : b = c := by simpa using hc
    simpa using ht
  | cons a above ih =>
    obtain ⟨hlate, hnear⟩ := ih h.tail
    obtain ⟨prev, more, hbelow⟩ : ∃ prev more, above ++ b :: rest = prev :: more := by
      cases above with
      | nil => exact ⟨b, rest, rfl⟩
      | cons x above => exact ⟨x, above ++ b :: rest, rfl⟩
    rw [List.cons_append, hbelow] at h
    obtain ⟨-, ⟨hmedian, hdrift⟩, -⟩ := h
    have hstep : (prev.nTime : Int) ≤ a.nTime + 600 := hdrift
    have hprev : ∀ c ∈ (above ++ b :: rest).head?, c = prev := by
      rw [hbelow]
      intro c hc
      simpa using hc.symm
    have ha : t - 6600 ≤ a.nTime ∧ (above.length + 1 ≤ 11 → t - 600 * (above.length + 1 : Nat) ≤ a.nTime) := by
      by_cases hfew : above.length + 1 ≤ 11
      · have hdown := hnear (by omega) prev (by simp [hbelow])
        omega
      · -- the eleven blocks before it all come after `b`
        have heleven : ∀ c ∈ (prev :: more).take 11, (t - 6600).toNat ≤ c.nTime := by
          intro c hc
          rw [← hbelow, List.take_append_of_le_length (by omega)] at hc
          have hc' := hlate c (List.mem_of_mem_take hc)
          omega
        have hle := BlockTree.le_getMedianTimePast heleven
        omega
    refine ⟨fun c hc => ?_, fun hfew c hc => ?_⟩
    · rcases List.mem_cons.mp hc with rfl | hc
      · exact ha.1
      · exact hlate c hc
    · obtain rfl : a = c := by simpa using hc
      rw [List.length_cons] at hfew ⊢
      exact ha.2 hfew

/-- Where the loop stops, and what is left below. -/
theorem walkBack_split (nTimeBegin : Int) (chain : List CBlockIndex) :
    ∃ below, chain = walkBack nTimeBegin chain ++ below ∧
      (below ≠ [] → ∃ visited pindex, walkBack nTimeBegin chain = visited ++ [pindex] ∧
        (pindex.nTime : Int) ≤ nTimeBegin - 7200) := by
  induction chain with
  | nil => exact ⟨[], rfl, fun h => absurd rfl h⟩
  | cons b chain ih =>
    cases chain with
    | nil => exact ⟨[], rfl, fun h => absurd rfl h⟩
    | cons prev rest =>
      rw [walkBack]
      split
      next =>
        obtain ⟨below, heq, hstop⟩ := ih
        refine ⟨below, ?_, fun hbelow => ?_⟩
        · rw [List.cons_append, ← heq]
        · obtain ⟨visited, pindex, hvisited, htime⟩ := hstop hbelow
          exact ⟨b :: visited, pindex, by rw [hvisited, List.cons_append], htime⟩
      next hold => exact ⟨prev :: rest, rfl, fun _ => ⟨[], b, rfl, by omega⟩⟩

/-- **The walk back passes every block as late as its time.** -/
theorem mem_walkBack {nTimeBegin : Int} {chain : List CBlockIndex} (h : Admitted chain) {b : CBlockIndex}
    (hb : b ∈ chain) (ht : nTimeBegin ≤ b.nTime) : b ∈ walkBack nTimeBegin chain := by
  obtain ⟨below, heq, hstop⟩ := walkBack_split nTimeBegin chain
  rw [heq] at hb
  rcases List.mem_append.mp hb with hb | hb
  · exact hb
  · obtain ⟨visited, pindex, hvisited, htime⟩ := hstop (List.ne_nil_of_mem hb)
    obtain ⟨before, after, rfl⟩ := List.append_of_mem hb
    rw [heq, ← List.append_assoc] at h
    have hlate := (nTime_after ht _ h).1 pindex (by simp [hvisited])
    omega

/-! ## What is scanned -/

namespace KeyWallet

variable {w : KeyWallet} {lines : List (CKeyID × Int)}

theorem dumpBegin_le {keys : List CKeyID} {bestTime : Int} {k : CKeyID} {t : Int}
    (h : (k, t) ∈ newLines keys lines) : dumpBegin keys lines bestTime ≤ t := by
  rw [dumpBegin]
  generalize newLines keys lines = new at h
  induction new generalizing bestTime with
  | nil => cases h
  | cons line new ih =>
    rw [List.foldl_cons]
    rcases List.mem_cons.mp h with rfl | h
    · exact Int.le_trans (foldl_min_le new _) (Int.min_le_right _ _)
    · exact ih h

/-- The birthday is no later than the begin of the dump. -/
theorem nTimeFirstKey_importwallet (w : KeyWallet) (lines : List (CKeyID × Int)) (bestTime : Int) :
    (w.importwallet lines bestTime).nTimeFirstKey ≤ (lines.foldl importLine (w, bestTime)).2 := by
  rw [KeyWallet.importwallet]
  generalize lines.foldl importLine (w, bestTime) = r
  obtain ⟨w', nTimeBegin⟩ := r
  by_cases hset : w'.nTimeFirstKey = 0 ∨ nTimeBegin < w'.nTimeFirstKey
  · simp [hset]
  · simp only [if_neg hset]
    omega

/-- **The rescan misses no block**: each one on the main chain that is as late
as a key imported is given to the wallet. -/
theorem mem_importRescan {chain : List CBlockIndex} (hadmitted : Admitted chain)
    (htimes : ∀ b ∈ chain, b.nTime < 2 ^ 32) {k : CKeyID} {t : Int} (hline : (k, t) ∈ newLines w.keys lines) :
    ∀ b ∈ chain, t ≤ b.nTime → b ∈ w.importRescan lines chain := by
  intro b hb ht
  rw [importRescan]
  generalize (((chain.head?.map CBlockIndex.nTime).getD 0 : Nat) : Int) = bestTime
  have hbegin : (lines.foldl importLine (w, bestTime)).2 ≤ t := by
    rw [(importLines lines w bestTime).2.1]
    exact dumpBegin_le hline
  have hwalk : b ∈ walkBack (lines.foldl importLine (w, bestTime)).2 chain :=
    mem_walkBack hadmitted hb (Int.le_trans hbegin ht)
  by_contra hskip
  obtain ⟨-, hold⟩ := older_of_skipped (List.mem_reverse.mpr hwalk) hskip
  have hfirst := nTimeFirstKey_importwallet w lines bestTime
  rw [UInt32.toNat_ofNat_of_lt' (htimes b hb)] at hold
  omega

end KeyWallet

/-- With a key as old as the tenth block of a chain of twenty, the last block. -/
theorem mem_importRescan_sample : ∃ b, (Sample.steady 20).head? = some b ∧
    b ∈ (KeyWallet.start []).importRescan [(List.Vector.replicate 20 1, 1486474200)] (Sample.steady 20) :=
  ⟨_, rfl, KeyWallet.mem_importRescan (Sample.steady_admitted 20)
    (fun _ hb => Nat.lt_of_le_of_lt (Sample.steady_time _ hb) (by decide)) (List.mem_singleton_self _) _
    List.mem_cons_self (by decide)⟩

end Pinkcoin
