/-
The modifier of the next block: which blocks of a chain are selected for it,
that the selection never fails, and that only the block's ancestors count.
-/
import Mathlib.Data.List.Perm.Subperm
import Mathlib.Data.List.TakeWhile
import Pinkcoin.Lib.BestDraw
import Pinkcoin.SyncCheckpoint

namespace Pinkcoin

open BestDraw

/-! ## With the block index -/

/-- An item of `vSortedByTimestamp`: the time of a block and its hash. -/
def timestamped (b : CBlockIndex) : Nat × Uint256 := (b.nTime, b.phashBlock)

/-- The order of `pair<int64_t, uint256>`. -/
def itemLe (a b : Nat × Uint256) : Prop := a.1 < b.1 ∨ (a.1 = b.1 ∧ a.2 ≤ b.2)

instance (a b : Nat × Uint256) : Decidable (itemLe a b) := inferInstanceAs (Decidable (_ ∨ _))

namespace BlockTree

variable (P : Params) (t : BlockTree)

/-- `SelectBlockFromCandidates`, which looks each candidate up in
`mapBlockIndex`, from an item on and with the best so far and its hash. -/
def selectBlockFromCandidates (nSelectionIntervalStop : Int) (nStakeModifierPrev : Nat) (mapSelectedBlocks : List Uint256) :
    List (Nat × Uint256) → Option (CBlockIndex × Uint256) → Except Reject CBlockIndex
  | [], best => best.elim (throw failed) fun best => pure best.1
  | item :: rest, best =>
    match t.find item.2 with
    | none => throw (error "SelectBlockFromCandidates: failed to find block index for candidate block")
    | some pindex =>
      if best.isSome ∧ nSelectionIntervalStop < pindex.nTime then best.elim (throw failed) fun best => pure best.1
      else if pindex.phashBlock ∈ mapSelectedBlocks then
        selectBlockFromCandidates nSelectionIntervalStop nStakeModifierPrev mapSelectedBlocks rest best
      else
        let hash := hashSelection P nStakeModifierPrev pindex
        let best := match best with
          | none => some (pindex, hash)
          | some (b, hashBest) => if hash < hashBest then some (pindex, hash) else some (b, hashBest)
        selectBlockFromCandidates nSelectionIntervalStop nStakeModifierPrev mapSelectedBlocks rest best

/-- The rounds of `ComputeNextStakeModifier`, from `nRound` on. -/
def selectRounds (nStakeModifierPrev : Nat) (vSortedByTimestamp : List (Nat × Uint256)) :
    Nat → Nat → Int → List Uint256 → Nat → Except Reject Nat
  | 0, _, _, _, nStakeModifierNew => pure nStakeModifierNew
  | rounds + 1, nRound, nSelectionIntervalStop, mapSelectedBlocks, nStakeModifierNew =>
    let nSelectionIntervalStop := nSelectionIntervalStop + getStakeModifierSelectionIntervalSection nRound
    match t.selectBlockFromCandidates P nSelectionIntervalStop nStakeModifierPrev mapSelectedBlocks vSortedByTimestamp none with
    | .error _ => throw (error "ComputeNextStakeModifier: unable to select block")
    | .ok pindex =>
      selectRounds nStakeModifierPrev vSortedByTimestamp rounds (nRound + 1) nSelectionIntervalStop
        (pindex.phashBlock :: mapSelectedBlocks)
        (nStakeModifierNew ||| ((if pindex.fStakeEntropy then 1 else 0) <<< nRound))

end BlockTree

/-- Where the selection interval of the block after `pindexPrev` starts. -/
def CBlockIndex.nSelectionIntervalStart (pindexPrev : CBlockIndex) : Int :=
  (pindexPrev.nTime / nModifierInterval) * nModifierInterval - getStakeModifierSelectionInterval

/-- The candidates: back from `pindexPrev` as long as the interval lasts. -/
def CBlockIndex.candidates (pindexPrev : CBlockIndex) (branch : List CBlockIndex) : List CBlockIndex :=
  branch.takeWhile fun b => decide (pindexPrev.nSelectionIntervalStart ≤ b.nTime)

/-- `ComputeNextStakeModifier`. The clock and the best block only set how much
`vSortedByTimestamp` reserves. -/
def BlockTree.computeNextStakeModifier (P : Params) (t : BlockTree) (pindexPrev : Option Uint256) : Except Reject (Nat × Bool) :=
  match pindexPrev.elim [] t.branch with
  | [] => pure (0, true) -- the genesis block's modifier is 0
  | pindexPrev :: rest =>
    match getLastStakeModifier (pindexPrev :: rest) with
    | .error _ => throw (error "ComputeNextStakeModifier: unable to get last modifier")
    | .ok (nStakeModifier, nModifierTime) =>
      if pindexPrev.nTime / nModifierInterval ≤ nModifierTime / nModifierInterval then pure (nStakeModifier, false)
      else do
        let vSortedByTimestamp :=
          ((pindexPrev.candidates (pindexPrev :: rest)).map timestamped).reverse.insertionSort itemLe
        let nStakeModifierNew ← t.selectRounds P nStakeModifier vSortedByTimestamp
          (min 64 vSortedByTimestamp.length) 0 pindexPrev.nSelectionIntervalStart [] 0
        pure (nStakeModifierNew, true)

/-! ## What is expected -/

/-- `nSelectionIntervalStop` in a round. -/
def selectionStop (nSelectionIntervalStart : Int) (nRound : Nat) : Int :=
  nSelectionIntervalStart + ((List.range (nRound + 1)).map getStakeModifierSelectionIntervalSection).sum

/-- **The block of a round**: the unselected candidate up to the stop time with
the smallest selection hash, or the earliest if there is none up to it. -/
structure SelectedInRound (P : Params) (nStakeModifierPrev : Nat) (nSelectionIntervalStop : Int)
    (unselected : CBlockIndex → Prop) (b : CBlockIndex) : Prop where
  isUnselected : unselected b
  smallest : ∀ c, unselected c → (c.nTime : Int) ≤ nSelectionIntervalStop →
    (b.nTime : Int) ≤ nSelectionIntervalStop ∧ hashSelection P nStakeModifierPrev b ≤ hashSelection P nStakeModifierPrev c
  earliest : (∀ c, unselected c → nSelectionIntervalStop < c.nTime) → ∀ c, unselected c → byTimestamp b c

/-- **How a modifier comes about** from the candidates and the blocks selected
of them, in order. -/
structure Selects (P : Params) (nStakeModifierPrev : Nat) (nSelectionIntervalStart : Int) (candidates selected : List CBlockIndex)
    (nStakeModifierNew : Nat) : Prop where
  distinct : selected.Nodup
  candidate : ∀ b ∈ selected, b ∈ candidates
  round : ∀ r b, selected[r]? = some b →
    SelectedInRound P nStakeModifierPrev (selectionStop nSelectionIntervalStart r)
      (fun c => c ∈ candidates ∧ c ∉ selected.take r) b
  bit : ∀ r b, selected[r]? = some b → nStakeModifierNew.testBit r = b.fStakeEntropy
  high : ∀ r, selected.length ≤ r → nStakeModifierNew.testBit r = false

/-! ## One round -/

section

variable {P : Params} {t : BlockTree} {stop : Int} {nStakeModifierPrev : Nat} {mapSelectedBlocks : List Uint256}
  {candidates selected : List CBlockIndex} {b : CBlockIndex} {nStakeModifierNew : Nat}

local instance : DecidablePred fun b : CBlockIndex => stop < b.nTime := fun _ => Int.decLt _ _

/-- The scan of the candidates, where each is in the index under its hash. -/
theorem selectBlockFromCandidates_eq (P : Params) (stop : Int) (nStakeModifierPrev : Nat) (mapSelectedBlocks : List Uint256)
    (hfind : ∀ b ∈ candidates, t.find b.phashBlock = some b) (best : Option CBlockIndex) :
    t.selectBlockFromCandidates P stop nStakeModifierPrev mapSelectedBlocks (candidates.map timestamped)
        (best.map fun b => (b, hashSelection P nStakeModifierPrev b)) =
      (scan (hashSelection P nStakeModifierPrev) (fun b => stop < b.nTime) (fun b => b.phashBlock ∈ mapSelectedBlocks)
        candidates best).elim (throw failed) pure := by
  induction candidates generalizing best with
  | nil =>
    cases best with
    | none => rfl
    | some b => rfl
  | cons pindex rest ih =>
    have hrest := ih fun b hb => hfind b (List.mem_cons_of_mem pindex hb)
    have hpindex : t.find (timestamped pindex).2 = some pindex := hfind pindex List.mem_cons_self
    rw [List.map_cons, BlockTree.selectBlockFromCandidates, hpindex]
    unfold scan
    dsimp only
    by_cases hlate : best.isSome ∧ stop < pindex.nTime
    · rw [if_pos hlate, if_pos (by simpa using hlate)]
      cases best with
      | none => rfl
      | some b => rfl
    · rw [if_neg hlate, if_neg (by simpa using hlate)]
      by_cases htaken : pindex.phashBlock ∈ mapSelectedBlocks
      · rw [if_pos htaken, if_pos htaken]
        exact hrest best
      · rw [if_neg htaken, if_neg htaken]
        cases best with
        | none => exact hrest (some pindex)
        | some b =>
          dsimp only [Option.map_some, better]
          by_cases hkey : hashSelection P nStakeModifierPrev pindex < hashSelection P nStakeModifierPrev b
          · rw [if_pos hkey, if_pos hkey]
            exact hrest (some pindex)
          · rw [if_neg hkey, if_neg hkey]
            exact hrest (some b)

/-- **One round selects** where a candidate is left. -/
theorem selectBlockFromCandidates_ok (P : Params) (stop : Int) (nStakeModifierPrev : Nat)
    (hfind : ∀ b ∈ candidates, t.find b.phashBlock = some b)
    (hsorted : candidates.Pairwise byTimestamp) (hfree : ∃ c ∈ candidates, c.phashBlock ∉ mapSelectedBlocks) :
    ∃ b, t.selectBlockFromCandidates P stop nStakeModifierPrev mapSelectedBlocks (candidates.map timestamped) none = .ok b ∧
      SelectedInRound P nStakeModifierPrev stop (fun c => c ∈ candidates ∧ c.phashBlock ∉ mapSelectedBlocks) b := by
  have hwindow : candidates.Pairwise fun a b => stop < a.nTime → stop < b.nTime := by
    refine hsorted.imp fun hab => ?_
    rcases hab with hlt | ⟨heq, -⟩
    · omega
    · omega
  obtain ⟨b, hscan, hdrawn⟩ := scan_none (hashSelection P nStakeModifierPrev) (fun b => stop < b.nTime)
    (fun b => b.phashBlock ∈ mapSelectedBlocks) hwindow hfree
  refine ⟨b, ?_, ⟨hdrawn.mem, hdrawn.free⟩, fun c hc hstop => ?_, fun hnone c hc => ?_⟩
  · have heq := selectBlockFromCandidates_eq P stop nStakeModifierPrev mapSelectedBlocks hfind none
    rw [hscan] at heq
    exact heq
  · have hlate : ¬ stop < b.nTime := fun hlate => absurd (hdrawn.empty hlate c hc.1 hc.2) (by omega)
    exact ⟨by omega, hdrawn.least hlate c hc.1 hc.2 (by omega)⟩
  · have hlate : stop < b.nTime := hnone b ⟨hdrawn.mem, hdrawn.free⟩
    rcases hdrawn.before hsorted hlate c hc.1 hc.2 with rfl | hbefore
    · exact .inr ⟨rfl, le_rfl⟩
    · exact hbefore

/-! ## The rounds -/

variable {nSelectionIntervalStart : Int}

theorem SelectedInRound.congr {free free' : CBlockIndex → Prop} (hfree : ∀ c, free c ↔ free' c)
    (h : SelectedInRound P nStakeModifierPrev stop free b) : SelectedInRound P nStakeModifierPrev stop free' b := by
  obtain rfl : free = free' := funext fun c => propext (hfree c)
  exact h

theorem testBit_entropy (n r : Nat) (fStakeEntropy : Bool) :
    (n ||| ((if fStakeEntropy then 1 else 0) <<< selected.length)).testBit r =
      (n.testBit r || (decide (r = selected.length) && fStakeEntropy)) := by
  rw [Nat.testBit_or, Nat.testBit_shiftLeft]
  congr 1
  by_cases hr : r = selected.length
  · subst hr
    cases fStakeEntropy <;> simp
  · by_cases hge : r ≥ selected.length
    · obtain ⟨m, hm⟩ : ∃ m, r - selected.length = m + 1 := ⟨r - selected.length - 1, by omega⟩
      cases fStakeEntropy with
      | false => simp [hr]
      | true => simp [hr, hm, Nat.testBit_succ]
    · simp [hr, hge]

namespace Selects

theorem nil : Selects P nStakeModifierPrev nSelectionIntervalStart candidates [] 0 where
  distinct := List.nodup_nil
  candidate := by simp
  round := by simp
  bit := by simp
  high := by simp

/-- **One block more**, and its bit. -/
theorem push (h : Selects P nStakeModifierPrev nSelectionIntervalStart candidates selected nStakeModifierNew)
    (hround : SelectedInRound P nStakeModifierPrev (selectionStop nSelectionIntervalStart selected.length)
      (fun c => c ∈ candidates ∧ c ∉ selected) b) :
    Selects P nStakeModifierPrev nSelectionIntervalStart candidates (selected ++ [b])
      (nStakeModifierNew ||| ((if b.fStakeEntropy then 1 else 0) <<< selected.length)) := by
  obtain ⟨hmem, hfresh⟩ := hround.isUnselected
  -- the rounds before, and the new one
  have hcases : ∀ r c, (selected ++ [b])[r]? = some c → (selected[r]? = some c ∧ r < selected.length) ∨ (r = selected.length ∧ c = b) := by
    intro r c hget
    rcases Nat.lt_trichotomy r selected.length with hlt | heq | hgt
    · rw [List.getElem?_append_left hlt] at hget
      exact .inl ⟨hget, hlt⟩
    · subst heq
      rw [List.getElem?_concat_length] at hget
      exact .inr ⟨rfl, (Option.some.inj hget).symm⟩
    · rw [List.getElem?_eq_none (by simp; omega)] at hget
      cases hget
  refine ⟨?_, fun c hc => ?_, fun r c hget => ?_, fun r c hget => ?_, fun r hr => ?_⟩
  · rw [List.nodup_append]
    refine ⟨h.distinct, List.nodup_singleton b, fun a ha c hc => ?_⟩
    rw [List.mem_singleton.mp hc]
    exact fun heq => hfresh (heq ▸ ha)
  · rcases List.mem_append.mp hc with hc | hc
    · exact h.candidate c hc
    · rw [List.mem_singleton.mp hc]
      exact hmem
  · rcases hcases r c hget with ⟨hget, hlt⟩ | ⟨rfl, rfl⟩
    · rw [List.take_append_of_le_length (by omega)]
      exact h.round r c hget
    · rw [List.take_left]
      exact hround
  · rw [testBit_entropy]
    rcases hcases r c hget with ⟨hget, hlt⟩ | ⟨rfl, rfl⟩
    · rw [h.bit r c hget]
      simp [show r ≠ selected.length by omega]
    · rw [h.high _ le_rfl]
      simp
  · rw [List.length_append, List.length_singleton] at hr
    rw [testBit_entropy, h.high r (by omega)]
    simp [show r ≠ selected.length by omega]

/-- Only which candidates there are counts. -/
theorem congr {candidates' : List CBlockIndex} (hmem : ∀ c, c ∈ candidates ↔ c ∈ candidates')
    (h : Selects P nStakeModifierPrev nSelectionIntervalStart candidates selected nStakeModifierNew) :
    Selects P nStakeModifierPrev nSelectionIntervalStart candidates' selected nStakeModifierNew where
  distinct := h.distinct
  candidate b hb := (hmem b).mp (h.candidate b hb)
  round r b hget := (h.round r b hget).congr fun c => and_congr_left fun _ => hmem c
  bit := h.bit
  high := h.high

/-- A candidate is selected if its hash is. -/
theorem mem_hashes (h : Selects P nStakeModifierPrev nSelectionIntervalStart candidates selected nStakeModifierNew)
    (hnodup : (candidates.map CBlockIndex.phashBlock).Nodup) {c : CBlockIndex} (hc : c ∈ candidates) :
    c.phashBlock ∈ selected.map CBlockIndex.phashBlock ↔ c ∈ selected := by
  refine ⟨fun hmem => ?_, fun hmem => List.mem_map_of_mem hmem⟩
  obtain ⟨c', hc', heq⟩ := List.mem_map.mp hmem
  rw [← List.inj_on_of_nodup_map hnodup (h.candidate c' hc') hc heq]
  exact hc'

/-- Before all candidates are selected, one is left. -/
theorem exists_left (hnodup : (candidates.map CBlockIndex.phashBlock).Nodup) (hlt : selected.length < candidates.length) :
    ∃ c ∈ candidates, c.phashBlock ∉ selected.map CBlockIndex.phashBlock := by
  by_contra hall
  have hsub : candidates.map CBlockIndex.phashBlock ⊆ selected.map CBlockIndex.phashBlock := by
    intro hash hmem
    obtain ⟨c, hc, rfl⟩ := List.mem_map.mp hmem
    by_contra hnot
    exact hall ⟨c, hc, hnot⟩
  have hle := (List.Nodup.subperm hnodup hsub).length_le
  simp at hle
  omega

end Selects

/-- **No round fails**, and the rounds select. -/
theorem selectRounds_ok (hfind : ∀ b ∈ candidates, t.find b.phashBlock = some b) (hsorted : candidates.Pairwise byTimestamp)
    (hnodup : (candidates.map CBlockIndex.phashBlock).Nodup) (rounds : Nat) (hrounds : selected.length + rounds ≤ candidates.length)
    (h : Selects P nStakeModifierPrev nSelectionIntervalStart candidates selected nStakeModifierNew) :
    ∃ selected' nStakeModifierNew', t.selectRounds P nStakeModifierPrev (candidates.map timestamped) rounds selected.length
        (nSelectionIntervalStart + ((List.range selected.length).map getStakeModifierSelectionIntervalSection).sum)
        (selected.map CBlockIndex.phashBlock).reverse nStakeModifierNew = .ok nStakeModifierNew' ∧
      Selects P nStakeModifierPrev nSelectionIntervalStart candidates selected' nStakeModifierNew' ∧
      selected'.length = selected.length + rounds := by
  induction rounds generalizing selected nStakeModifierNew with
  | zero => exact ⟨selected, nStakeModifierNew, rfl, h, rfl⟩
  | succ rounds ih =>
    have hstop : nSelectionIntervalStart + ((List.range selected.length).map getStakeModifierSelectionIntervalSection).sum +
        getStakeModifierSelectionIntervalSection selected.length = selectionStop nSelectionIntervalStart selected.length := by
      rw [selectionStop, List.range_succ, List.map_append, List.sum_append]
      simp
      omega
    have hleft : ∃ c ∈ candidates, c.phashBlock ∉ (selected.map CBlockIndex.phashBlock).reverse := by
      simpa only [List.mem_reverse] using @Selects.exists_left candidates selected hnodup (by omega)
    obtain ⟨b, hselect, hround⟩ := selectBlockFromCandidates_ok P (selectionStop nSelectionIntervalStart selected.length)
      nStakeModifierPrev hfind hsorted hleft
    have hpush := h.push (hround.congr fun c => ?_)
    · obtain ⟨selected', nStakeModifierNew', hrest, hselects, hlength⟩ := ih (by simp; omega) hpush
      refine ⟨selected', nStakeModifierNew', ?_, hselects, by simp at hlength; omega⟩
      rw [BlockTree.selectRounds, hstop, hselect]
      dsimp only
      rw [← hrest]
      simp [selectionStop]
    · refine and_congr_right fun hc => ?_
      rw [List.mem_reverse, h.mem_hashes hnodup hc]

end

/-! ## The whole computation -/

instance : Std.Total byTimestamp where
  total a b := by
    rcases Nat.lt_trichotomy a.nTime b.nTime with hlt | heq | hgt
    · exact .inl (.inl hlt)
    · rcases Nat.le_total a.phashBlock b.phashBlock with hle | hle
      · exact .inl (.inr ⟨heq, hle⟩)
      · exact .inr (.inr ⟨heq.symm, hle⟩)
    · exact .inr (.inl hgt)

instance : IsTrans CBlockIndex byTimestamp where
  trans a b c hab hbc := by
    rcases hab with hab | ⟨hab, hle⟩
    · rcases hbc with hbc | ⟨hbc, -⟩
      · exact .inl (hab.trans hbc)
      · exact .inl (hbc ▸ hab)
    · rcases hbc with hbc | ⟨hbc, hle'⟩
      · exact .inl (hab ▸ hbc)
      · exact .inr ⟨hab.trans hbc, Nat.le_trans hle hle'⟩

section

variable {P : Params} {t : BlockTree} {hash : Uint256} {pindexPrev : CBlockIndex} {branch candidates : List CBlockIndex}

/-- The walk back to the last modifier ends at the first block at the latest. -/
theorem getLastStakeModifier_ok (hne : branch ≠ []) (hgenesis : ∀ b, branch.getLast? = some b → b.fStakeModifier = true) :
    ∃ last, getLastStakeModifier branch = .ok last := by
  have hskip : ∃ b rest, skipBack (fun b => !b.fStakeModifier) branch = b :: rest ∧ b.fStakeModifier = true := by
    induction branch with
    | nil => exact absurd rfl hne
    | cons b branch ih =>
      cases branch with
      | nil => exact ⟨b, [], rfl, hgenesis b rfl⟩
      | cons prev rest =>
        by_cases hb : b.fStakeModifier = true
        · exact ⟨b, prev :: rest, by simp [skipBack, hb], hb⟩
        · obtain ⟨b', rest', hskip, hb'⟩ := ih (by simp) fun b' hb' => hgenesis b' (by simpa using hb')
          exact ⟨b', rest', by simpa [skipBack, hb] using hskip, hb'⟩
  obtain ⟨b, rest, hskip, hb⟩ := hskip
  refine ⟨(b.nStakeModifier, b.nTime), ?_⟩
  unfold getLastStakeModifier
  cases branch with
  | nil => exact absurd rfl hne
  | cons prev branch =>
    rw [hskip]
    exact if_pos hb

namespace BlockTree

/-- The blocks of a chain have different hashes. -/
theorem nodup_branch (t : BlockTree) (hash : Uint256) : ((t.branch hash).map CBlockIndex.phashBlock).Nodup := by
  have hsub : ((t.branch hash).map CBlockIndex.phashBlock).Sublist (t.chain hash) := by
    rw [branch]
    induction t.chain hash with
    | nil => exact .slnil
    | cons h chain ih =>
      cases hb : t.find h with
      | none =>
        rw [List.filterMap_cons_none hb]
        exact ih.cons h
      | some b =>
        rw [List.filterMap_cons_some hb, List.map_cons, find_hash hb]
        exact ih.cons_cons h
  exact (t.forest.chain_nodup hash).sublist hsub

/-- The candidates in order, by their time and hash. -/
theorem insertionSort_timestamped (candidates : List CBlockIndex) :
    (candidates.map timestamped).reverse.insertionSort itemLe =
      (candidates.reverse.insertionSort byTimestamp).map timestamped := by
  rw [← List.map_reverse]
  exact (List.map_insertionSort byTimestamp itemLe timestamped candidates.reverse fun _ _ _ _ => Iff.rfl).symm

end BlockTree

theorem candidates_sublist (pindexPrev : CBlockIndex) (branch : List CBlockIndex) : (pindexPrev.candidates branch).Sublist branch :=
  List.takeWhile_sublist _

/-- **A chain's next modifier.** It is always computed. If it is generated anew,
its bits are those of the blocks selected. -/
theorem exists_selected (hprev : t.find hash = some pindexPrev)
    (hgenesis : ∀ b, (t.branch hash).getLast? = some b → b.fStakeModifier = true) :
    ∃ nStakeModifier fGenerated, t.computeNextStakeModifier P (some hash) = .ok (nStakeModifier, fGenerated) ∧
      (fGenerated = true → ∃ nStakeModifierPrev nModifierTime selected,
        getLastStakeModifier (t.branch hash) = .ok (nStakeModifierPrev, nModifierTime) ∧
        selected.length = min 64 (pindexPrev.candidates (t.branch hash)).length ∧
        Selects P nStakeModifierPrev pindexPrev.nSelectionIntervalStart (pindexPrev.candidates (t.branch hash)) selected
          nStakeModifier) := by
  obtain ⟨rest, hbranch⟩ := BlockTree.branch_eq_cons hprev
  obtain ⟨⟨nStakeModifierPrev, nModifierTime⟩, hlast⟩ := getLastStakeModifier_ok (by simp [hbranch]) hgenesis
  have hnodup := (t.nodup_branch hash).sublist ((candidates_sublist pindexPrev (t.branch hash)).map _)
  have hfind : ∀ b ∈ pindexPrev.candidates (t.branch hash), t.find b.phashBlock = some b := fun b hb =>
    (BlockTree.mem_branch ((candidates_sublist pindexPrev (t.branch hash)).subset hb)).2
  unfold BlockTree.computeNextStakeModifier
  rw [Option.elim_some]
  rw [hbranch] at hlast hnodup hfind ⊢
  dsimp only
  rw [hlast]
  dsimp only
  by_cases hold : pindexPrev.nTime / nModifierInterval ≤ nModifierTime / nModifierInterval
  · rw [if_pos hold]
    exact ⟨nStakeModifierPrev, false, rfl, by simp⟩
  · rw [if_neg hold, BlockTree.insertionSort_timestamped]
    obtain ⟨sorted, hsorted⟩ : ∃ sorted,
        (pindexPrev.candidates (pindexPrev :: rest)).reverse.insertionSort byTimestamp = sorted := ⟨_, rfl⟩
    have hperm : sorted.Perm (pindexPrev.candidates (pindexPrev :: rest)) := by
      rw [← hsorted]
      exact (List.perm_insertionSort byTimestamp _).trans (List.reverse_perm _)
    have hpairwise : sorted.Pairwise byTimestamp := by
      rw [← hsorted]
      exact List.pairwise_insertionSort byTimestamp _
    have hrounds : ([] : List CBlockIndex).length + min 64 sorted.length ≤ sorted.length := by
      rw [List.length_nil]
      omega
    obtain ⟨selected, nStakeModifierNew, hselect, hselects, hlength⟩ := selectRounds_ok (P := P) (t := t)
      (fun b hb => hfind b (hperm.mem_iff.mp hb)) hpairwise ((hperm.map _).nodup_iff.mpr hnodup) (min 64 sorted.length)
      hrounds Selects.nil
    refine ⟨nStakeModifierNew, true, ?_, fun _ => ⟨nStakeModifierPrev, nModifierTime, selected, rfl, ?_,
      hselects.congr fun c => hperm.mem_iff⟩⟩
    · rw [hsorted, List.length_map]
      simp only [List.length_nil, List.range_zero, List.map_nil, List.sum_nil, List.reverse_nil, Nat.cast_zero, add_zero] at hselect
      rw [hselect]
      rfl
    · rw [hlength, hperm.length_eq]
      simp

end

/-! ## The ancestors only -/

/-- A block as one of the ancestors of another, whatever follows it on the main
chain. -/
def CBlockIndex.ancestor (b : CBlockIndex) : CBlockIndex := { b with pnext := none }

section

variable {P : Params} {t : BlockTree} {nStakeModifierPrev : Nat} {candidates branch : List CBlockIndex}

/-- The selection among the records themselves is the one by time and hash. -/
theorem selectBlockFromCandidates_scan (P : Params) (stop : Int) (nStakeModifierPrev : Nat) (mapSelectedBlocks : List Uint256)
    (candidates : List CBlockIndex) (best : Option CBlockIndex) :
    selectBlockFromCandidates P stop nStakeModifierPrev mapSelectedBlocks candidates
        (best.map fun b => (b, hashSelection P nStakeModifierPrev b)) =
      scan (hashSelection P nStakeModifierPrev) (fun b => stop < b.nTime) (fun b => b.phashBlock ∈ mapSelectedBlocks)
        candidates best := by
  induction candidates generalizing best with
  | nil =>
    cases best with
    | none => rfl
    | some b => rfl
  | cons pindex rest ih =>
    unfold selectBlockFromCandidates scan
    by_cases hlate : best.isSome ∧ stop < pindex.nTime
    · rw [if_pos (by simpa using hlate), if_pos hlate]
      cases best with
      | none => rfl
      | some b => rfl
    · rw [if_neg (by simpa using hlate), if_neg hlate]
      by_cases htaken : pindex.phashBlock ∈ mapSelectedBlocks
      · rw [if_pos htaken, if_pos htaken]
        exact ih best
      · rw [if_neg htaken, if_neg htaken]
        cases best with
        | none => exact ih (some pindex)
        | some b =>
          dsimp only [Option.map_some, better]
          by_cases hkey : hashSelection P nStakeModifierPrev pindex < hashSelection P nStakeModifierPrev b
          · rw [if_pos hkey, if_pos hkey]
            exact ih (some pindex)
          · rw [if_neg hkey, if_neg hkey]
            exact ih (some b)

theorem selectRounds_eq (hfind : ∀ b ∈ candidates, t.find b.phashBlock = some b) (rounds nRound : Nat) (stop : Int)
    (mapSelectedBlocks : List Uint256) (nStakeModifierNew : Nat) :
    t.selectRounds P nStakeModifierPrev (candidates.map timestamped) rounds nRound stop mapSelectedBlocks nStakeModifierNew =
      selectRounds P nStakeModifierPrev candidates rounds nRound stop mapSelectedBlocks nStakeModifierNew := by
  induction rounds generalizing nRound stop mapSelectedBlocks nStakeModifierNew with
  | zero => rfl
  | succ rounds ih =>
    have hscan := selectBlockFromCandidates_scan P (stop + getStakeModifierSelectionIntervalSection nRound) nStakeModifierPrev
      mapSelectedBlocks candidates none
    have hselect := selectBlockFromCandidates_eq P (stop + getStakeModifierSelectionIntervalSection nRound) nStakeModifierPrev
      mapSelectedBlocks hfind none
    rw [← hscan, Option.map_none] at hselect
    rw [BlockTree.selectRounds, selectRounds, hselect]
    cases selectBlockFromCandidates P (stop + getStakeModifierSelectionIntervalSection nRound) nStakeModifierPrev mapSelectedBlocks
        candidates none with
    | none => rfl
    | some pindex => exact ih _ _ _ _

/-- Sorted by time and hash, blocks of different hashes have one order. -/
theorem insertionSort_reverse (hnodup : (candidates.map CBlockIndex.phashBlock).Nodup) :
    candidates.reverse.insertionSort byTimestamp = candidates.insertionSort byTimestamp := by
  have hantisymm : ∀ a b, a ∈ candidates.reverse.insertionSort byTimestamp → b ∈ candidates.insertionSort byTimestamp →
      byTimestamp a b → byTimestamp b a → a = b := by
    intro a b ha hb hab hba
    have ha : a ∈ candidates := List.mem_reverse.mp ((List.mem_insertionSort _).mp ha)
    have hb : b ∈ candidates := (List.mem_insertionSort _).mp hb
    refine List.inj_on_of_nodup_map hnodup ha hb ?_
    rcases hab with hab | ⟨heq, hle⟩
    · rcases hba with hba | ⟨heq', -⟩
      · omega
      · omega
    · rcases hba with hba | ⟨-, hle'⟩
      · omega
      · exact Nat.le_antisymm hle hle'
  exact List.Perm.eq_of_pairwise hantisymm (List.pairwise_insertionSort _ _) (List.pairwise_insertionSort _ _)
    (((List.perm_insertionSort _ _).trans (List.reverse_perm _)).trans (List.perm_insertionSort _ _).symm)

/-- **It is the modifier of the branch**: that each candidate is looked up makes
no difference. -/
theorem BlockTree.computeNextStakeModifier_eq (P : Params) (t : BlockTree) (pindexPrev : Option Uint256) :
    t.computeNextStakeModifier P pindexPrev = Pinkcoin.computeNextStakeModifier P (pindexPrev.elim [] t.branch) := by
  unfold BlockTree.computeNextStakeModifier Pinkcoin.computeNextStakeModifier
  cases pindexPrev with
  | none => rfl
  | some hash =>
    rw [Option.elim_some]
    cases hbranch : t.branch hash with
    | nil => rfl
    | cons pindexPrev rest =>
      have hsub : ((pindexPrev.candidates (pindexPrev :: rest))).Sublist (t.branch hash) := by
        rw [hbranch]
        exact candidates_sublist _ _
      have hnodup := (t.nodup_branch hash).sublist (hsub.map _)
      have hrounds := @selectRounds_eq P t
      dsimp only
      cases getLastStakeModifier (pindexPrev :: rest) with
      | error _ => rfl
      | ok last =>
        dsimp only
        rw [BlockTree.insertionSort_timestamped, insertionSort_reverse hnodup, List.length_map, selectRounds_eq fun b hb => ?_]
        · rfl
        · exact (BlockTree.mem_branch (hsub.subset ((List.mem_insertionSort _).mp hb))).2

end

section

variable {P : Params} {branch : List CBlockIndex}

theorem skipBack_ancestor (skip : CBlockIndex → Bool) (hskip : ∀ b, skip b.ancestor = skip b) (branch : List CBlockIndex) :
    skipBack skip (branch.map CBlockIndex.ancestor) = (skipBack skip branch).map CBlockIndex.ancestor := by
  induction branch with
  | nil => rfl
  | cons b branch ih =>
    cases branch with
    | nil => rfl
    | cons prev rest =>
      by_cases hb : skip b = true
      · have hleft : skipBack skip ((b :: prev :: rest).map CBlockIndex.ancestor) =
            skipBack skip ((prev :: rest).map CBlockIndex.ancestor) := by
          simp [skipBack, hskip, hb]
        rw [hleft, ih]
        simp [skipBack, hb]
      · simp [skipBack, hskip, hb]

theorem getLastStakeModifier_ancestor (branch : List CBlockIndex) :
    getLastStakeModifier (branch.map CBlockIndex.ancestor) = getLastStakeModifier branch := by
  have hskip := skipBack_ancestor (fun b => !b.fStakeModifier) (fun _ => rfl) branch
  unfold getLastStakeModifier
  cases branch with
  | nil => rfl
  | cons prev rest =>
    rw [hskip]
    dsimp only [List.map_cons]
    cases skipBack (fun b => !b.fStakeModifier) (prev :: rest) with
    | nil => rfl
    | cons pindex _ => rfl

theorem selectRounds_ancestor (nStakeModifierPrev : Nat) (candidates : List CBlockIndex) (rounds nRound : Nat) (stop : Int)
    (mapSelectedBlocks : List Uint256) (nStakeModifierNew : Nat) :
    selectRounds P nStakeModifierPrev (candidates.map CBlockIndex.ancestor) rounds nRound stop mapSelectedBlocks nStakeModifierNew =
      selectRounds P nStakeModifierPrev candidates rounds nRound stop mapSelectedBlocks nStakeModifierNew := by
  induction rounds generalizing nRound stop mapSelectedBlocks nStakeModifierNew with
  | zero => rfl
  | succ rounds ih =>
    have hselect : ∀ stop, selectBlockFromCandidates P stop nStakeModifierPrev mapSelectedBlocks
        (candidates.map CBlockIndex.ancestor) none =
        (selectBlockFromCandidates P stop nStakeModifierPrev mapSelectedBlocks candidates none).map CBlockIndex.ancestor := by
      intro stop
      have hleft := selectBlockFromCandidates_scan P stop nStakeModifierPrev mapSelectedBlocks
        (candidates.map CBlockIndex.ancestor) none
      have hright := selectBlockFromCandidates_scan P stop nStakeModifierPrev mapSelectedBlocks candidates none
      rw [Option.map_none] at hleft hright
      rw [hleft, hright]
      exact scan_map CBlockIndex.ancestor (fun _ => rfl) (fun _ => Iff.rfl) (fun _ => Iff.rfl) candidates none
    rw [selectRounds, selectRounds, hselect]
    cases selectBlockFromCandidates P (stop + getStakeModifierSelectionIntervalSection nRound) nStakeModifierPrev mapSelectedBlocks
        candidates none with
    | none => rfl
    | some pindex => exact ih _ _ _ _

/-- What follows the ancestors on the main chain makes no difference. -/
theorem computeNextStakeModifier_ancestor (P : Params) (branch : List CBlockIndex) :
    computeNextStakeModifier P (branch.map CBlockIndex.ancestor) = computeNextStakeModifier P branch := by
  have hlast := getLastStakeModifier_ancestor branch
  unfold computeNextStakeModifier
  cases branch with
  | nil => rfl
  | cons pindexPrev rest =>
    rw [hlast]
    have hmap : (pindexPrev :: rest).map CBlockIndex.ancestor = pindexPrev.ancestor :: rest.map CBlockIndex.ancestor := rfl
    rw [hmap]
    cases getLastStakeModifier (pindexPrev :: rest) with
    | error _ => rfl
    | ok last =>
      dsimp only
      rw [← hmap, List.takeWhile_map,
        ← List.map_insertionSort byTimestamp byTimestamp CBlockIndex.ancestor _ fun _ _ _ _ => Iff.rfl, selectRounds_ancestor,
        List.length_map]
      rfl

end

/-- **`ComputeNextStakeModifier`.** On a chain whose first block generated a
modifier it never fails. A modifier that is generated anew has the entropy bits
of the blocks selected, which are different ancestors not before the selection
interval. Only the ancestors count. -/
theorem BlockTree.computeNextStakeModifier_spec (P : Params) (t : BlockTree) {hash : Uint256} {pindexPrev : CBlockIndex}
    (hprev : t.find hash = some pindexPrev) (hgenesis : ∀ b, (t.branch hash).getLast? = some b → b.fStakeModifier = true) :
    (∃ nStakeModifier fGenerated, t.computeNextStakeModifier P (some hash) = .ok (nStakeModifier, fGenerated) ∧
      (fGenerated = true → ∃ nStakeModifierPrev nModifierTime selected,
        getLastStakeModifier (t.branch hash) = .ok (nStakeModifierPrev, nModifierTime) ∧
        selected.length = min 64 (pindexPrev.candidates (t.branch hash)).length ∧
        (∀ b ∈ selected, b ∈ t.branch hash ∧ pindexPrev.nSelectionIntervalStart ≤ b.nTime) ∧
        Selects P nStakeModifierPrev pindexPrev.nSelectionIntervalStart (pindexPrev.candidates (t.branch hash)) selected
          nStakeModifier)) ∧
    ∀ t' : BlockTree, (t'.branch hash).map CBlockIndex.ancestor = (t.branch hash).map CBlockIndex.ancestor →
      t'.computeNextStakeModifier P (some hash) = t.computeNextStakeModifier P (some hash) := by
  refine ⟨?_, fun t' hsame => ?_⟩
  · obtain ⟨nStakeModifier, fGenerated, hok, hselected⟩ := exists_selected (P := P) hprev hgenesis
    refine ⟨nStakeModifier, fGenerated, hok, fun hgenerated => ?_⟩
    obtain ⟨nStakeModifierPrev, nModifierTime, selected, hlast, hlength, hselects⟩ := hselected hgenerated
    refine ⟨nStakeModifierPrev, nModifierTime, selected, hlast, hlength, fun b hb => ?_, hselects⟩
    have hcandidate := hselects.candidate b hb
    exact ⟨(candidates_sublist pindexPrev _).subset hcandidate, by simpa using List.mem_takeWhile_imp hcandidate⟩
  · rw [t'.computeNextStakeModifier_eq, t.computeNextStakeModifier_eq, Option.elim_some, Option.elim_some,
      ← computeNextStakeModifier_ancestor, hsame, computeNextStakeModifier_ancestor]

/-! ## Two blocks -/

namespace Sample

/-- A record of which only the time and the modifier matter. -/
def timedIndex (nTime : Nat) (fStakeModifier : Bool) : CBlockIndex :=
  ⟨0, none, none, 0, 0, 0, 0, 0, 0, false, true, fStakeModifier, 0, COutPoint.null, 0, 0, 1, 0, nTime, 0, 0⟩

/-- A first block, which generated a modifier, and a block after it. -/
def twoBlocks : BlockTree := (BlockTree.empty.add 5 0 (timedIndex 600 true)).add 6 5 (timedIndex 1000 false)

/-- The two as they are in the index. -/
def firstBlock : CBlockIndex := { timedIndex 600 true with phashBlock := 5 }
def secondBlock : CBlockIndex := { timedIndex 1000 false with phashBlock := 6, pprev := some 5, nHeight := 1 }

end Sample

theorem BlockTree.computeNextStakeModifier_spec_sample :
    ∃ nStakeModifier fGenerated,
      Sample.twoBlocks.computeNextStakeModifier (Sample.params true) (some 6) = .ok (nStakeModifier, fGenerated) := by
  obtain ⟨⟨nStakeModifier, fGenerated, hok, -⟩, -⟩ :=
    BlockTree.computeNextStakeModifier_spec (Sample.params true) Sample.twoBlocks
      (show Sample.twoBlocks.find 6 = some Sample.secondBlock by decide) (by decide)
  exact ⟨nStakeModifier, fGenerated, hok⟩

/-- **A block after the interval is selected**: the selection interval ends when
its last section does, and with few candidates the newest block counts, which
is later. -/
theorem not_selected_inside :
    ∃ nStakeModifier, Sample.twoBlocks.computeNextStakeModifier (Sample.params true) (some 6) = .ok (nStakeModifier, true) ∧
      ¬ ∃ nStakeModifierPrev selected, selected.length = min 64 (Sample.secondBlock.candidates (Sample.twoBlocks.branch 6)).length ∧
        Selects (Sample.params true) nStakeModifierPrev Sample.secondBlock.nSelectionIntervalStart
          (Sample.secondBlock.candidates (Sample.twoBlocks.branch 6)) selected nStakeModifier ∧
        ∀ b ∈ selected, (b.nTime : Int) ≤ Sample.secondBlock.nSelectionIntervalStart + getStakeModifierSelectionInterval := by
  refine ⟨3, by decide +kernel, ?_⟩
  intro ⟨nStakeModifierPrev, selected, hlength, hselects, hinside⟩
  have hcandidates : Sample.secondBlock.candidates (Sample.twoBlocks.branch 6) = [Sample.secondBlock, Sample.firstBlock] := by
    decide +kernel
  rw [hcandidates] at hlength hselects
  -- both are selected
  have hsecond : Sample.secondBlock ∈ selected := by
    by_contra hnot
    have hsub : selected ⊆ [Sample.firstBlock] := by
      intro b hb
      rcases List.mem_cons.mp (hselects.candidate b hb) with rfl | hfirst
      · exact absurd hb hnot
      · exact hfirst
    have hle := (List.Nodup.subperm hselects.distinct hsub).length_le
    rw [hlength] at hle
    exact absurd hle (by decide)
  exact absurd (hinside _ hsecond) (by decide +kernel)

end Pinkcoin
