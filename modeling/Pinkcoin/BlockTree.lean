/-
`mapBlockIndex`: the block index records by hash. A record's predecessor is
always in the map, one height below it, which is what the loops along
`pprev` rely on; the structure carries it. Such a loop is written over
`branch`, the records from a block back to the first.
-/
import Pinkcoin.Types
import Pinkcoin.Lib.Forest

namespace Pinkcoin

/-- The block index: each record under its own hash, each predecessor
present and one height lower. -/
structure BlockTree where
  index : Map Uint256 CBlockIndex
  hash_eq : ∀ {h b}, index.lookup h = some b → b.phashBlock = h
  pprev_ok : ∀ {h b p}, index.lookup h = some b → b.pprev = some p →
    ∃ bp, index.lookup p = some bp ∧ b.nHeight = bp.nHeight + 1

namespace BlockTree

def empty : BlockTree := ⟨∅, by simp, by simp⟩

variable (t : BlockTree)

def find (h : Uint256) : Option CBlockIndex := t.index.lookup h

/-- `mapBlockIndex.count(h)`. -/
def Has (h : Uint256) : Prop := t.find h ≠ none

instance (h : Uint256) : Decidable (t.Has h) := inferInstanceAs (Decidable (_ ≠ none))

/-- The record may be added: its predecessor, if any, is one height below. -/
def Fits (b : CBlockIndex) : Prop := ∀ p, b.pprev = some p → ∃ bp, t.find p = some bp ∧ b.nHeight = bp.nHeight + 1

/-- A new record as it stands in the tree: under its hash, after its
predecessor where that is known, and not yet on the main chain. -/
def link (hash hashPrevBlock : Uint256) (b : CBlockIndex) : CBlockIndex :=
  match t.find hashPrevBlock with
  | some bp => { b with phashBlock := hash, pprev := some hashPrevBlock, pnext := none, nHeight := bp.nHeight + 1 }
  | none => { b with phashBlock := hash, pprev := none, pnext := none, nHeight := 0 }

theorem link_fits (hash hashPrevBlock : Uint256) (b : CBlockIndex) : t.Fits (t.link hash hashPrevBlock b) := by
  intro p hp
  unfold link at hp ⊢
  cases hf : t.find hashPrevBlock with
  | none => simp [hf] at hp
  | some bp =>
    simp only [hf, Option.some.injEq] at hp ⊢
    exact ⟨bp, hp ▸ hf, rfl⟩

theorem link_hash (hash hashPrevBlock : Uint256) (b : CBlockIndex) :
    (t.link hash hashPrevBlock b).phashBlock = hash := by
  unfold link
  split <;> rfl

/-- Add a new record. -/
def insert (b : CBlockIndex) (hnew : t.find b.phashBlock = none) (hfit : t.Fits b) : BlockTree where
  index := t.index.insert b.phashBlock b
  hash_eq := by
    intro h c hc
    by_cases hh : h = b.phashBlock
    · subst hh
      rw [AList.lookup_insert] at hc
      rw [Option.some.inj hc]
    · exact t.hash_eq (by rwa [AList.lookup_insert_ne hh] at hc)
  pprev_ok := by
    intro h c p hc hp
    have hold : ∃ cp, t.find p = some cp ∧ c.nHeight = cp.nHeight + 1 := by
      by_cases hh : h = b.phashBlock
      · subst hh
        rw [AList.lookup_insert] at hc
        obtain rfl := Option.some.inj hc
        exact hfit p hp
      · rw [AList.lookup_insert_ne hh] at hc
        exact t.pprev_ok hc hp
    obtain ⟨cp, hcp, hh⟩ := hold
    refine ⟨cp, ?_, hh⟩
    rw [AList.lookup_insert_ne fun he => by simp [← he, hcp] at hnew]
    exact hcp

/-- Add a record unless its hash is there already. -/
def add (hash hashPrevBlock : Uint256) (b : CBlockIndex) : BlockTree :=
  if hnew : t.find hash = none then
    t.insert (t.link hash hashPrevBlock b) (by rw [link_hash]; exact hnew) (t.link_fits hash hashPrevBlock b)
  else t

/-- Change a record without moving it in the tree. -/
def adjust (h : Uint256) (f : CBlockIndex → CBlockIndex)
    (hf : ∀ b, (f b).phashBlock = b.phashBlock ∧ (f b).pprev = b.pprev ∧ (f b).nHeight = b.nHeight) : BlockTree :=
  match hb : t.find h with
  | none => t
  | some b =>
    have hlook : ∀ {k c}, (t.index.insert h (f b)).lookup k = some c →
        ∃ c', t.find k = some c' ∧ c.phashBlock = c'.phashBlock ∧ c.pprev = c'.pprev ∧ c.nHeight = c'.nHeight := by
      intro k c hc
      by_cases hk : k = h
      · subst hk
        rw [AList.lookup_insert] at hc
        obtain rfl := Option.some.inj hc
        exact ⟨b, hb, hf b⟩
      · rw [AList.lookup_insert_ne hk] at hc
        exact ⟨c, hc, rfl, rfl, rfl⟩
    { index := t.index.insert h (f b)
      hash_eq := by
        intro k c hc
        obtain ⟨c', hc', hh, -, -⟩ := hlook hc
        rw [hh, t.hash_eq hc']
      pprev_ok := by
        intro k c p hc hp
        obtain ⟨c', hc', -, hpp, hhh⟩ := hlook hc
        obtain ⟨bp, hbp, hlt⟩ := t.pprev_ok hc' (hpp ▸ hp)
        by_cases hp' : p = h
        · subst hp'
          have : bp = b := Option.some.inj (hbp.symm.trans hb)
          exact ⟨f b, by simp, by rw [hhh, hlt, this, (hf b).2.2]⟩
        · exact ⟨bp, by rw [AList.lookup_insert_ne hp']; exact hbp, by rw [hhh, hlt]⟩ }

/-- `pindex->pnext = pnext`. -/
def setPnext (h : Uint256) (pnext : Option Uint256) : BlockTree :=
  t.adjust h (fun b => { b with pnext := pnext }) fun _ => ⟨rfl, rfl, rfl⟩

/-- `pindex->nMint = nMint; pindex->nMoneySupply = nMoneySupply`. -/
def setSupply (h : Uint256) (nMint nMoneySupply : Int) : BlockTree :=
  t.adjust h (fun b => { b with nMint := nMint, nMoneySupply := nMoneySupply }) fun _ => ⟨rfl, rfl, rfl⟩

/-- The predecessor pointers as a forest. -/
def forest : Forest Uint256 where
  parent h := (t.find h).bind CBlockIndex.pprev
  rank h := ((t.find h).map CBlockIndex.nHeight).getD 0
  rank_parent := by
    intro x p hp
    obtain ⟨b, hb, hbp⟩ := Option.bind_eq_some_iff.mp hp
    obtain ⟨bp, hfp, hh⟩ := t.pprev_ok hb hbp
    simp [hb, show t.find p = some bp from hfp, hh]

/-- The hashes from a block back to the first block. -/
def chain (h : Uint256) : List Uint256 := t.forest.chain h

/-- The records from a block back to the first block: what a loop
`for (; pindex; pindex = pindex->pprev)` visits. -/
def branch (h : Uint256) : List CBlockIndex := (t.chain h).filterMap t.find

/-! ## Looking records up after a change -/

variable {t}

theorem find_hash {h : Uint256} {b : CBlockIndex} (hb : t.find h = some b) : b.phashBlock = h := t.hash_eq hb

theorem find_insert {b : CBlockIndex} {hnew : t.find b.phashBlock = none} {hfit : t.Fits b} (k : Uint256) :
    (t.insert b hnew hfit).find k = if k = b.phashBlock then some b else t.find k := by
  by_cases hk : k = b.phashBlock
  · subst hk; simp [insert, find]
  · simp [insert, find, hk]

theorem find_adjust {h : Uint256} {f : CBlockIndex → CBlockIndex}
    {hf : ∀ b, (f b).phashBlock = b.phashBlock ∧ (f b).pprev = b.pprev ∧ (f b).nHeight = b.nHeight} (k : Uint256) :
    (t.adjust h f hf).find k = if k = h then (t.find k).map f else t.find k := by
  unfold adjust
  split
  next hb =>
    by_cases hk : k = h
    · subst hk; simp [hb]
    · simp [hk]
  next b hb =>
    by_cases hk : k = h
    · subst hk; simp [find, show t.index.lookup k = some b from hb]
    · simp [find, hk]

theorem find_setPnext (h : Uint256) (pnext : Option Uint256) (k : Uint256) :
    (t.setPnext h pnext).find k = if k = h then (t.find k).map fun b => { b with pnext := pnext } else t.find k :=
  find_adjust k

theorem find_setSupply (h : Uint256) (nMint nMoneySupply : Int) (k : Uint256) :
    (t.setSupply h nMint nMoneySupply).find k =
      if k = h then (t.find k).map fun b => { b with nMint := nMint, nMoneySupply := nMoneySupply }
      else t.find k :=
  find_adjust k

theorem forest_adjust {h : Uint256} {f : CBlockIndex → CBlockIndex}
    {hf : ∀ b, (f b).phashBlock = b.phashBlock ∧ (f b).pprev = b.pprev ∧ (f b).nHeight = b.nHeight} :
    (t.adjust h f hf).forest = t.forest := by
  have hp : (t.adjust h f hf).forest.parent = t.forest.parent := by
    funext k
    simp only [forest, find_adjust]
    split
    · cases t.find k <;> simp [hf]
    · rfl
  have hr : (t.adjust h f hf).forest.rank = t.forest.rank := by
    funext k
    simp only [forest, find_adjust]
    split
    · cases t.find k <;> simp [hf]
    · rfl
  rw [Forest.mk.injEq]
  exact ⟨hp, hr⟩

theorem has_of_find {h : Uint256} {b : CBlockIndex} (hb : t.find h = some b) : t.Has h := by simp [Has, hb]

theorem parent_eq {h : Uint256} {b : CBlockIndex} (hb : t.find h = some b) : t.forest.parent h = b.pprev := by
  simp [forest, hb]

theorem rank_eq {h : Uint256} {b : CBlockIndex} (hb : t.find h = some b) : t.forest.rank h = b.nHeight := by
  simp [forest, hb]

theorem has_of_mem_chain {h y : Uint256} (hh : t.Has h) (hy : y ∈ t.chain h) : t.Has y := by
  induction h using Forest.chain_induction (F := t.forest) with
  | root x hp =>
    rw [chain, Forest.chain_of_root hp, List.mem_singleton] at hy
    exact hy ▸ hh
  | step x p hp ih =>
    rw [chain, Forest.chain_of_parent hp, List.mem_cons] at hy
    rcases hy with rfl | hy
    · exact hh
    · obtain ⟨c, hc, hcp⟩ := Option.bind_eq_some_iff.mp hp
      obtain ⟨cp, hcp', -⟩ := t.pprev_ok hc hcp
      exact ih (has_of_find hcp') hy

theorem chain_of_pprev {h p : Uint256} {b : CBlockIndex} (hb : t.find h = some b) (hp : b.pprev = some p) :
    t.chain h = h :: t.chain p := Forest.chain_of_parent (by rw [parent_eq hb, hp])

theorem chain_of_no_pprev {h : Uint256} {b : CBlockIndex} (hb : t.find h = some b) (hp : b.pprev = none) :
    t.chain h = [h] := Forest.chain_of_root (by rw [parent_eq hb, hp])

theorem branch_of_pprev {h p : Uint256} {b : CBlockIndex} (hb : t.find h = some b) (hp : b.pprev = some p) :
    t.branch h = b :: t.branch p := by
  rw [branch, chain_of_pprev hb hp, List.filterMap_cons_some hb, branch]

theorem branch_of_no_pprev {h : Uint256} {b : CBlockIndex} (hb : t.find h = some b) (hp : b.pprev = none) :
    t.branch h = [b] := by
  rw [branch, chain_of_no_pprev hb hp, List.filterMap_cons_some hb, List.filterMap_nil]

theorem branch_eq_cons {h : Uint256} {b : CBlockIndex} (hb : t.find h = some b) : ∃ rest, t.branch h = b :: rest := by
  cases hp : b.pprev with
  | none => exact ⟨[], branch_of_no_pprev hb hp⟩
  | some p => exact ⟨_, branch_of_pprev hb hp⟩

theorem parent_some {h p : Uint256} : t.forest.parent h = some p ↔ ∃ b, t.find h = some b ∧ b.pprev = some p := by
  simp [forest, Option.bind_eq_some_iff]

theorem has_of_parent {h p : Uint256} (hp : t.forest.parent h = some p) : t.Has h ∧ t.Has p := by
  obtain ⟨b, hb, hbp⟩ := parent_some.mp hp
  obtain ⟨bp, hfp, -⟩ := t.pprev_ok hb hbp
  exact ⟨has_of_find hb, has_of_find hfp⟩

theorem find_add {hash hashPrev : Uint256} {b : CBlockIndex} (hnew : t.find hash = none) (k : Uint256) :
    (t.add hash hashPrev b).find k = if k = hash then some (t.link hash hashPrev b) else t.find k := by
  rw [add, dif_pos hnew, find_insert, link_hash]

/-! ## What stays -/

end BlockTree

/-- The part of a record that never changes once it is in the tree: all but
`pnext` and the supply. -/
def CBlockIndex.core (b : CBlockIndex) : CBlockIndex := { b with pnext := none, nMint := 0, nMoneySupply := 0 }

namespace BlockTree

/-- Every record of `t` is still in `t'`, with the same core. -/
def Grows (t t' : BlockTree) : Prop := ∀ h b, t.find h = some b → ∃ b', t'.find h = some b' ∧ b'.core = b.core

variable {t t' t'' : BlockTree}

theorem Grows.refl : Grows t t := fun _ b hb => ⟨b, hb, rfl⟩

theorem Grows.trans (h : Grows t t') (h' : Grows t' t'') : Grows t t'' := by
  intro k b hb
  obtain ⟨b', hb', hc⟩ := h k b hb
  obtain ⟨b'', hb'', hc'⟩ := h' k b' hb'
  exact ⟨b'', hb'', hc'.trans hc⟩

theorem Grows.has (h : Grows t t') {k : Uint256} (hk : t.Has k) : t'.Has k := by
  obtain ⟨b, hb⟩ := Option.ne_none_iff_exists'.mp hk
  obtain ⟨b', hb', -⟩ := h k b hb
  exact has_of_find hb'

section

variable {b b' : CBlockIndex} (h : b'.core = b.core)

include h

theorem core_pprev : b'.pprev = b.pprev := (congrArg CBlockIndex.pprev h :)
theorem core_nHeight : b'.nHeight = b.nHeight := (congrArg CBlockIndex.nHeight h :)
theorem core_nFile : b'.nFile = b.nFile := (congrArg CBlockIndex.nFile h :)
theorem core_nBlockPos : b'.nBlockPos = b.nBlockPos := (congrArg CBlockIndex.nBlockPos h :)
end

/-- The chain of a block that is in the tree stays what it is. -/
theorem Grows.chain_eq (h : Grows t t') {k : Uint256} (hk : t.Has k) : t'.chain k = t.chain k := by
  refine Forest.chain_congr fun y hy => ?_
  obtain ⟨b, hb⟩ := Option.ne_none_iff_exists'.mp (has_of_mem_chain hk hy)
  obtain ⟨b', hb', hc⟩ := h y b hb
  rw [parent_eq hb', parent_eq hb, core_pprev hc]

theorem Grows.parent_eq (h : Grows t t') {k : Uint256} (hk : t.Has k) : t'.forest.parent k = t.forest.parent k := by
  obtain ⟨b, hb⟩ := Option.ne_none_iff_exists'.mp hk
  obtain ⟨b', hb', hc⟩ := h k b hb
  rw [BlockTree.parent_eq hb', BlockTree.parent_eq hb, core_pprev hc]

theorem Grows.parent_mono (h : Grows t t') : ∀ x p, t.forest.parent x = some p → t'.forest.parent x = some p := by
  intro x p hp
  rw [h.parent_eq (has_of_parent hp).1, hp]

theorem grows_add {hash hashPrev : Uint256} {b : CBlockIndex} : Grows t (t.add hash hashPrev b) := by
  by_cases hnew : t.find hash = none
  · intro k c hc
    refine ⟨c, ?_, rfl⟩
    rw [find_add hnew, if_neg fun hk => by simp [hk, hnew] at hc, hc]
  · rw [add, dif_neg hnew]
    exact Grows.refl

end BlockTree

end Pinkcoin
