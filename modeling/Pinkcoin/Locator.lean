/-
Block locators: the hashes of a block and of fewer and fewer of those before
it, and where on the main chain of a node they lead.
-/
import Pinkcoin.AcceptBlock
import Pinkcoin.MainChain

namespace Pinkcoin

/-! ## The locator of a block -/

/-- The loop of `CBlockLocator::Set` over the chain back from a block, with
`nStep` and the size of `vHave`. -/
def locatorLoop : Nat → List Uint256 → Nat → Nat → List Uint256
  | 0, _, _, _ => []
  | _ + 1, [], _, _ => []
  | fuel + 1, h :: rest, nStep, nSize =>
    h :: locatorLoop fuel ((h :: rest).drop nStep) (if nSize + 1 > 10 then nStep * 2 else nStep) (nSize + 1)

/-- `CBlockLocator::Set`: `vHave`, which ends with the genesis block. -/
def CBlockLocator.set (P : Params) (t : BlockTree) (pindex : Uint256) : List Uint256 :=
  locatorLoop (t.chain pindex).length (t.chain pindex) 1 0 ++ [P.hashGenesisBlock]

namespace Node

variable (s : Node)

/-- The block is in the index, and in the main chain. -/
def Finds (hash : Uint256) : Prop := s.mapBlockIndex.Has hash ∧ s.isInMainChain hash

instance (hash : Uint256) : Decidable (s.Finds hash) := inferInstanceAs (Decidable (_ ∧ _))

/-- The loop of `CBlockLocator::GetDistanceBack`. -/
def distanceLoop : List Uint256 → Nat → Nat → Nat
  | [], nDistance, _ => nDistance
  | hash :: vHave, nDistance, nStep =>
    if s.Finds hash then nDistance
    else distanceLoop vHave (nDistance + nStep) (if nDistance + nStep > 10 then nStep * 2 else nStep)

/-- `CBlockLocator::GetDistanceBack`. -/
def getDistanceBack (vHave : List Uint256) : Nat := s.distanceLoop vHave 0 1

/-- `CBlockLocator::GetBlockIndex`. -/
def getBlockIndex (vHave : List Uint256) : Option Uint256 := (vHave.find? (s.Finds ·)).or s.pindexGenesisBlock

end Node

/-! ## What is listed -/

/-- The listed blocks, with their distances from the first: where the loop of
`Set` stands after `nSize` entries, it is `d` blocks back. -/
structure Pace (nSize nStep d : Nat) : Prop where
  slow : nSize ≤ 10 → nStep = 1 ∧ d = nSize
  fast : 10 < nSize → 10 < d
  pos : 0 < nStep

theorem Pace.start : Pace 0 1 0 := ⟨fun _ => ⟨rfl, rfl⟩, fun h => absurd h (by decide), Nat.one_pos⟩

/-- The number of entries and the distance double the steps at the same
entry. -/
theorem Pace.trigger {nSize nStep d : Nat} (h : Pace nSize nStep d) : nSize + 1 > 10 ↔ d + nStep > 10 := by
  have hpos := h.pos
  rcases Nat.lt_or_ge 10 nSize with hfast | hslow
  · have := h.fast hfast
    omega
  · obtain ⟨rfl, rfl⟩ := h.slow hslow
    omega

theorem Pace.next {nSize nStep d : Nat} (h : Pace nSize nStep d) :
    Pace (nSize + 1) (if nSize + 1 > 10 then nStep * 2 else nStep) (d + nStep) := by
  have hpos := h.pos
  have htrigger := h.trigger
  refine ⟨fun hslow => ?_, fun hfast => htrigger.mp hfast, ?_⟩
  · obtain ⟨rfl, rfl⟩ := h.slow (by omega)
    rw [if_neg (by omega)]
    exact ⟨rfl, rfl⟩
  · split <;> omega

variable {P : Params} {s : Node}

/-- What is listed is on the chain. -/
theorem locatorLoop_subset {fuel nStep nSize : Nat} {chain : List Uint256} :
    ∀ h ∈ locatorLoop fuel chain nStep nSize, h ∈ chain := by
  induction fuel generalizing chain nStep nSize with
  | zero => exact nofun
  | succ fuel ih =>
    cases chain with
    | nil => exact nofun
    | cons x rest =>
      intro h hh
      rcases List.mem_cons.mp hh with rfl | hh
      · exact List.mem_cons_self
      · exact (List.drop_sublist nStep (x :: rest)).subset (ih h hh)

/-- **The distance to a listed block**: where the reader stops at an entry, it
has counted the blocks back to it. -/
theorem distanceLoop_locatorLoop (more : List Uint256) {fuel nStep nSize d : Nat} {chain : List Uint256}
    (hpace : Pace nSize nStep d) (hfuel : chain.length ≤ fuel) {pre post : List Uint256} {a : Uint256}
    (hlist : locatorLoop fuel chain nStep nSize = pre ++ a :: post) (hpre : ∀ h ∈ pre, ¬ s.Finds h) (ha : s.Finds a) :
    ∃ k, chain[k]? = some a ∧ s.distanceLoop (locatorLoop fuel chain nStep nSize ++ more) d nStep = d + k := by
  induction fuel generalizing chain nStep nSize d pre with
  | zero =>
    simp [locatorLoop] at hlist
  | succ fuel ih =>
    cases chain with
    | nil => simp [locatorLoop] at hlist
    | cons x rest =>
      unfold locatorLoop at hlist ⊢
      cases pre with
      | nil =>
        obtain ⟨rfl, -⟩ := List.cons.inj hlist
        exact ⟨0, rfl, if_pos ha⟩
      | cons y pre =>
        obtain ⟨rfl, hrest⟩ := List.cons.inj hlist
        have hpos := hpace.pos
        have hshort : ((x :: rest).drop nStep).length ≤ fuel := by
          rw [List.length_drop]
          simp only [List.length_cons] at hfuel ⊢
          omega
        obtain ⟨k, hk, hdist⟩ := ih hpace.next hshort hrest fun h hh => hpre h (List.mem_cons_of_mem _ hh)
        refine ⟨nStep + k, ?_, ?_⟩
        · rw [List.getElem?_drop] at hk
          exact hk
        · rw [List.cons_append, Node.distanceLoop, if_neg (hpre x List.mem_cons_self)]
          have htrigger := hpace.trigger
          by_cases hfast : nSize + 1 > 10
          · rw [if_pos hfast] at hdist
            rw [if_pos hfast, if_pos (htrigger.mp hfast), hdist, Nat.add_assoc]
          · rw [if_neg hfast] at hdist
            rw [if_neg hfast, if_neg fun h => hfast (htrigger.mpr h), hdist, Nat.add_assoc]

/-- The nodes of a chain lose one in rank with each step. -/
theorem rank_of_getElem? {N : Type} {F : Forest N} {x a : N} {k : Nat} (h : (F.chain x)[k]? = some a) :
    F.rank x = F.rank a + k := by
  induction x using Forest.chain_induction (F := F) generalizing k with
  | root x hp =>
    rw [Forest.chain_of_root hp] at h
    cases k with
    | zero =>
      obtain rfl := Option.some.inj h
      rfl
    | succ k => simp at h
  | step x p hp ih =>
    rw [Forest.chain_of_parent hp] at h
    cases k with
    | zero =>
      obtain rfl := Option.some.inj h
      rfl
    | succ k =>
      rw [F.rank_parent hp, ih h]
      omega

/-- The last node of a chain has no parent. -/
theorem exists_root_mem_chain {N : Type} {F : Forest N} (x : N) : ∃ r ∈ F.chain x, F.parent r = none := by
  induction x using Forest.chain_induction (F := F) with
  | root x hp => exact ⟨x, Forest.self_mem_chain x, hp⟩
  | step x p hp ih =>
    obtain ⟨r, hr, hroot⟩ := ih
    exact ⟨r, Forest.mem_chain_of_parent hp hr, hroot⟩

/-! ## Locators locate -/

/-- The index is one tree from the genesis block, and the main chain is the
one to `tip`. -/
structure MainTo (P : Params) (s : Node) (tip : Uint256) : Prop where
  best : s.pindexBest = some tip
  has : s.mapBlockIndex.Has tip
  marks : s.mapBlockIndex.MarksTo tip
  root : ∀ h b, s.mapBlockIndex.find h = some b → b.pprev = none → h = P.hashGenesisBlock

/-- The height of a block. -/
def Node.heightOf (s : Node) (h : Uint256) : Nat := s.mapBlockIndex.forest.rank h

/-- **A locator locates a block**: the first listed block that is in the main
chain is found; it is the block itself or one before it, none of the listed
ones before the block that are in the main chain is higher, and the distance is
the difference of the heights where the genesis block at the end is not
needed. -/
structure Locates (P : Params) (s : Node) (tip pindex : Uint256) (vHave : List Uint256) (found : Uint256) : Prop where
  result : s.getBlockIndex vHave = some found
  main : found ∈ s.mapBlockIndex.chain tip
  before : found ∈ s.mapBlockIndex.chain pindex
  highest : ∀ h ∈ vHave, h ∈ s.mapBlockIndex.chain pindex → h ∈ s.mapBlockIndex.chain tip →
    s.heightOf h ≤ s.heightOf found
  distance : ∀ listed pre a post, vHave = listed ++ [P.hashGenesisBlock] → listed = pre ++ a :: post →
    (∀ h ∈ pre, ¬ s.Finds h) → s.Finds a → found = a ∧ (s.getDistanceBack vHave : Int) = s.heightOf pindex - s.heightOf a

theorem MainTo.finds_iff {tip : Uint256} (h : MainTo P s tip) {a : Uint256} :
    s.Finds a ↔ s.mapBlockIndex.Has a ∧ a ∈ s.mapBlockIndex.chain tip :=
  and_congr_right fun hhas => h.marks.isInMainChain h.best hhas

/-- The genesis block is before every block. -/
theorem MainTo.genesis_mem {tip pindex : Uint256} (h : MainTo P s tip) (hhas : s.mapBlockIndex.Has pindex) :
    P.hashGenesisBlock ∈ s.mapBlockIndex.chain pindex := by
  obtain ⟨r, hr, hroot⟩ := exists_root_mem_chain (F := s.mapBlockIndex.forest) pindex
  have hhasr : s.mapBlockIndex.Has r := BlockTree.has_of_mem_chain hhas hr
  obtain ⟨b, hb⟩ := Option.ne_none_iff_exists'.mp hhasr
  have hprev : b.pprev = none := by rwa [BlockTree.parent_eq hb] at hroot
  rwa [← h.root r b hb hprev]

/-! ## What is found -/

theorem locatorLoop_sublist {fuel nStep nSize : Nat} {chain : List Uint256} (hstep : 0 < nStep) :
    (locatorLoop fuel chain nStep nSize).Sublist chain := by
  induction fuel generalizing chain nStep nSize with
  | zero => exact List.nil_sublist _
  | succ fuel ih =>
    cases chain with
    | nil => exact List.nil_sublist _
    | cons x rest =>
      obtain ⟨n, rfl⟩ : ∃ n, nStep = n + 1 := ⟨nStep - 1, by omega⟩
      have hnext : 0 < if nSize + 1 > 10 then (n + 1) * 2 else n + 1 := by split <;> omega
      exact ((ih hnext).trans (List.drop_sublist n rest)).cons_cons x

/-- The nodes of a chain are listed by descending rank. -/
theorem pairwise_chain {N : Type} {F : Forest N} (x : N) : (F.chain x).Pairwise fun a b => F.rank b ≤ F.rank a := by
  induction x using Forest.chain_induction (F := F) with
  | root x hp =>
    rw [Forest.chain_of_root hp]
    exact List.pairwise_singleton _ _
  | step x p hp ih =>
    rw [Forest.chain_of_parent hp]
    exact List.pairwise_cons.mpr ⟨fun y hy => Forest.rank_le (Forest.mem_chain_of_parent hp hy), ih⟩

theorem set_pairwise {tip pindex : Uint256} (h : MainTo P s tip) (hhas : s.mapBlockIndex.Has pindex) :
    (CBlockLocator.set P s.mapBlockIndex pindex).Pairwise fun a b => s.heightOf b ≤ s.heightOf a := by
  refine List.pairwise_append.mpr ⟨(pairwise_chain pindex).sublist (locatorLoop_sublist Nat.one_pos),
    List.pairwise_singleton _ _, fun a ha b hb => ?_⟩
  rw [List.mem_singleton.mp hb]
  have hchain := locatorLoop_subset a ha
  exact Forest.rank_le (h.genesis_mem (BlockTree.has_of_mem_chain hhas hchain))

/-- The first listed block that is in the main chain is found. It is before
the block and before the tip. -/
theorem exists_found {tip pindex : Uint256} (h : MainTo P s tip) (hhas : s.mapBlockIndex.Has pindex) :
    ∃ a, (CBlockLocator.set P s.mapBlockIndex pindex).find? (s.Finds ·) = some a ∧
      s.getBlockIndex (CBlockLocator.set P s.mapBlockIndex pindex) = some a ∧ a ∈ s.mapBlockIndex.chain tip ∧
      a ∈ s.mapBlockIndex.chain pindex := by
  have hgenesis := h.genesis_mem hhas
  obtain ⟨a, ha⟩ : ∃ a, (CBlockLocator.set P s.mapBlockIndex pindex).find? (s.Finds ·) = some a := by
    refine Option.isSome_iff_exists.mp (List.find?_isSome.mpr ⟨P.hashGenesisBlock, ?_, ?_⟩)
    · exact List.mem_append_right _ (List.mem_singleton_self _)
    · exact decide_eq_true (h.finds_iff.mpr ⟨BlockTree.has_of_mem_chain hhas hgenesis, h.genesis_mem h.has⟩)
  have hfinds := List.find?_some ha
  refine ⟨a, ha, by rw [Node.getBlockIndex, ha, Option.some_or], (h.finds_iff.mp (of_decide_eq_true hfinds)).2, ?_⟩
  rcases List.mem_append.mp (List.mem_of_find?_eq_some ha) with hmem | hmem
  · exact locatorLoop_subset a hmem
  · rw [List.mem_singleton.mp hmem]
    exact hgenesis

/-- **The locator of a block locates it.** -/
theorem exists_locates {tip pindex : Uint256} (h : MainTo P s tip) (hhas : s.mapBlockIndex.Has pindex) :
    ∃ found, Locates P s tip pindex (CBlockLocator.set P s.mapBlockIndex pindex) found := by
  obtain ⟨a, ha, hresult, hmain, hbefore⟩ := exists_found h hhas
  obtain ⟨-, pre, post, hlist, hpre⟩ := List.find?_eq_some_iff_append.mp ha
  refine ⟨a, hresult, hmain, hbefore, fun x hx hxbefore hx' => ?_, ?_⟩
  · have hx' : s.Finds x := h.finds_iff.mpr ⟨BlockTree.has_of_mem_chain hhas hxbefore, hx'⟩
    have hsorted := set_pairwise h hhas
    rw [hlist] at hx hsorted
    rcases List.mem_append.mp hx with hx | hx
    · exact absurd (decide_eq_true hx') (by simpa using hpre x hx)
    · rcases List.mem_cons.mp hx with rfl | hx
      · exact Nat.le_refl _
      · exact (List.pairwise_cons.mp (List.pairwise_append.mp hsorted).2.1).1 x hx
  · intro listed pre' b post' hall hlisted hpre' hb
    have hlisted' : locatorLoop (s.mapBlockIndex.chain pindex).length (s.mapBlockIndex.chain pindex) 1 0 = listed :=
      (List.append_inj' hall rfl).1
    have hfirst : (CBlockLocator.set P s.mapBlockIndex pindex).find? (s.Finds ·) = some b := by
      refine List.find?_eq_some_iff_append.mpr ⟨decide_eq_true hb, pre', post' ++ [P.hashGenesisBlock], ?_, fun x hx => ?_⟩
      · rw [hall, hlisted, List.append_assoc]
        rfl
      · simpa using hpre' x hx
    obtain ⟨k, hk, hdist⟩ := distanceLoop_locatorLoop [P.hashGenesisBlock] Pace.start (Nat.le_refl _)
      (hlisted'.trans hlisted) hpre' hb
    have hrank := rank_of_getElem? hk
    have hback : s.getDistanceBack (CBlockLocator.set P s.mapBlockIndex pindex) = 0 + k := hdist
    refine ⟨Option.some.inj (ha.symm.trans hfirst), ?_⟩
    rw [hback, Node.heightOf, Node.heightOf, hrank]
    omega

/-! ## A fork -/

namespace Sample

/-- A record of which nothing but its place matters. -/
def placedIndex : CBlockIndex := ⟨0, none, none, 0, 0, 0, 0, 0, 0, false, true, true, 0, COutPoint.null, 0, 0, 1, 0, 0, 0, 0⟩

/-- The genesis block and two blocks on it. -/
def forkTree : BlockTree :=
  ((BlockTree.empty.add hashGenesisBlockTestNet 0 placedIndex).add 6 hashGenesisBlockTestNet placedIndex).add 7
    hashGenesisBlockTestNet placedIndex

/-- The first of them is the best block. -/
def forkNode : Node :=
  { Node.empty [] with
    mapBlockIndex := setPrevNext forkTree 6 (some 6)
    pindexBest := some 6 }

theorem find_forkTree {h : Uint256} {b : CBlockIndex} (hb : forkTree.find h = some b) :
    b.pnext = none ∧ (b.pprev = none → h = hashGenesisBlockTestNet) := by
  unfold forkTree at hb
  rw [BlockTree.find_add (by decide)] at hb
  split at hb
  next =>
    obtain rfl := Option.some.inj hb
    exact ⟨rfl, nofun⟩
  next =>
    rw [BlockTree.find_add (by decide)] at hb
    split at hb
    next =>
      obtain rfl := Option.some.inj hb
      exact ⟨rfl, nofun⟩
    next =>
      rw [BlockTree.find_add (by decide)] at hb
      split at hb
      next hh => exact ⟨by rw [← Option.some.inj hb]; rfl, fun _ => hh⟩
      next => cases hb

theorem parent_forkTree : forkTree.forest.parent 6 = some hashGenesisBlockTestNet := by decide

theorem has_forkNode {h p : Uint256} (hparent : forkTree.forest.parent h = some p) : forkNode.mapBlockIndex.Has h :=
  (BlockTree.has_of_parent (by
    rw [show forkNode.mapBlockIndex = setPrevNext forkTree 6 (some 6) from rfl, BlockTree.forest_setPrevNext]
    exact hparent)).1

theorem mainTo_forkNode : MainTo (params true) forkNode 6 := by
  have hmarks : forkTree.MarksTo hashGenesisBlockTestNet := by
    intro h b hb q
    rw [(find_forkTree hb).1]
    refine iff_of_false nofun fun ⟨hq, hparent⟩ => ?_
    have hchain : forkTree.chain hashGenesisBlockTestNet = [hashGenesisBlockTestNet] := by decide
    rw [hchain, List.mem_singleton] at hq
    rw [hq] at hparent
    exact absurd hparent (by rw [show forkTree.forest.parent hashGenesisBlockTestNet = none by decide]; exact nofun)
  refine ⟨rfl, has_forkNode parent_forkTree, hmarks.push parent_forkTree, fun h b hb hprev => ?_⟩
  rw [show forkNode.mapBlockIndex = setPrevNext forkTree 6 (some 6) from rfl,
    BlockTree.setPrevNext_of_parent parent_forkTree, BlockTree.find_setPnext] at hb
  split at hb
  next =>
    obtain ⟨b', hb', rfl⟩ := Option.map_eq_some_iff.mp hb
    exact (find_forkTree hb').2 hprev
  next => exact (find_forkTree hb).2 hprev

end Sample

theorem exists_locates_sample :
    ∃ found, Locates (Sample.params true) Sample.forkNode 6 7
      (CBlockLocator.set (Sample.params true) Sample.forkNode.mapBlockIndex 7) found :=
  exists_locates Sample.mainTo_forkNode (@Sample.has_forkNode 7 hashGenesisBlockTestNet (by decide))

end Pinkcoin
