/-
Which entry of a full "tried" bucket has to go. `SelectTried` shuffles the
first places of the bucket, looks at what it draws and means to return the
place of the entry that was last successful the longest ago. It returns the
place this entry was drawn from; by then the entry is at the place of its
round.
-/
import Pinkcoin.Lib.Shuffle
import Pinkcoin.Net.AddrManCheck

namespace Pinkcoin

open Std (TreeMap TreeSet)
open StateError AddrManM Shuffle

/-! ## Steps that end as they must -/

namespace AddrManM

variable {s : AddrManState} {b : Nat} {n : Int}

theorem orStop_some {α : Type} (e : AddrManError) (a : α) (s : AddrManState) : orStop e (some a) s = .ok a s := rfl

theorem infoAt_eq {info : CAddrInfo} (h : s.man.mapInfo[n]? = some info) : infoAt n s = .ok info s := by
  refine bind_ok.mpr ⟨s.man, s, rfl, ?_⟩
  rw [h]
  rfl

theorem newAt_eq {S : TreeSet Int} (h : s.man.vvNew[b]? = some S) : newAt b s = .ok S s := by
  refine bind_ok.mpr ⟨s.man, s, rfl, ?_⟩
  rw [h]
  rfl

theorem triedAt_eq {l : List Int} (h : s.man.vvTried[b]? = some l) : triedAt b s = .ok l s := by
  refine bind_ok.mpr ⟨s.man, s, rfl, ?_⟩
  rw [h]
  rfl

theorem assertThat_eq {c : Prop} [Decidable c] (h : c) : assertThat c s = .ok () s := rejectIf_ok.mpr ⟨not_not_intro h, rfl⟩

end AddrManM

namespace CAddrMan

variable {m : CAddrMan} {s : AddrManState} {b : Nat} {l : List Int}

/-! ## What a call inspects -/

/-- When an entry was last successful. -/
def lastSuccess (m : CAddrMan) (n : Int) : Int := ((m.mapInfo[n]?).map (·.nLastSuccess)).getD 0

/-- How many entries are inspected. -/
def inspections (l : List Int) : Nat := min ADDRMAN_TRIED_ENTRIES_INSPECT_ON_EVICT l.length

/-- The place that round `i` draws. -/
def placeDrawn (rand : Nat → Nat) (l : List Int) (i : Nat) : Nat := rand i % (l.length - i) + i

/-- The entry that round `i` draws. -/
def entryDrawn (rand : Nat → Nat) (l : List Int) (i : Nat) : Int := (drawn (placeDrawn rand l) l i).getD (-1)

/-- The entries that `SelectTried` inspects in a bucket. -/
def inspected (rand : Nat → Nat) (l : List Int) : List Int := (List.range (inspections l)).map (entryDrawn rand l)

/-- When the entry of round `i` was last successful. -/
def successDrawn (m : CAddrMan) (rand : Nat → Nat) (l : List Int) (i : Nat) : Int := m.lastSuccess (entryDrawn rand l i)

/-- Of some entries, one that was last successful the longest ago. -/
def OldestOf (m : CAddrMan) (seen : List Int) (n : Int) : Prop := n ∈ seen ∧ ∀ k ∈ seen, m.lastSuccess n ≤ m.lastSuccess k

/-- There is such an entry at position `nPos`. -/
def PointsToOldest (m : CAddrMan) (seen vTried : List Int) (nPos : Int) : Prop :=
  ∃ (p : Nat) (n : Int), nPos = p ∧ vTried[p]? = some n ∧ m.OldestOf seen n

/-- The first round with the oldest entry drew from a place of the rounds, and
the round of that place drew an entry that is as old. -/
def DrawnInPlace (m : CAddrMan) (rand : Nat → Nat) (l : List Int) : Prop :=
  ∃ f, FirstLeast (successDrawn m rand l) (inspections l) f ∧ placeDrawn rand l f < inspections l ∧
    successDrawn m rand l (placeDrawn rand l f) = successDrawn m rand l f

/-- A "tried" bucket, as the tables have them. -/
structure TriedBucket (m : CAddrMan) (l : List Int) : Prop where
  nodup : l.Nodup
  known : ∀ n ∈ l, 0 ≤ n ∧ (m.mapInfo[n]?).isSome

theorem Sound.triedBucket {slack : Int → Slack} {off : Int} (h : m.Sound slack off) (hl : m.vvTried[b]? = some l) :
    m.TriedBucket l where
  nodup := by
    refine List.nodup_iff_count_le_one.mpr fun n => ?_
    have hle : l.count n ≤ m.triedCount n := Tally.le_tally (List.mem_of_getElem? hl)
    by_cases hn : n ∈ l
    · obtain ⟨info, hinfo, htried⟩ := h.knownTried hl hn
      have hfiled := h.filed n
      rw [hinfo, filed_tried htried] at hfiled
      have := hfiled.2.1
      omega
    · rw [List.count_eq_zero_of_not_mem hn]
      exact Nat.zero_le 1
  known n hn := by
    obtain ⟨info, hinfo, -⟩ := h.knownTried hl hn
    have hsome : (m.mapInfo[n]?).isSome := by
      rw [hinfo]
      rfl
    exact ⟨(h.indexed.fresh hsome).1, hsome⟩

theorem draws (rand : Nat → Nat) (l : List Int) : Ahead (placeDrawn rand l) l l.length := fun i hi => by
  have hlt : rand i % (l.length - i) < l.length - i := Nat.mod_lt _ (Nat.sub_pos_of_lt hi)
  simp only [placeDrawn]
  omega

theorem inspections_le (l : List Int) : inspections l ≤ l.length := Nat.min_le_right _ _

theorem drawn_eq (rand : Nat → Nat) {i : Nat} (hi : i < l.length) :
    drawn (placeDrawn rand l) l i = some (entryDrawn rand l i) := by
  rw [entryDrawn, (draws rand l).drawn_eq hi]
  rfl

theorem entryDrawn_mem (rand : Nat → Nat) {i : Nat} (hi : i < l.length) : entryDrawn rand l i ∈ l :=
  (perm_shuffle _ l i).mem_iff.mp (List.mem_of_getElem? (drawn_eq rand hi))

/-! ## The rounds of `SelectTried` -/

/-- After `k` random numbers. -/
def afterDraws (s : AddrManState) (k : Nat) : AddrManState := { s with rand := fun i => s.rand (i + k) }

theorem afterDraws_one (s : AddrManState) (k : Nat) : afterDraws (afterDraws s k) 1 = afterDraws s (k + 1) := by
  simp only [afterDraws, Nat.add_assoc, Nat.add_comm 1 k]

/-- One round: the entry drawn goes to the place of the round, and is kept
with the place it came from where it is older. -/
theorem selectTriedStep_eq (hl : s.man.TriedBucket l) {v : List Int} (hperm : v.Perm l) {i : Nat} (hi : i < l.length)
    {nOldest n : Int} (nOldestPos : Int) (hold : nOldest = -1 ∨ nOldest ∈ l)
    (hn : v[s.rand 0 % (l.length - i) + i]? = some n) :
    selectTriedStep i (v, nOldest, nOldestPos) s =
      .ok (exchange v i (s.rand 0 % (l.length - i) + i),
        if nOldest = -1 ∨ s.man.lastSuccess n < s.man.lastSuccess nOldest then
          (n, ((s.rand 0 % (l.length - i) + i : Nat) : Int))
        else (nOldest, nOldestPos)) (afterDraws s 1) := by
  have hlen := hperm.length_eq
  have hdraw : getRandInt (v.length - i) s = .ok (s.rand 0 % (l.length - i)) (afterDraws s 1) := by
    rw [getRandInt, hlen, if_neg (by omega)]
    rfl
  have hatI := List.getElem?_eq_getElem (show i < v.length by omega)
  obtain ⟨info, hinfo⟩ := Option.isSome_iff_exists.mp (hl.known n (hperm.mem_iff.mp (List.mem_of_getElem? hn))).2
  have hmem : n ∈ s.man.mapInfo := mem_of_info hinfo
  refine bind_ok.mpr ⟨s.man, s, rfl, bind_ok.mpr ⟨_, _, hdraw, ?_⟩⟩
  simp only [hn, hatI]
  refine bind_ok.mpr ⟨_, _, orStop_some _ _ _, bind_ok.mpr ⟨_, _, orStop_some _ _ _, ?_⟩⟩
  refine bind_ok.mpr ⟨(), _, assertThat_eq (.inr hmem), ?_⟩
  rw [exchange_eq hatI hn]
  by_cases hnone : nOldest = -1
  · rw [if_pos hnone, if_pos (.inl hnone)]
    rfl
  · obtain ⟨oldest, holdest⟩ := Option.isSome_iff_exists.mp (hl.known nOldest (hold.resolve_left hnone)).2
    have hlast : s.man.lastSuccess n = info.nLastSuccess := by
      rw [lastSuccess, hinfo]
      rfl
    have hlastOld : s.man.lastSuccess nOldest = oldest.nLastSuccess := by
      rw [lastSuccess, holdest]
      rfl
    rw [if_neg hnone, hlast, hlastOld]
    refine bind_ok.mpr ⟨info, _, infoAt_eq hinfo, bind_ok.mpr ⟨oldest, _, infoAt_eq holdest, ?_⟩⟩
    by_cases hless : info.nLastSuccess < oldest.nLastSuccess
    · rw [if_pos hless, if_pos (.inr hless)]
      rfl
    · rw [if_neg hless, if_neg (not_or.mpr ⟨hnone, hless⟩)]
      rfl

/-- After some rounds: the bucket is shuffled so far, and the entry kept is
the first of the oldest drawn, with the place it was drawn from. -/
theorem selectTried_rounds (hl : s.man.TriedBucket l) {j : Nat} (hj : j ≤ l.length) :
    ∃ nOldest nOldestPos : Int,
      (List.range j).foldlM (fun acc i => selectTriedStep i acc) (l, (-1 : Int), (-1 : Int)) s =
        .ok (shuffle (placeDrawn s.rand l) l j, nOldest, nOldestPos) (afterDraws s j) ∧
      (j = 0 ∧ nOldest = -1 ∧ nOldestPos = -1 ∨
        ∃ f, FirstLeast (successDrawn s.man s.rand l) j f ∧ nOldest = entryDrawn s.rand l f ∧
          nOldestPos = placeDrawn s.rand l f) := by
  induction j with
  | zero => exact ⟨-1, -1, rfl, .inl ⟨rfl, rfl, rfl⟩⟩
  | succ j ih =>
    have hlt : j < l.length := hj
    obtain ⟨nOldest, nOldestPos, hrun, hkept⟩ := ih (Nat.le_of_lt hlt)
    have hplace : (afterDraws s j).rand 0 % (l.length - j) + j = placeDrawn s.rand l j := by
      simp only [afterDraws, placeDrawn, Nat.zero_add]
    have hentry : (shuffle (placeDrawn s.rand l) l j)[(afterDraws s j).rand 0 % (l.length - j) + j]? =
        some (entryDrawn s.rand l j) := by
      rw [hplace]
      exact drawn_eq s.rand hlt
    have hold : nOldest = -1 ∨ nOldest ∈ l := by
      rcases hkept with ⟨-, hnone, -⟩ | ⟨f, hf, rfl, -⟩
      · exact .inl hnone
      · exact .inr (entryDrawn_mem s.rand (Nat.lt_trans hf.lt hlt))
    have hstep := selectTriedStep_eq (s := afterDraws s j) hl (perm_shuffle (placeDrawn s.rand l) l j) hlt
      nOldestPos hold hentry
    rw [hplace, afterDraws_one] at hstep
    change _ = EStateM.Result.ok (_, if nOldest = -1 ∨ s.man.lastSuccess (entryDrawn s.rand l j) < s.man.lastSuccess nOldest then
      (entryDrawn s.rand l j, (placeDrawn s.rand l j : Int)) else (nOldest, nOldestPos)) _ at hstep
    generalize hbest : (if nOldest = -1 ∨ s.man.lastSuccess (entryDrawn s.rand l j) < s.man.lastSuccess nOldest then
      (entryDrawn s.rand l j, (placeDrawn s.rand l j : Int)) else (nOldest, nOldestPos)) = best at hstep
    refine ⟨best.1, best.2, ?_, .inr ?_⟩
    · rw [List.range_succ, List.foldlM_append]
      refine bind_ok.mpr ⟨_, _, hrun, ?_⟩
      rw [List.foldlM_cons]
      exact bind_ok.mpr ⟨_, _, hstep, rfl⟩
    · rw [← hbest]
      rcases hkept with ⟨rfl, rfl, -⟩ | ⟨f, hf, rfl, rfl⟩
      · refine ⟨0, FirstLeast.one _, ?_⟩
        rw [if_pos (.inl rfl)]
        exact ⟨rfl, rfl⟩
      · have hsome : entryDrawn s.rand l f ≠ -1 := by
          have := (hl.known _ (entryDrawn_mem s.rand (Nat.lt_trans hf.lt hlt))).1
          omega
        by_cases hless : s.man.lastSuccess (entryDrawn s.rand l j) < s.man.lastSuccess (entryDrawn s.rand l f)
        · refine ⟨j, hf.next_of_lt hless, ?_⟩
          rw [if_pos (.inr hless)]
          exact ⟨rfl, rfl⟩
        · refine ⟨f, hf.next_of_le (Int.not_lt.mp hless), ?_⟩
          rw [if_neg (not_or.mpr ⟨hsome, hless⟩)]
          exact ⟨rfl, rfl⟩

/-- **What `SelectTried` does**: the bucket is shuffled, and the position is
the place that the first of the oldest entries was drawn from. -/
theorem selectTried_eq (hb : s.man.vvTried[b]? = some l) (hl : s.man.TriedBucket l) :
    ∃ nPos : Int,
      selectTried b s = .ok nPos (afterDraws
        { s with man := s.man.updateTried b (fun _ => shuffle (placeDrawn s.rand l) l (inspections l)) } (inspections l)) ∧
      (l = [] ∧ nPos = -1 ∨
        ∃ f, FirstLeast (successDrawn s.man s.rand l) (inspections l) f ∧ nPos = placeDrawn s.rand l f) := by
  obtain ⟨nOldest, nOldestPos, hrun, hkept⟩ := selectTried_rounds hl (inspections_le l)
  refine ⟨nOldestPos, ?_, ?_⟩
  · exact bind_ok.mpr ⟨l, s, triedAt_eq hb, bind_ok.mpr ⟨_, _, hrun, rfl⟩⟩
  · rcases hkept with ⟨hzero, -, hpos⟩ | ⟨f, hf, -, hpos⟩
    · refine .inl ⟨?_, hpos⟩
      refine List.eq_nil_of_length_eq_zero ?_
      simp only [inspections, ADDRMAN_TRIED_ENTRIES_INSPECT_ON_EVICT] at hzero
      omega
    · exact .inr ⟨f, hf, hpos⟩

/-! ## The position returned -/

/-- The place a round drew from holds, in the end, one of the oldest entries
seen where it is the place of a round that drew one. -/
theorem oldest_at_iff (hl : m.TriedBucket l) (rand : Nat → Nat) {f : Nat}
    (hf : FirstLeast (successDrawn m rand l) (inspections l) f) :
    (∃ n, (shuffle (placeDrawn rand l) l (inspections l))[placeDrawn rand l f]? = some n ∧ m.OldestOf (inspected rand l) n) ↔
      m.DrawnInPlace rand l := by
  have hdraws := (draws rand l).mono (inspections_le l)
  have hlt : ∀ {i : Nat}, i < inspections l → i < l.length := fun hi => Nat.lt_of_lt_of_le hi (inspections_le l)
  have hseen : ∀ {i : Nat}, i < inspections l → entryDrawn rand l i ∈ inspected rand l :=
    fun hi => List.mem_map.mpr ⟨_, List.mem_range.mpr hi, rfl⟩
  constructor
  · rintro ⟨n, hn, hmem, hleast⟩
    obtain ⟨i, hi, rfl⟩ := List.mem_map.mp hmem
    have hplace : placeDrawn rand l f < inspections l := by
      by_contra hpast
      exact hdraws.not_drawn hl.nodup (List.mem_range.mp hi) (Nat.not_lt.mp hpast)
        (drawn_eq rand (hlt (List.mem_range.mp hi))) hn
    rw [getElem?_shuffle hdraws hplace, drawn_eq rand (hlt hplace), Option.some.injEq] at hn
    refine ⟨f, hf, hplace, le_antisymm ?_ (hf.least _ hplace)⟩
    have hle := hleast _ (hseen hf.lt)
    rwa [← hn] at hle
  · rintro ⟨g, hg, hplace, hsame⟩
    obtain rfl := hg.unique hf
    refine ⟨entryDrawn rand l (placeDrawn rand l g), ?_, hseen hplace, fun k hk => ?_⟩
    · rw [getElem?_shuffle hdraws hplace, drawn_eq rand (hlt hplace)]
    · obtain ⟨i, hi, rfl⟩ := List.mem_map.mp hk
      exact le_of_eq_of_le hsame (hf.least i (List.mem_range.mp hi))

theorem pointsToOldest_natCast {seen v : List Int} {p : Nat} :
    m.PointsToOldest seen v (p : Int) ↔ ∃ n, v[p]? = some n ∧ m.OldestOf seen n := by
  constructor
  · rintro ⟨q, n, hq, hn, hold⟩
    obtain rfl := Int.ofNat.inj hq
    exact ⟨n, hn, hold⟩
  · rintro ⟨n, hn, hold⟩
    exact ⟨p, n, rfl, hn, hold⟩

theorem selectTried_points (hb : s.man.vvTried[b]? = some l) (hl : s.man.TriedBucket l) :
    ∃ (nPos : Int) (l' : List Int) (s' : AddrManState),
      selectTried b s = .ok nPos s' ∧ s'.man = s.man.updateTried b (fun _ => l') ∧ l'.Perm l ∧
        (s.man.PointsToOldest (inspected s.rand l) l' nPos ↔ s.man.DrawnInPlace s.rand l) := by
  obtain ⟨nPos, hrun, hpos⟩ := selectTried_eq hb hl
  refine ⟨nPos, _, _, hrun, rfl, perm_shuffle _ l _, ?_⟩
  rcases hpos with ⟨rfl, rfl⟩ | ⟨f, hf, rfl⟩
  · -- an empty bucket has no entry to point to, and no round
    refine iff_of_false ?_ ?_
    · rintro ⟨p, n, hp, -⟩
      omega
    · rintro ⟨f, hf, -⟩
      exact Nat.not_lt_zero f hf.lt
  · exact pointsToOldest_natCast.trans (oldest_at_iff hl s.rand hf)

/-! ## The entry evicted -/

theorem lastSuccess_detach (m : CAddrMan) (n k : Int) : (m.detach n).lastSuccess k = m.lastSuccess k := by
  change ((((m.updateInfo n _).mapInfo)[k]?).map _).getD 0 = _
  rw [mapInfo_updateInfo]
  split
  · cases hk : m.mapInfo[k]? with
    | none => simp [lastSuccess, hk]
    | some info => simp [lastSuccess, hk]
  · rfl

/-- The new entry takes the place of another. -/
theorem perm_set_erase {l l' : List Int} (hperm : l'.Perm l) {p : Nat} {nOld : Int} (hp : l'[p]? = some nOld) (n : Int) :
    (l'.set p n).Perm (n :: l.erase nOld) := by
  obtain ⟨hlt, rfl⟩ := List.getElem?_eq_some_iff.mp hp
  refine (List.set_perm_cons_eraseIdx hlt n).trans (List.Perm.cons n ?_)
  have hrest := (List.getElem_cons_eraseIdx_perm hlt).trans hperm
  have herased := hrest.erase l'[p]
  rwa [List.erase_cons_head] at herased

variable {n : Int} {hash : List UInt8 → Uint256}

theorem drawnInPlace_detach (rand : Nat → Nat) : (m.detach n).DrawnInPlace rand l ↔ m.DrawnInPlace rand l := by
  have hsame : successDrawn (m.detach n) rand l = successDrawn m rand l := funext fun i => lastSuccess_detach m n _
  rw [DrawnInPlace, hsame, DrawnInPlace]

theorem oldestOf_detach {seen : List Int} {k : Int} : (m.detach n).OldestOf seen k ↔ m.OldestOf seen k := by
  simp only [OldestOf, lastSuccess_detach]

/-- The end of `MakeTried`, once the entry to evict is known. -/
theorem evict_eq (n nOld : Int) (p : Nat) (hb : s.man.vvTried[b]? = some l) (vNew : TreeSet Int) (nUBucket nOrigin : Nat) :
    ∃ s', (do
      change (·.updateInfo nOld fun info => { info with fInTried := false, nRefCount := 1 })
      if vNew.size < ADDRMAN_NEW_BUCKET_SIZE then change (·.updateNew nUBucket (·.insert nOld))
      else change (·.updateNew nOrigin (·.insert nOld))
      change fun m =>
        { (m.updateTried b (·.set p n)).updateInfo n fun info => { info with fInTried := true } with nNew := m.nNew + 1 })
        s = .ok () s' ∧ s'.man.vvTried[b]? = some (l.set p n) := by
  have hset : (s.man.vvTried.modify b (·.set p n))[b]? = some (l.set p n) := by
    rw [List.getElem?_modify_eq, hb]
    rfl
  by_cases hroom : vNew.size < ADDRMAN_NEW_BUCKET_SIZE
  · simp only [if_pos hroom]
    exact ⟨_, rfl, hset⟩
  · simp only [if_neg hroom]
    exact ⟨_, rfl, hset⟩

/-- **The entry that `MakeTried` evicts** from a full bucket. -/
theorem Settled.makeTried_evicts (h : s.man.Settled) {nOrigin : Nat} {origin : TreeSet Int}
    (horigin : s.man.vvNew[nOrigin]? = some origin) (hn : n ∈ origin) {info : CAddrInfo} (hinfo : s.man.mapInfo[n]? = some info)
    (hbucket : info.getTriedBucket hash s.man.nKey = b) (hb : s.man.vvTried[b]? = some l)
    (hfull : ADDRMAN_TRIED_BUCKET_SIZE ≤ l.length) :
    ∃ (s' : AddrManState) (nOld : Int) (l' : List Int), makeTried hash n nOrigin s = .ok () s' ∧ nOld ∈ l ∧
      s'.man.vvTried[b]? = some l' ∧ l'.Perm (n :: l.erase nOld) ∧
        (s.man.OldestOf (inspected s.rand l) nOld ↔ s.man.DrawnInPlace s.rand l) := by
  obtain ⟨info', hinfo', htried, -, -⟩ := h.known horigin hn le_rfl
  obtain rfl := Option.some.inj (hinfo.symm.trans hinfo')
  obtain ⟨hdetached, hself⟩ := h.detach hinfo htried
  have hl := hdetached.triedBucket hb
  -- the draws are made with the entry out of its "new" buckets
  let s₁ : AddrManState := { s with man := s.man.detach n }
  have hb₁ : s₁.man.vvTried[b]? = some l := hb
  obtain ⟨nPos, hselect, hpos⟩ := selectTried_eq (s := s₁) hb₁ hl
  have hne : l ≠ [] := by
    rintro rfl
    exact absurd hfull (by decide)
  rcases hpos with ⟨hnil, -⟩ | ⟨f, hf, rfl⟩
  · exact absurd hnil hne
  have hflt : f < l.length := Nat.lt_of_lt_of_le hf.lt (inspections_le l)
  have hperm := perm_shuffle (placeDrawn s.rand l) l (inspections l)
  have hplace : placeDrawn s.rand l f < (shuffle (placeDrawn s.rand l) l (inspections l)).length := by
    rw [length_shuffle]
    exact (draws s.rand l f hflt).2
  obtain ⟨nOld, hnOld⟩ : ∃ nOld, (shuffle (placeDrawn s.rand l) l (inspections l))[placeDrawn s.rand l f]? = some nOld :=
    ⟨_, List.getElem?_eq_getElem hplace⟩
  have hold := oldest_at_iff hl s.rand hf
  generalize shuffle (placeDrawn s.rand l) l (inspections l) = l' at *
  generalize placeDrawn s.rand l f = p at *
  let s₂ := afterDraws { s₁ with man := s₁.man.updateTried b fun _ => l' } (inspections l)
  have hpermuted := hdetached.permuteTried hb₁ hperm
  have hb₂ : s₂.man.vvTried[b]? = some l' := by
    change (s.man.vvTried.modify b _)[b]? = _
    rw [List.getElem?_modify_eq, hb]
    rfl
  obtain ⟨infoOld, hinfoOld, -⟩ := hpermuted.knownTried hb₂ (List.mem_of_getElem? hnOld)
  have hinfoOld₂ : s₂.man.mapInfo[nOld]? = some infoOld := hinfoOld
  have hlt := CAddrInfo.getNewBucket_lt hash s₂.man.nKey infoOld infoOld.source
  rw [← hpermuted.sizes.newBuckets] at hlt
  have hvNew := List.getElem?_eq_getElem hlt
  obtain ⟨s', hend, hafter⟩ := evict_eq n nOld p hb₂
    s₂.man.vvNew[infoOld.getNewBucket hash s₂.man.nKey infoOld.source]
    (infoOld.getNewBucket hash s₂.man.nKey infoOld.source) nOrigin
  have hat : (if 0 ≤ (p : Int) then l'[(p : Int).toNat]? else none) = some nOld := by
    rw [if_pos (Int.natCast_nonneg p), Int.toNat_natCast, hnOld]
  refine ⟨s', nOld, l'.set p n, ?_, hperm.mem_iff.mp (List.mem_of_getElem? hnOld), hafter, perm_set_erase hperm hnOld n, ?_⟩
  · refine bind_ok.mpr ⟨origin, s, newAt_eq horigin, bind_ok.mpr ⟨(), s, assertThat_eq hn, ?_⟩⟩
    refine bind_ok.mpr ⟨(), s₁, rfl, bind_ok.mpr ⟨{ info with nRefCount := 0 }, s₁, infoAt_eq hself, ?_⟩⟩
    refine bind_ok.mpr ⟨(), s₁, assertThat_eq rfl, bind_ok.mpr ⟨s₁.man, s₁, rfl, ?_⟩⟩
    have hsame : CAddrInfo.getTriedBucket hash s₁.man.nKey { info with nRefCount := 0 } = b := hbucket
    rw [hsame]
    refine bind_ok.mpr ⟨l, s₁, triedAt_eq hb₁, ?_⟩
    rw [if_neg (Nat.not_lt.mpr hfull)]
    refine bind_ok.mpr ⟨(p : Int), s₂, hselect, bind_ok.mpr ⟨l', s₂, triedAt_eq hb₂, ?_⟩⟩
    rw [hat]
    refine bind_ok.mpr ⟨nOld, s₂, rfl, bind_ok.mpr ⟨s₂.man, s₂, rfl, ?_⟩⟩
    refine bind_ok.mpr ⟨(), s₂, assertThat_eq (mem_of_info hinfoOld₂), bind_ok.mpr ⟨infoOld, s₂, infoAt_eq hinfoOld₂, ?_⟩⟩
    exact bind_ok.mpr ⟨_, s₂, newAt_eq hvNew, hend⟩
  · rw [← drawnInPlace_detach (n := n), ← hold, ← oldestOf_detach (n := n)]
    constructor
    · exact fun hoff => ⟨nOld, hnOld, hoff⟩
    · rintro ⟨k, hk, hoff⟩
      obtain rfl := Option.some.inj (hk.symm.trans hnOld)
      exact hoff

/-- **The position `SelectTried` returns, and the entry evicted.** On every
bucket and for all draws the bucket is permuted; the position is that of an
inspected entry last successful the longest ago, and `MakeTried` evicts such
an entry, exactly where the draws were in place. -/
theorem selectTried_oldest_iff (hash : List UInt8 → Uint256) (s : AddrManState) (b : Nat) (l : List Int)
    (hb : s.man.vvTried[b]? = some l) (hl : s.man.TriedBucket l) :
    (∃ (nPos : Int) (l' : List Int) (s' : AddrManState),
      selectTried b s = .ok nPos s' ∧ s'.man = s.man.updateTried b (fun _ => l') ∧ l'.Perm l ∧
        (s.man.PointsToOldest (inspected s.rand l) l' nPos ↔ s.man.DrawnInPlace s.rand l)) ∧
      ∀ (n : Int) (nOrigin : Nat) (origin : TreeSet Int) (info : CAddrInfo), s.man.Consistent →
        s.man.vvNew[nOrigin]? = some origin → n ∈ origin → s.man.mapInfo[n]? = some info →
        info.getTriedBucket hash s.man.nKey = b → ADDRMAN_TRIED_BUCKET_SIZE ≤ l.length →
        ∃ (s' : AddrManState) (nOld : Int) (l' : List Int), makeTried hash n nOrigin s = .ok () s' ∧ nOld ∈ l ∧
          s'.man.vvTried[b]? = some l' ∧ l'.Perm (n :: l.erase nOld) ∧
            (s.man.OldestOf (inspected s.rand l) nOld ↔ s.man.DrawnInPlace s.rand l) :=
  ⟨selectTried_points hb hl, fun _ _ _ _ h horigin hn hinfo hbucket hfull =>
    (settled_iff.mpr h).makeTried_evicts horigin hn hinfo hbucket hb hfull⟩

/-- A full bucket, whose last entry was last successful the longest ago. -/
def fullBucket : List Int := (List.range 64).map fun i => (i : Int)

/-- Tables with this bucket. -/
def fullTables : CAddrMan :=
  let addr : CAddress := ⟨⟨⟨Vector.replicate 16 0⟩, 9134⟩, 1, 0⟩
  let info := { CAddrInfo.new addr ⟨Vector.replicate 16 0⟩ with fInTried := true, nLastSuccess := 1500000000 }
  { init [] with
    mapInfo := (fullBucket.foldl (fun m i => m.insert i info) (∅ : TreeMap Int CAddrInfo)).insert 63 { info with nLastSuccess := 1400000000 }
    vvTried := [fullBucket]
    nTried := 64 }

theorem fullTables_tried : fullTables.TriedBucket fullBucket where
  nodup := by decide +kernel
  known := by decide +kernel

/-- Draws in place: the first of the entries that are equally old. -/
theorem selectTried_oldest_iff_full : ∃ (nPos : Int) (l' : List Int) (s' : AddrManState),
    selectTried 0 ⟨fullTables, fun _ => 0, fun _ => 0⟩ = .ok nPos s' ∧
      s'.man = fullTables.updateTried 0 (fun _ => l') ∧ l'.Perm fullBucket ∧
        fullTables.PointsToOldest (inspected (fun _ => 0) fullBucket) l' nPos := by
  obtain ⟨nPos, l', s', hrun, hman, hperm, hiff⟩ := (selectTried_oldest_iff (fun _ => 0)
    ⟨fullTables, fun _ => 0, fun _ => 0⟩ 0 fullBucket rfl fullTables_tried).1
  exact ⟨nPos, l', s', hrun, hman, hperm, hiff.mpr ⟨0, ⟨by decide +kernel, by decide +kernel, nofun⟩,
    by decide +kernel, by decide +kernel⟩⟩

/-- The first draw is the last place, and the others stay where they are: the
oldest entry comes to the first place, and its place is given to another. -/
theorem not_selectTried_oldest : ¬ ∀ (s : AddrManState) (b : Nat) (l : List Int), s.man.vvTried[b]? = some l →
    s.man.TriedBucket l → ∃ (nPos : Int) (l' : List Int) (s' : AddrManState), selectTried b s = .ok nPos s' ∧
      s'.man = s.man.updateTried b (fun _ => l') ∧ s.man.PointsToOldest (inspected s.rand l) l' nPos := by
  intro h
  let s : AddrManState := ⟨fullTables, fun i => if i = 0 then 63 else 0, fun _ => 0⟩
  obtain ⟨nPos, l', s', hrun, hman, hpoints⟩ := h s 0 fullBucket rfl fullTables_tried
  obtain ⟨nPos', l'', s'', hrun', hman', -, hiff⟩ := selectTried_points (s := s) (b := 0) (l := fullBucket) rfl fullTables_tried
  obtain ⟨rfl, rfl⟩ := EStateM.Result.ok.inj (hrun.symm.trans hrun')
  have hsame : l' = l'' := by
    have hbuckets := congrArg CAddrMan.vvTried (hman.symm.trans hman')
    exact (List.cons.inj hbuckets).1
  subst hsame
  obtain ⟨f, hf, hplace, -⟩ := hiff.mp hpoints
  have hfirst : FirstLeast (successDrawn s.man s.rand fullBucket) (inspections fullBucket) 0 :=
    ⟨by decide +kernel, by decide +kernel, nofun⟩
  obtain rfl := hf.unique hfirst
  revert hplace
  decide +kernel

end CAddrMan

end Pinkcoin
