/-
The tip in memory and the tip in the database: whether they agree after a
call of `SetBestChain`, and whether the supply the tip's record holds is what
is unspent in the transaction index.
-/
import Pinkcoin.ChainRuns

namespace Pinkcoin

open StateError
open Node (Stored Connected Follows Tip AtTip HashesApart)

/-! ## Runs on the sample network -/

namespace Sample

/-- A call of a run: record a block, or make one the best block. -/
inductive Call
  | record (block : CBlock)
  | best (block : CBlock)

def Call.block : Call → CBlock
  | .record block => block
  | .best block => block

def Call.run (P : Params) (s : Node) : Call → Node
  | .record block => after s (block.store P env (block.getHash P))
  | .best block => after s (setBestChain P env block (block.getHash P))

/-- The call can be one of a run, with the condition `c` on `SetBestChain`. -/
def Call.fits (P : Params) (c : CBlock → Node → Bool) (s : Node) : Call → Bool
  | .record block =>
    match block.acceptBlockChecks P env s with
    | .ok hashProof => hashProof == block.getHash P
    | .error _ => false
  | .best block => s.blockAt (block.getHash P) == some block && !decide (s.isInMainChain (block.getHash P)) && c block s

def play (P : Params) (calls : List Call) (s : Node) : Node := calls.foldl (Call.run P) s

def playable (P : Params) (c : CBlock → Node → Bool) : List Call → Node → Bool
  | [], _ => true
  | call :: calls, s => call.fits P c s && playable P c calls (call.run P s)

/-- What recording blocks and making them the best block keeps, a run of such
calls keeps. -/
theorem play_keeps {P : Params} {T : CTransaction → Prop} {R : Node → Prop} {c : CBlock → Node → Bool}
    (hrecord : ∀ (s : Node) (block : CBlock) hashProof, R s → block.acceptBlockChecks P env s = .ok hashProof → (∀ tx ∈ block.vtx, T tx) →
      R (after s (block.store P env hashProof)))
    (hbest : ∀ (s : Node) (block : CBlock), R s → s.blockAt (block.getHash P) = some block → ¬ s.isInMainChain (block.getHash P) → c block s →
      R (after s (setBestChain P env block (block.getHash P))))
    {calls : List Call} (hT : ∀ call ∈ calls, ∀ tx ∈ call.block.vtx, T tx) {s : Node} (hs : R s)
    (hplay : playable P c calls s) : R (play P calls s) := by
  induction calls generalizing s with
  | nil => exact hs
  | cons call calls ih =>
    rw [playable, Bool.and_eq_true] at hplay
    obtain ⟨hfits, hplay⟩ := hplay
    refine ih (fun b hb => hT b (List.mem_cons_of_mem _ hb)) ?_ hplay
    cases call with
    | record block =>
      simp only [Call.fits] at hfits
      split at hfits
      next hashProof hchecks =>
        rw [beq_iff_eq] at hfits
        exact hrecord s block _ hs (hfits ▸ hchecks) (hT _ List.mem_cons_self)
      next => simp at hfits
    | best block =>
      simp only [Call.fits, Bool.and_eq_true, beq_iff_eq, Bool.not_eq_true', decide_eq_false_iff_not] at hfits
      exact hbest s block hs hfits.1.1 hfits.1.2 hfits.2

theorem reach_play {P : Params} {T : CTransaction → Prop} {C : Env → CBlock → Uint256 → Node → Prop}
    {c : CBlock → Node → Bool} (hC : ∀ block s, c block s → C env block (block.getHash P) s) {calls : List Call}
    (hT : ∀ call ∈ calls, ∀ tx ∈ call.block.vtx, T tx) {s : Node} (hs : Reach P T C s) (hplay : playable P c calls s) :
    Reach P T C (play P calls s) :=
  play_keeps (R := Reach P T C) (fun _ block _ hr hchecks hT => .step hr (.record env block _ hchecks hT))
    (fun s block hr hblock hmain hc => .step hr (.setBestChain env block _ hblock hmain (hC block s hc))) hT hs hplay

/-- A block of a side chain. Its coinbase pays `nValue`. -/
def sideBlock (n : Nat) (nValue : Int) : CBlock :=
  mine true (200 + n) (if n = 1 then hashGenesisBlockTestNet else 199 + n) (start + 120 * n + 1)
    [coinbase n (start + 120 * n + 1) nValue [1]]

/-- Two blocks of the main chain, two of a side chain, a checkpoint that makes
the lower of these the best block, and a third block of the side chain. -/
def switched (nValue : Int) : List Call :=
  [.record (chainBlock 1), .best (chainBlock 1), .record (chainBlock 2), .best (chainBlock 2),
    .record (sideBlock 1 COIN), .record (sideBlock 2 0), .best (sideBlock 1 COIN), .record (sideBlock 3 nValue)]

/-- The transactions of the blocks of a run. -/
def transactions (calls : List Call) : List CTransaction := calls.flatMap fun call => call.block.vtx

/-- A new node of the test network. -/
theorem reach_fresh {T : CTransaction → Prop} {C : Env → CBlock → Uint256 → Node → Prop} :
    Reach (params true) T C (fresh true) :=
  .start (ok_of_isOk (r := loadBlockIndex (params true) env (Node.empty [])) (by decide +kernel))

end Sample

/-! ## The tip after SetBestChain -/

/-- The tip in memory agrees with the database: the stored best hash is
`hashBestChain`, `pindexBest` and `nBestHeight` are of that block, the
transaction index is the one that connecting the blocks from genesis to it
makes, and `IsInMainChain` holds of it and its ancestors only. -/
structure TipAgrees (P : Params) (s : Node) : Prop where
  stored : s.txdb.readHashBestChain = some s.hashBestChain
  best : s.pindexBest = some s.hashBestChain
  height : ∃ b, s.mapBlockIndex.find s.hashBestChain = some b ∧ s.nBestHeight = b.nHeight
  index : s.txdb.book = s.ledger P s.hashBestChain
  mainChain : ∀ h, s.mapBlockIndex.Has h → (s.isInMainChain h ↔ h ∈ s.mapBlockIndex.chain s.hashBestChain)

variable {P : Params} {T : CTransaction → Prop} {s : Node} {t : Uint256}

theorem Node.Tip.agrees (ht : Tip P T s t) : TipAgrees P s := by
  have hhash := ht.hashBestChain
  refine ⟨?_, ?_, ?_, ?_, fun h hh => ?_⟩
  · rw [hhash, ht.follows.best]
  · rw [hhash, ht.pindexBest]
  · rw [hhash]
    exact ht.nBestHeight
  · rw [hhash, ht.follows.connected.index]
  · rw [hhash]
    exact ht.follows.marks.isInMainChain ht.pindexBest hh

/-- **In memory and in the database.** In every run in which no call of
`SetBestChain` stopped half-way, the tip agrees; and after one more call that
returns true it agrees exactly when that call does not stop half-way either. -/
theorem Reach.tipAgrees_iff (hT : HashesApart P T)
    (hr : Reach P T (fun env block h s => branchAttaches P env block h s) s) :
    TipAgrees P s ∧ ∀ env block h s', s.blockAt h = some block → ¬ s.isInMainChain h →
      setBestChain P env block h s = .ok () s' → (TipAgrees P s' ↔ branchAttaches P env block h s) := by
  obtain ⟨t, ht⟩ := hr.tip hT
  refine ⟨ht.agrees, fun env block h s' hblock hmain hrun => ?_⟩
  obtain ⟨k, hf, hat, hiff⟩ := ht.setBestChain_ok hT hblock hmain hrun
  rw [hiff]
  constructor
  · intro ha
    have hstored := ha.stored
    rw [hat.hashBestChain, hf.best, Option.some.injEq] at hstored
    exact hstored
  · rintro rfl
    exact Tip.agrees ⟨hat, hf⟩

/-- The third block of the side chain arrives, and the side chain is
connected to its end: the tip agrees before and after. -/
theorem Reach.tipAgrees_iff_sample :
    let P := Sample.params true
    let calls := Sample.switched 0
    let s := Sample.play P calls (Sample.fresh true)
    Reach P (· ∈ Sample.transactions calls) (fun env block h s => branchAttaches P env block h s) s ∧
      TipAgrees P s ∧ ∃ s', setBestChain P Sample.env (Sample.sideBlock 3 0) 203 s = .ok () s' ∧ TipAgrees P s' := by
  intro P calls s
  have hr : Reach P (· ∈ Sample.transactions calls) (fun env block h s => branchAttaches P env block h s) s :=
    Sample.reach_play (c := fun block s => branchAttaches P Sample.env block (block.getHash P) s) (fun _ _ h => h)
      (fun call hcall tx htx => List.mem_flatMap.mpr ⟨call, hcall, htx⟩) Sample.reach_fresh (by decide +kernel)
  have hT : HashesApart P (· ∈ Sample.transactions calls) := fun a b ha hb =>
    (by decide +kernel : ∀ a ∈ Sample.transactions calls, ∀ b ∈ Sample.transactions calls,
      a.getHash P = b.getHash P → a = b) a ha b hb
  obtain ⟨hs, hcall⟩ := Reach.tipAgrees_iff hT hr
  have hrun := ok_of_isOk (r := setBestChain P Sample.env (Sample.sideBlock 3 0) 203 s) (by decide +kernel)
  exact ⟨hr, hs, _, hrun, (hcall Sample.env (Sample.sideBlock 3 0) 203 _ (by decide +kernel) (by decide +kernel) hrun).mpr
    (by decide +kernel)⟩

/-- The third block of the side chain pays itself a coin too much: `SetBestChain`
returns true with that block as the tip, and the database at the second. -/
theorem setBestChain_half_way :
    let P := Sample.params true
    let calls := Sample.switched 1
    ∃ s s', Reach P (· ∈ Sample.transactions calls) (fun _ _ _ _ => True) s ∧
      HashesApart P (· ∈ Sample.transactions calls) ∧ s.blockAt 203 = some (Sample.sideBlock 3 1) ∧
      ¬ s.isInMainChain 203 ∧ setBestChain P Sample.env (Sample.sideBlock 3 1) 203 s = .ok () s' ∧ ¬ TipAgrees P s' := by
  intro P calls
  have hrun := ok_of_isOk
    (r := setBestChain P Sample.env (Sample.sideBlock 3 1) 203 (Sample.play P calls (Sample.fresh true)))
    (by decide +kernel)
  refine ⟨_, _, ?_, fun a b ha hb => ?_, by decide +kernel, by decide +kernel, hrun, fun ha => ?_⟩
  · exact Sample.reach_play (c := fun _ _ => true) (fun _ _ _ => trivial)
      (fun call hcall tx htx => List.mem_flatMap.mpr ⟨call, hcall, htx⟩) Sample.reach_fresh (by decide +kernel)
  · exact (by decide +kernel : ∀ a ∈ Sample.transactions calls, ∀ b ∈ Sample.transactions calls,
      a.getHash P = b.getHash P → a = b) a ha b hb
  · exact absurd ha.stored (by decide +kernel)

end Pinkcoin
