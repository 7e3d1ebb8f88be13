/-
The scan of the main chain for transactions of the wallet, and the loop around
it: `ReacceptWalletTransactions` marks what the transaction index has as
spent, and scans as long as a scan finds more. What is in no block goes back to
the memory pool there, which changes nothing of the wallet and is left out.
-/
import Pinkcoin.Keys.Birthday
import Pinkcoin.Lib.Rounds
import Pinkcoin.SpentCoins
import Mathlib.Data.Finset.Card

namespace Pinkcoin

open Rounds (Turn)
open Runs (Meets play)

/-! ## A wallet and its keys -/

/-- The keys of a wallet: the key store that `IsMine` asks, and
`FindStealthTransactions`, with the keys it adds and the notes it finds. -/
structure KeyFinder (K : Type) where
  store : K → CKeyStore
  find : K → CTransaction → K × List (String × String)

/-- A wallet whose keys are `K`. -/
structure ScanWallet (K : Type) where
  mapWallet : Map Uint256 CWalletTx
  nOrderPosNext : Int
  keys : K

/-- What a scan meets: the blocks of the main chain from the genesis block on,
the transaction index, the birthday of the wallet, and in each scan the clock
and the wallet file. -/
structure ScanEnv (K : Type) extends KeyFinder K where
  P : Params
  chain : List CBlock
  readTxIndex : Uint256 → Option CTxIndex
  nTimeFirstKey : Int
  nNow : Nat → CTransaction → Int
  fWritten : Nat → CTransaction → Bool

/-- What `AddToWallet` returns. -/
def CWallet.addsToWallet (P : Params) (w : CWallet) (fWritten : Bool) (wtxIn : CWalletTx) : Bool :=
  match w.mapWallet.lookup (wtxIn.tx.getHash P) with
  | none => fWritten
  | some wtx => decide (CWallet.mergeTx wtxIn wtx = wtx) || fWritten

/-- The wallet with what was changed of it. -/
def ScanWallet.put {K : Type} (w : ScanWallet K) (v : CWallet) : ScanWallet K := ⟨v.mapWallet, v.nOrderPosNext, w.keys⟩

namespace ScanEnv

variable {K : Type} (e : ScanEnv K)

/-- The wallet with its key store. -/
def view (w : ScanWallet K) : CWallet := ⟨w.mapWallet, e.store w.keys, w.nOrderPosNext⟩

/-! ## ScanForWalletTransactions -/

/-- The wallet transaction that is made of a transaction in a block. -/
def walletTx (block : CBlock) (mapNarr : List (String × String)) (tx : CTransaction) : CWalletTx :=
  { CWalletTx.ofTx tx with mapValue := mapNarr }.setMerkleBranch e.P block

/-- `AddToWalletIfInvolvingMe`, in scan `n`: the wallet, and what is returned. -/
def addToWalletIfInvolvingMe (n : Nat) (fUpdate : Bool) (block : CBlock) (w : ScanWallet K) (tx : CTransaction) :
    ScanWallet K × Bool :=
  let fExisted := (w.mapWallet.lookup (tx.getHash e.P)).isSome
  if fExisted ∧ ¬ fUpdate then (w, false)
  else
    let (keys, mapNarr) := e.find w.keys tx
    let w := { w with keys := keys }
    if fExisted ∨ (e.view w).isMineTx e.P tx ∨ (e.view w).isFromMe e.P tx then
      let wtx := e.walletTx block mapNarr tx
      (w.put ((e.view w).addToWallet e.P (e.nNow n tx) (e.fWritten n tx) wtx),
        (e.view w).addsToWallet e.P (e.fWritten n tx) wtx)
    else (w.put ((e.view w).walletUpdateSpent e.P tx false), false)

/-- The inner loop: the transactions of a block. -/
def scanTx (n : Nat) (fUpdate : Bool) (block : CBlock) (s : ScanWallet K × Nat) (tx : CTransaction) :
    ScanWallet K × Nat :=
  let r := e.addToWalletIfInvolvingMe n fUpdate block s.1 tx
  (r.1, if r.2 then s.2 + 1 else s.2)

/-- The blocks a scan from the genesis block reads. -/
def scannedBlocks : List CBlock :=
  KeyWallet.scanForWalletTransactions e.nTimeFirstKey (fun block => UInt32.ofNat block.nTime) e.chain

/-- `ScanForWalletTransactions(pindexGenesisBlock, fUpdate)`. -/
def scanForWalletTransactions (n : Nat) (fUpdate : Bool) (w : ScanWallet K) : ScanWallet K × Nat :=
  e.scannedBlocks.foldl (fun s block => block.vtx.foldl (e.scanTx n fUpdate block) s) (w, 0)

/-! ## ReacceptWalletTransactions -/

/-- `IsMine(const CTxOut&)`. -/
def isMine (keys : K) (txout : CTxOut) : Bool := e.P.isMineScript (e.store keys) txout.scriptPubKey

/-- The shortcut: a generated transaction whose coin is spent. -/
def isPassed (wtx : CWalletTx) : Prop :=
  (wtx.tx.isCoinBase ∧ wtx.isSpent 0) ∨ (wtx.tx.isCoinStake ∧ wtx.isSpent 1)

instance (wtx : CWalletTx) : Decidable (isPassed wtx) := inferInstanceAs (Decidable (_ ∨ _))

/-- The body of the loop over the outputs. -/
def markSlot (keys : K) (vSpent : List (Option CDiskTxPos)) (s : CWalletTx × List CDiskTxPos) (i : Nat) :
    CWalletTx × List CDiskTxPos :=
  if s.1.isSpent i then s
  else
    match (vSpent[i]?).join, s.1.tx.vout[i]? with
    | some pos, some txout => if e.isMine keys txout then (s.1.markSpent i, s.2 ++ [pos]) else s
    | _, _ => s

/-- The body of the loop over the wallet: the transaction afterwards, and what
it adds to `vMissingTx`. -/
def reacceptTx (keys : K) (wtx : CWalletTx) : CWalletTx × List CDiskTxPos :=
  if isPassed wtx then (wtx, [])
  else
    match e.readTxIndex (wtx.tx.getHash e.P) with
    | none => (wtx, [])
    | some txindex =>
      if txindex.vSpent.length ≠ wtx.tx.vout.length then (wtx, [])
      else (List.range txindex.vSpent.length).foldl (e.markSlot keys txindex.vSpent) (wtx, [])

def reacceptEntry (s : ScanWallet K × List CDiskTxPos) (hash : Uint256) : ScanWallet K × List CDiskTxPos :=
  match s.1.mapWallet.lookup hash with
  | none => s
  | some wtx =>
    match e.reacceptTx s.1.keys wtx with
    | (_, []) => s
    | (wtx', vMissingTx) => ({ s.1 with mapWallet := s.1.mapWallet.insert hash wtx' }, s.2 ++ vMissingTx)

/-- The loop over the wallet. -/
def reacceptPass (w : ScanWallet K) : ScanWallet K × List CDiskTxPos := w.mapWallet.keys.foldl e.reacceptEntry (w, [])

/-- A round of the outer loop. Its scan has its number. -/
def reacceptRound (n : Nat) (w : ScanWallet K) : Turn (ScanWallet K) (ScanWallet K) :=
  match e.reacceptPass w with
  | (w, []) => .done w
  | (w, _ :: _) =>
    let (w, ret) := e.scanForWalletTransactions n false w
    if ret ≠ 0 then .again w else .done w

/-- `ReacceptWalletTransactions`, whose first scan is number `n`. -/
def reacceptWalletTransactions (fuel n : Nat) (w : ScanWallet K) : Option (ScanWallet K) :=
  Rounds.loop e.reacceptRound fuel n w

/-! ## What it is for -/

/-- The index has a slot for the output, and it is not null. -/
def SpentInIndex (hash : Uint256) (i : Nat) : Prop :=
  ∃ txindex, e.readTxIndex hash = some txindex ∧ hasSpender txindex.vSpent i

/-- An own output that the index has as spent and the wallet has not. -/
structure Open (keys : K) (wtx : CWalletTx) (i : Nat) : Prop where
  index : e.SpentInIndex (wtx.tx.getHash e.P) i
  own : ∃ txout, wtx.tx.vout[i]? = some txout ∧ e.isMine keys txout
  unmarked : wtx.isSpent i = false

/-- **Every own output whose slot is not null is marked spent.** -/
def Closed (w : ScanWallet K) : Prop :=
  ∀ hash wtx, w.mapWallet.lookup hash = some wtx → ∀ i, ¬ e.Open w.keys wtx i

/-- A transaction at whose outputs a pass does not look: one the shortcut
takes, or one with another number of slots. -/
def Unread (wtx : CWalletTx) : Prop :=
  isPassed wtx ∨ ∃ txindex, e.readTxIndex (wtx.tx.getHash e.P) = some txindex ∧
    txindex.vSpent.length ≠ wtx.tx.vout.length

/-- **A pass leaves nothing behind**: no output that should be marked is one of a
transaction it does not look at. -/
def NoneBehind (w : ScanWallet K) : Prop :=
  ∀ hash wtx, w.mapWallet.lookup hash = some wtx → e.Unread wtx → ∀ i, ¬ e.Open w.keys wtx i

/-- The wallet with the keys that are found at a transaction. -/
def found (w : ScanWallet K) (tx : CTransaction) : ScanWallet K := { w with keys := (e.find w.keys tx).1 }

/-- The transaction involves the wallet, with the keys that are found. -/
def Involves (w : ScanWallet K) (tx : CTransaction) : Prop :=
  (e.view (e.found w tx)).isMineTx e.P tx = true ∨ (e.view (e.found w tx)).isFromMe e.P tx = true

/-- A transaction of which the wallet takes more than marks is counted: it is
added and written, or gives no key and does not involve the wallet. -/
def Counted (n : Nat) (w : ScanWallet K) (tx : CTransaction) : Prop :=
  w.mapWallet.lookup (tx.getHash e.P) = none →
    (e.Involves w tx → e.fWritten n tx = true) ∧ (¬ e.Involves w tx → e.store (e.find w.keys tx).1 = e.store w.keys)

/-- The transactions a scan reads, with their blocks. -/
def scanned : List (CBlock × CTransaction) := e.scannedBlocks.flatMap fun block => block.vtx.map (block, ·)

/-- A step of a scan. -/
def scanStep (n : Nat) (fUpdate : Bool) (p : CBlock × CTransaction) (s : ScanWallet K × Nat) : ScanWallet K × Nat :=
  e.scanTx n fUpdate p.1 s p.2

/-- The scan after a pass, if there is one, counts what the wallet takes of it. -/
def ScanCounts (n : Nat) (w : ScanWallet K) : Prop :=
  (e.reacceptPass w).2 ≠ [] →
    Meets (e.scanStep n false) (fun p s => e.Counted n s.1 p.2) e.scanned ((e.reacceptPass w).1, 0)

/-- Own outputs that transactions of the chain spend are worth something. -/
def Worth (w : ScanWallet K) : Prop :=
  ∀ p ∈ e.scanned, ∀ txin ∈ p.2.vin, (e.view (e.reacceptPass w).1).OwnAt e.P txin.prevout →
    (e.view (e.reacceptPass w).1).isFromMe e.P p.2 = true

/-- How many transactions of the chain the wallet does not have. -/
def missing (w : ScanWallet K) : Nat :=
  ((e.scanned.map fun (p : CBlock × CTransaction) => p.2.getHash e.P).toFinset.filter
    fun hash => (w.mapWallet.lookup hash).isNone).card

end ScanEnv

/-! ## What a step of a scan does -/

section

variable {P : Params} {w w' : CWallet}

theorem SameTxs.isSome (h : SameTxs w w') (hash : Uint256) :
    (w'.mapWallet.lookup hash).isSome = (w.mapWallet.lookup hash).isSome := by
  have htxs := congrArg Option.isSome (h.txs hash)
  simpa using htxs

theorem sameTxs_addToWallet (P : Params) (w : CWallet) (nNow : Int) (fWritten : Bool) (wtxIn : CWalletTx) :
    SameTxs (w.inserted P nNow wtxIn) (w.addToWallet P nNow fWritten wtxIn) := by
  rcases addToWallet_cases P w nNow fWritten wtxIn with hend | ⟨hend, -⟩
  · rw [hend]
    exact (walletUpdateSpent_spec P (w.inserted P nNow wtxIn) (w.kept P wtxIn.tx) _).1
  · rw [hend]
    exact .refl

theorem tx_setMerkleBranch {wtx : CWalletTx} {block : CBlock} : (wtx.setMerkleBranch P block).tx = wtx.tx := by
  unfold CWalletTx.setMerkleBranch
  split <;> rfl

end

namespace ScanEnv

section

variable {K : Type} {e : ScanEnv K} {n : Nat} {fUpdate : Bool} {block : CBlock} {w w' : ScanWallet K} {v : CWallet}
  {tx : CTransaction} {wtx : CWalletTx} {hash : Uint256} {i : Nat}

theorem tx_walletTx {mapNarr : List (String × String)} : (e.walletTx block mapNarr tx).tx = tx := tx_setMerkleBranch

theorem view_put (h : v.keystore = e.store w.keys) : e.view (w.put v) = v := by
  obtain ⟨mapWallet, keystore, nOrderPosNext⟩ := v
  obtain rfl : keystore = e.store w.keys := h
  rfl

/-- The places a step can end, where transactions that are there are not to be
updated. -/
inductive Step (e : ScanEnv K) (n : Nat) (block : CBlock) (w : ScanWallet K) (tx : CTransaction) :
    ScanWallet K × Bool → Prop
  | existed (h : (w.mapWallet.lookup (tx.getHash e.P)).isSome) : Step e n block w tx (w, false)
  | added (hnew : w.mapWallet.lookup (tx.getHash e.P) = none) (hinvolves : e.Involves w tx) {w' : ScanWallet K}
      (hkeys : w'.keys = (e.find w.keys tx).1)
      (hview : e.view w' = (e.view (e.found w tx)).addToWallet e.P (e.nNow n tx) (e.fWritten n tx)
        (e.walletTx block (e.find w.keys tx).2 tx)) : Step e n block w tx (w', e.fWritten n tx)
  | marked (hnew : w.mapWallet.lookup (tx.getHash e.P) = none) (hnot : ¬ e.Involves w tx) {w' : ScanWallet K}
      (hkeys : w'.keys = (e.find w.keys tx).1)
      (hview : e.view w' = (e.view (e.found w tx)).walletUpdateSpent e.P tx false) : Step e n block w tx (w', false)

theorem keystore_addToWallet {nNow : Int} {fWritten : Bool} {wtxIn : CWalletTx} :
    (v.addToWallet e.P nNow fWritten wtxIn).keystore = v.keystore :=
  (sameTxs_addToWallet e.P v nNow fWritten wtxIn).keystore.trans keystore_inserted

theorem addToWalletIfInvolvingMe_eq : e.addToWalletIfInvolvingMe n fUpdate block w tx =
    if (w.mapWallet.lookup (tx.getHash e.P)).isSome = true ∧ ¬ fUpdate = true then (w, false)
    else if (w.mapWallet.lookup (tx.getHash e.P)).isSome = true ∨ (e.view (e.found w tx)).isMineTx e.P tx = true ∨
        (e.view (e.found w tx)).isFromMe e.P tx = true then
      ((e.found w tx).put ((e.view (e.found w tx)).addToWallet e.P (e.nNow n tx) (e.fWritten n tx)
          (e.walletTx block (e.find w.keys tx).2 tx)),
        (e.view (e.found w tx)).addsToWallet e.P (e.fWritten n tx) (e.walletTx block (e.find w.keys tx).2 tx))
    else ((e.found w tx).put ((e.view (e.found w tx)).walletUpdateSpent e.P tx false), false) := rfl

/-- **What a step does**, where what is there is not updated. -/
theorem step_cases (e : ScanEnv K) (n : Nat) (fUpdate : Bool) (block : CBlock) (w : ScanWallet K) (tx : CTransaction)
    (h : fUpdate = true → w.mapWallet.lookup (tx.getHash e.P) = none) :
    Step e n block w tx (e.addToWalletIfInvolvingMe n fUpdate block w tx) := by
  rw [addToWalletIfInvolvingMe_eq]
  cases hlookup : w.mapWallet.lookup (tx.getHash e.P) with
  | some wtx =>
    have hnot : ¬ fUpdate = true := by
      intro hupdate
      rw [h hupdate] at hlookup
      cases hlookup
    rw [if_pos ⟨rfl, hnot⟩]
    exact .existed (by rw [hlookup]; rfl)
  | none =>
    rw [if_neg fun h => by cases h.1]
    by_cases hinvolves : e.Involves w tx
    · rw [if_pos (.inr hinvolves)]
      have hadds : (e.view (e.found w tx)).addsToWallet e.P (e.fWritten n tx)
          (e.walletTx block (e.find w.keys tx).2 tx) = e.fWritten n tx := by
        unfold CWallet.addsToWallet
        rw [tx_walletTx]
        show (match w.mapWallet.lookup (tx.getHash e.P) with | none => _ | some wtx => _) = _
        rw [hlookup]
      rw [hadds]
      exact .added hlookup hinvolves rfl (view_put keystore_addToWallet)
    · rw [if_neg fun h => h.elim (fun h => by cases h) hinvolves]
      exact .marked hlookup hinvolves rfl (view_put (walletUpdateSpent_spec e.P _ tx false).1.keystore)

/-- A step loses no transaction, and what it counts is new. -/
theorem Step.grows {r : ScanWallet K × Bool} (h : Step e n block w tx r) :
    (∀ hash, (w.mapWallet.lookup hash).isSome → (r.1.mapWallet.lookup hash).isSome) ∧
      (r.2 = true → w.mapWallet.lookup (tx.getHash e.P) = none ∧ (r.1.mapWallet.lookup (tx.getHash e.P)).isSome) := by
  cases h with
  | existed h => exact ⟨fun _ h => h, fun h => by cases h⟩
  | @added hnew hinvolves w' hkeys hview =>
    obtain ⟨wtx, -, hlookup, -⟩ := lookup_inserted e.P (e.view (e.found w tx)) (e.nNow n tx)
      (e.walletTx block (e.find w.keys tx).2 tx)
    rw [tx_walletTx] at hlookup
    have hafter : ∀ hash, (w'.mapWallet.lookup hash).isSome =
        (if hash = tx.getHash e.P then some wtx else w.mapWallet.lookup hash).isSome := by
      intro hash
      have hsome := (sameTxs_addToWallet e.P (e.view (e.found w tx)) (e.nNow n tx) (e.fWritten n tx)
        (e.walletTx block (e.find w.keys tx).2 tx)).isSome hash
      rw [← hview, hlookup] at hsome
      exact hsome
    refine ⟨fun hash hsome => ?_, fun _ => ⟨hnew, ?_⟩⟩
    · rw [hafter]
      split
      · rfl
      · exact hsome
    · rw [hafter, if_pos rfl]
      rfl
  | @marked hnew hnot w' hkeys hview =>
    refine ⟨fun hash hsome => ?_, fun h => by cases h⟩
    have hsame := (walletUpdateSpent_spec e.P (e.view (e.found w tx)) tx false).1.isSome hash
    rw [← hview] at hsame
    exact hsame.trans hsome

/-! ## Scans -/

theorem play_eq_foldl {C S : Type} {run : C → S → S} {l : List C} {s : S} :
    play run l s = l.foldl (fun s c => run c s) s := by
  induction l generalizing s with
  | nil => rfl
  | cons c l ih => exact ih

theorem scan_eq_play : e.scanForWalletTransactions n fUpdate w = play (e.scanStep n fUpdate) e.scanned (w, 0) := by
  rw [play_eq_foldl, scanned, List.foldl_flatMap]
  simp only [List.foldl_map]
  rfl

theorem play_grows (l : List (CBlock × CTransaction)) (s : ScanWallet K × Nat) :
    (∀ hash, (s.1.mapWallet.lookup hash).isSome →
      ((play (e.scanStep n false) l s).1.mapWallet.lookup hash).isSome) ∧ s.2 ≤ (play (e.scanStep n false) l s).2 ∧
    (s.2 < (play (e.scanStep n false) l s).2 → ∃ p ∈ l, s.1.mapWallet.lookup (p.2.getHash e.P) = none ∧
      ((play (e.scanStep n false) l s).1.mapWallet.lookup (p.2.getHash e.P)).isSome) := by
  induction l generalizing s with
  | nil => exact ⟨fun _ h => h, le_rfl, fun h => absurd h (lt_irrefl _)⟩
  | cons p l ih =>
    obtain ⟨hkeeps, hnew⟩ := (step_cases e n false p.1 s.1 p.2 (by simp)).grows
    obtain ⟨hrest, hle, hlater⟩ := ih (e.scanStep n false p s)
    have hcount : (e.scanStep n false p s).2 =
        if (e.addToWalletIfInvolvingMe n false p.1 s.1 p.2).2 = true then s.2 + 1 else s.2 := rfl
    refine ⟨fun hash hsome => hrest hash (hkeeps hash hsome), ?_, fun hlt => ?_⟩
    · refine le_trans ?_ hle
      rw [hcount]
      split <;> omega
    · by_cases hcounted : (e.addToWalletIfInvolvingMe n false p.1 s.1 p.2).2 = true
      · obtain ⟨hnone, hsome⟩ := hnew hcounted
        exact ⟨p, List.mem_cons_self, hnone, hrest _ hsome⟩
      · rw [if_neg hcounted] at hcount
        obtain ⟨p', hmem, hnone, hsome⟩ := hlater (by rw [hcount]; exact hlt)
        refine ⟨p', List.mem_cons_of_mem p hmem, ?_, hsome⟩
        by_contra hthere
        have hstill := hkeeps _ (Option.isSome_iff_ne_none.mpr hthere)
        have hgone : ((e.scanStep n false p s).1.mapWallet.lookup (p'.2.getHash e.P)) = none := hnone
        have hsome' : ((e.scanStep n false p s).1.mapWallet.lookup (p'.2.getHash e.P)).isSome = true := hstill
        rw [hgone] at hsome'
        cases hsome'

/-- **A scan that counts something brings the wallet closer to the chain.** -/
theorem missing_scan (h : (e.scanForWalletTransactions n false w).2 ≠ 0) :
    e.missing (e.scanForWalletTransactions n false w).1 < e.missing w := by
  rw [scan_eq_play] at h ⊢
  obtain ⟨hkeeps, -, hnew⟩ := play_grows (e := e) (n := n) e.scanned (w, 0)
  obtain ⟨p, hmem, hnone, hsome⟩ := hnew (Nat.pos_of_ne_zero h)
  refine Finset.card_lt_card (Finset.ssubset_iff_subset_ne.mpr ⟨fun hash hhash => ?_, fun heq => ?_⟩)
  · rw [Finset.mem_filter] at hhash ⊢
    refine ⟨hhash.1, ?_⟩
    by_contra hthere
    have hsome' := Option.isSome_iff_ne_none.mpr fun hnone => hthere (Option.isNone_iff_eq_none.mpr hnone)
    have hstill := hkeeps hash hsome'
    rw [Option.isNone_iff_eq_none.mp hhash.2] at hstill
    cases hstill
  · have hin : p.2.getHash e.P ∈ (e.scanned.map fun p => p.2.getHash e.P).toFinset.filter
        fun hash => (w.mapWallet.lookup hash).isNone :=
      Finset.mem_filter.mpr ⟨List.mem_toFinset.mpr (List.mem_map_of_mem hmem), Option.isNone_iff_eq_none.mpr hnone⟩
    rw [← heq, Finset.mem_filter, Option.isNone_iff_eq_none] at hin
    rw [hin.2] at hsome
    cases hsome

/-! ## A pass -/

/-- Within the loop over the outputs, `k` of which are done. -/
structure Slots (e : ScanEnv K) (keys : K) (vSpent : List (Option CDiskTxPos)) (wtx : CWalletTx) (k : Nat)
    (s : CWalletTx × List CDiskTxPos) : Prop where
  tx : s.1.tx = wtx.tx
  flags : ∀ i < wtx.tx.vout.length, s.1.isSpent i = true ↔
    wtx.isSpent i = true ∨
      i < k ∧ hasSpender vSpent i = true ∧ ∃ txout, wtx.tx.vout[i]? = some txout ∧ e.isMine keys txout
  same : s.2 = [] → s.1 = wtx

variable {keys : K} {vSpent : List (Option CDiskTxPos)} {k : Nat} {s : CWalletTx × List CDiskTxPos}

theorem Slots.skip (h : Slots e keys vSpent wtx k s)
    (hskip : k < wtx.tx.vout.length → s.1.isSpent k = true ∨
      ¬ (hasSpender vSpent k = true ∧ ∃ txout, wtx.tx.vout[k]? = some txout ∧ e.isMine keys txout)) :
    Slots e keys vSpent wtx (k + 1) s := by
  refine ⟨h.tx, fun i hi => (h.flags i hi).trans ⟨?_, ?_⟩, h.same⟩
  · rintro (hspent | ⟨hlt, hslot⟩)
    · exact .inl hspent
    · exact .inr ⟨by omega, hslot⟩
  · rintro (hspent | ⟨hlt, hslot⟩)
    · exact .inl hspent
    · by_cases heq : i = k
      · subst heq
        rcases hskip hi with hspent | hnot
        · exact (h.flags i hi).mp hspent
        · exact absurd hslot hnot
      · exact .inr ⟨by omega, hslot⟩

/-- One output more. -/
theorem Slots.succ (h : Slots e keys vSpent wtx k s) :
    Slots e keys vSpent wtx (k + 1) (e.markSlot keys vSpent s k) := by
  unfold markSlot
  by_cases hspent : s.1.isSpent k = true
  · rw [if_pos hspent]
    exact h.skip fun _ => .inl hspent
  · rw [if_neg hspent, h.tx]
    cases hslot : (vSpent[k]?).join with
    | none =>
      refine h.skip fun _ => .inr fun hown => ?_
      have hsome := hown.1
      rw [hasSpender, hslot] at hsome
      cases hsome
    | some pos =>
      cases htxout : wtx.tx.vout[k]? with
      | none =>
        refine h.skip fun _ => .inr fun hown => ?_
        obtain ⟨-, txout, hsome, -⟩ := hown
        rw [htxout] at hsome
        cases hsome
      | some txout =>
        dsimp only
        by_cases hmine : e.isMine keys txout = true
        · rw [if_pos hmine]
          refine ⟨h.tx, fun i hi => ?_, fun hnil => absurd hnil (by simp)⟩
          rw [CWalletTx.markSpent, isSpent_set (by rw [h.tx]; exact hi)]
          by_cases heq : k = i
          · subst heq
            rw [if_pos rfl]
            refine ⟨fun _ => .inr ⟨by omega, ?_, txout, htxout, hmine⟩, fun _ => rfl⟩
            rw [hasSpender, hslot]
            rfl
          · rw [if_neg heq, h.flags i hi]
            constructor
            · rintro (hspent | ⟨hlt, hslot⟩)
              · exact .inl hspent
              · exact .inr ⟨by omega, hslot⟩
            · rintro (hspent | ⟨hlt, hslot⟩)
              · exact .inl hspent
              · exact .inr ⟨by omega, hslot⟩
        · rw [if_neg hmine]
          refine h.skip fun _ => .inr fun hown => hmine ?_
          obtain ⟨-, txout', hsome, hmine'⟩ := hown
          obtain rfl := Option.some.inj (htxout.symm.trans hsome)
          exact hmine'

theorem slots_range : Slots e keys vSpent wtx k ((List.range k).foldl (e.markSlot keys vSpent) (wtx, [])) := by
  induction k with
  | zero => exact ⟨rfl, fun i _ => by simp, fun _ => rfl⟩
  | succ k ih =>
    rw [List.range_succ, List.foldl_append]
    exact ih.succ

/-- **A pass over one transaction** closes it, unless it does not look at it. -/
theorem reacceptTx_spec (e : ScanEnv K) (keys : K) (wtx : CWalletTx) : (e.reacceptTx keys wtx).1.tx = wtx.tx ∧
    ((e.reacceptTx keys wtx).2 = [] → (e.reacceptTx keys wtx).1 = wtx) ∧
    ∀ i, e.Open keys (e.reacceptTx keys wtx).1 i ↔ e.Open keys wtx i ∧ e.Unread wtx := by
  unfold reacceptTx
  by_cases hpassed : isPassed wtx
  · rw [if_pos hpassed]
    exact ⟨rfl, fun _ => rfl, fun i => ⟨fun h => ⟨h, .inl hpassed⟩, fun h => h.1⟩⟩
  · rw [if_neg hpassed]
    cases hindex : e.readTxIndex (wtx.tx.getHash e.P) with
    | none =>
      refine ⟨rfl, fun _ => rfl, fun i => ⟨fun h => ?_, fun h => h.1⟩⟩
      obtain ⟨txindex, hsome, -⟩ := h.index
      rw [hindex] at hsome
      cases hsome
    | some txindex =>
      dsimp only
      by_cases hsize : txindex.vSpent.length ≠ wtx.tx.vout.length
      · rw [if_pos hsize]
        exact ⟨rfl, fun _ => rfl, fun i => ⟨fun h => ⟨h, .inr ⟨txindex, hindex, hsize⟩⟩, fun h => h.1⟩⟩
      · rw [if_neg hsize, not_not.mp hsize]
        have hslots := @slots_range K e wtx keys txindex.vSpent wtx.tx.vout.length
        refine ⟨hslots.tx, hslots.same, fun i => ⟨fun h => ?_, fun ⟨_, hunread⟩ => ?_⟩⟩
        · obtain ⟨txindex', hsome, hspender⟩ := h.index
          rw [hslots.tx, hindex] at hsome
          obtain rfl := Option.some.inj hsome
          obtain ⟨txout, htxout, hmine⟩ := h.own
          rw [hslots.tx] at htxout
          have hi := (List.getElem?_eq_some_iff.mp htxout).1
          have hmarked := (hslots.flags i hi).mpr (.inr ⟨hi, hspender, txout, htxout, hmine⟩)
          rw [h.unmarked] at hmarked
          cases hmarked
        · rcases hunread with hpassed' | ⟨txindex', hsome, hother⟩
          · exact absurd hpassed' hpassed
          · obtain rfl := Option.some.inj (hindex.symm.trans hsome)
            exact absurd hother hsize

/-- What the loop over the wallet makes of the wallet's transactions, at
some of them. -/
structure Passed (e : ScanEnv K) (l : List Uint256) (s s' : ScanWallet K × List CDiskTxPos) : Prop where
  keys : s'.1.keys = s.1.keys
  same : s'.2 = [] → s'.1 = s.1 ∧ s.2 = []
  others : ∀ hash, hash ∉ l → s'.1.mapWallet.lookup hash = s.1.mapWallet.lookup hash
  none : ∀ hash, s.1.mapWallet.lookup hash = none → s'.1.mapWallet.lookup hash = none
  some : ∀ hash ∈ l, ∀ wtx, s.1.mapWallet.lookup hash = some wtx → ∃ wtx', s'.1.mapWallet.lookup hash = some wtx' ∧
    wtx'.tx = wtx.tx ∧ ∀ i, e.Open s.1.keys wtx' i ↔ e.Open s.1.keys wtx i ∧ e.Unread wtx

/-- One transaction. -/
theorem passed_entry (e : ScanEnv K) (s : ScanWallet K × List CDiskTxPos) (hash : Uint256) :
    Passed e [hash] s (e.reacceptEntry s hash) := by
  unfold reacceptEntry
  cases hlookup : s.1.mapWallet.lookup hash with
  | none =>
    refine ⟨rfl, fun h => ⟨rfl, h⟩, fun _ _ => rfl, fun _ h => h, fun hash' hmem wtx hsome => ?_⟩
    rw [List.mem_singleton.mp hmem, hlookup] at hsome
    cases hsome
  | some wtx =>
    obtain ⟨htx, hsame, hopen⟩ := reacceptTx_spec e s.1.keys wtx
    dsimp only
    cases hend : e.reacceptTx s.1.keys wtx with
    | mk wtx' vMissingTx =>
      rw [hend] at htx hsame hopen
      cases vMissingTx with
      | nil =>
        refine ⟨rfl, fun h => ⟨rfl, h⟩, fun _ _ => rfl, fun _ h => h, fun hash' hmem wtx₀ hsome => ?_⟩
        rw [List.mem_singleton.mp hmem, hlookup] at hsome
        obtain rfl := Option.some.inj hsome
        obtain rfl : wtx' = wtx := hsame rfl
        rw [List.mem_singleton.mp hmem]
        exact ⟨wtx', hlookup, htx, hopen⟩
      | cons pos vMissingTx =>
        refine ⟨rfl, fun h => absurd h (by simp), fun hash' hmem => ?_, fun hash' hnone => ?_,
          fun hash' hmem wtx₀ hsome => ?_⟩
        · exact AList.lookup_insert_ne fun heq => hmem (List.mem_singleton.mpr heq)
        · have hne : hash' ≠ hash := by
            rintro rfl
            rw [hlookup] at hnone
            cases hnone
          exact (AList.lookup_insert_ne hne).trans hnone
        · obtain rfl := List.mem_singleton.mp hmem
          rw [hlookup] at hsome
          obtain rfl := Option.some.inj hsome
          exact ⟨wtx', AList.lookup_insert _, htx, hopen⟩

theorem passed_foldl (l : List Uint256) (hdistinct : l.Nodup) (s : ScanWallet K × List CDiskTxPos) :
    Passed e l s (l.foldl e.reacceptEntry s) := by
  induction l generalizing s with
  | nil => exact ⟨rfl, fun h => ⟨rfl, h⟩, fun _ _ => rfl, fun _ h => h, fun _ h => nomatch h⟩
  | cons hash l ih =>
    obtain ⟨hnotin, hdistinct⟩ := List.nodup_cons.mp hdistinct
    have hfirst := passed_entry e s hash
    have hrest := ih hdistinct (e.reacceptEntry s hash)
    rw [List.foldl_cons]
    refine ⟨hrest.keys.trans hfirst.keys, fun hnil => ?_, fun hash' hmem => ?_, fun hash' hnone => ?_,
      fun hash' hmem wtx hsome => ?_⟩
    · obtain ⟨hsame, hnil⟩ := hrest.same hnil
      obtain ⟨hsame', hnil'⟩ := hfirst.same hnil
      exact ⟨hsame.trans hsame', hnil'⟩
    · rw [hrest.others hash' fun h => hmem (List.mem_cons_of_mem hash h),
        hfirst.others hash' fun h => hmem (List.mem_cons.mpr (.inl (List.mem_singleton.mp h)))]
    · exact hrest.none hash' (hfirst.none hash' hnone)
    · rcases List.mem_cons.mp hmem with rfl | hmem
      · rw [hrest.others hash' hnotin]
        exact hfirst.some hash' (List.mem_singleton_self hash') wtx hsome
      · have hother := hfirst.others hash' fun h => hnotin (List.mem_singleton.mp h ▸ hmem)
        have hlater := hrest.some hash' hmem wtx (hother.trans hsome)
        rw [hfirst.keys] at hlater
        exact hlater

theorem passed_reacceptPass (e : ScanEnv K) (w : ScanWallet K) : Passed e w.mapWallet.keys (w, []) (e.reacceptPass w) :=
  passed_foldl w.mapWallet.keys w.mapWallet.keys_nodup (w, [])

/-- **A pass closes the wallet exactly where it leaves nothing behind.** -/
theorem closed_reacceptPass : e.Closed (e.reacceptPass w).1 ↔ e.NoneBehind w := by
  have hpass := passed_reacceptPass e w
  have hkeys : (e.reacceptPass w).1.keys = w.keys := hpass.keys
  have hsome : ∀ hash wtx, w.mapWallet.lookup hash = some wtx →
      ∃ wtx', (e.reacceptPass w).1.mapWallet.lookup hash = some wtx' ∧
        ∀ i, e.Open w.keys wtx' i ↔ e.Open w.keys wtx i ∧ e.Unread wtx := by
    intro hash wtx hlookup
    obtain ⟨wtx', hlookup', -, hopen⟩ := hpass.some hash (mem_keys (w := e.view w) hlookup) wtx hlookup
    exact ⟨wtx', hlookup', hopen⟩
  constructor
  · intro hclosed hash wtx hlookup hunread i hopen
    obtain ⟨wtx', hlookup', hiff⟩ := hsome hash wtx hlookup
    refine hclosed hash wtx' hlookup' i ?_
    rw [hkeys]
    exact (hiff i).mpr ⟨hopen, hunread⟩
  · intro hnone hash wtx' hlookup' i hopen
    rw [hkeys] at hopen
    cases hlookup : w.mapWallet.lookup hash with
    | none =>
      rw [hpass.none hash hlookup] at hlookup'
      cases hlookup'
    | some wtx =>
      obtain ⟨wtx₁, hlookup₁, hiff⟩ := hsome hash wtx hlookup
      obtain rfl := Option.some.inj (hlookup'.symm.trans hlookup₁)
      obtain ⟨hbefore, hunread⟩ := (hiff i).mp hopen
      exact hnone hash wtx hlookup hunread i hbefore

theorem missing_reacceptPass : e.missing (e.reacceptPass w).1 = e.missing w := by
  have hpass := passed_reacceptPass e w
  have hsame : ∀ hash, ((e.reacceptPass w).1.mapWallet.lookup hash).isNone = (w.mapWallet.lookup hash).isNone := by
    intro hash
    cases hlookup : w.mapWallet.lookup hash with
    | none => rw [hpass.none hash hlookup]
    | some wtx =>
      obtain ⟨wtx', hlookup', -⟩ := hpass.some hash (mem_keys (w := e.view w) hlookup) wtx hlookup
      rw [hlookup']
      rfl
  simp only [missing, hsame]

/-! ## A closed wallet -/

theorem markSlot_closed {txindex : CTxIndex} (hindex : e.readTxIndex (wtx.tx.getHash e.P) = some txindex)
    (h : ¬ e.Open keys wtx i) : e.markSlot keys txindex.vSpent (wtx, []) i = (wtx, []) := by
  unfold markSlot
  split
  · rfl
  next hspent =>
    split
    next pos txout hslot htxout =>
      refine if_neg fun hmine => h ⟨⟨txindex, hindex, ?_⟩, ⟨txout, htxout, hmine⟩, by simpa using hspent⟩
      rw [hasSpender, hslot]
      rfl
    next => rfl

theorem reacceptTx_closed (h : ∀ i, ¬ e.Open keys wtx i) : e.reacceptTx keys wtx = (wtx, []) := by
  unfold reacceptTx
  split
  · rfl
  split
  · rfl
  next txindex hindex =>
    split
    · rfl
    · generalize List.range txindex.vSpent.length = l
      induction l with
      | nil => rfl
      | cons i l ih =>
        rw [List.foldl_cons, markSlot_closed hindex (h i)]
        exact ih

/-- A pass over a closed wallet finds nothing. -/
theorem reacceptPass_closed (h : e.Closed w) : e.reacceptPass w = (w, []) := by
  unfold reacceptPass
  generalize w.mapWallet.keys = l
  induction l with
  | nil => rfl
  | cons hash l ih =>
    have hentry : e.reacceptEntry (w, []) hash = (w, []) := by
      unfold reacceptEntry
      dsimp only
      split
      · rfl
      next wtx hlookup =>
        rw [reacceptTx_closed (h hash wtx hlookup)]
    rw [List.foldl_cons, hentry]
    exact ih

/-- **A closed wallet stays as it is.** -/
theorem reaccept_closed {fuel : Nat} (h : e.Closed w) (hfuel : 0 < fuel) :
    e.reacceptWalletTransactions fuel n w = some w := by
  obtain ⟨fuel, rfl⟩ : ∃ fuel', fuel = fuel' + 1 := ⟨fuel - 1, by omega⟩
  unfold reacceptWalletTransactions
  rw [Rounds.loop, reacceptRound, reacceptPass_closed h]

/-! ## A scan that counts nothing -/

/-- The keys count only as far as the key store goes. -/
theorem Closed.of_view (h : e.Closed w) (hview : e.view w' = e.view w) : e.Closed w' := by
  have hmap : w'.mapWallet = w.mapWallet := congrArg CWallet.mapWallet hview
  have hstore : e.store w'.keys = e.store w.keys := congrArg CWallet.keystore hview
  intro hash wtx hlookup i hopen
  rw [hmap] at hlookup
  obtain ⟨txout, htxout, hmine⟩ := hopen.own
  rw [isMine, hstore] at hmine
  exact h hash wtx hlookup i ⟨hopen.index, ⟨txout, htxout, hmine⟩, hopen.unmarked⟩

/-- Marks open nothing. -/
theorem Closed.of_marks (h : e.Closed w) (hmarks : Marks e.P (e.view w) (e.view w')) : e.Closed w' := by
  have hstore : e.store w'.keys = e.store w.keys := hmarks.keystore
  intro hash wtx' hlookup' i hopen
  obtain ⟨wtx, hlookup, htx⟩ := hmarks.toSameTxs.lookup hlookup'
  obtain ⟨txout, htxout, hmine⟩ := hopen.own
  rw [isMine, hstore] at hmine
  rw [← htx] at htxout
  refine h hash wtx hlookup i ⟨?_, ⟨txout, htxout, hmine⟩, ?_⟩
  · rw [htx]
    exact hopen.index
  · by_contra hspent
    have hflag : (e.view w).Flagged ⟨hash, i⟩ := ⟨wtx, hlookup, by simpa using hspent⟩
    obtain ⟨wtx₁, hlookup₁, hspent₁⟩ := hmarks.flagged ⟨hash, i⟩ ⟨wtx, hlookup, txout, htxout, hmine⟩ hflag
    obtain rfl := Option.some.inj (hlookup'.symm.trans hlookup₁)
    rw [hopen.unmarked] at hspent₁
    cases hspent₁

theorem marks_walletUpdateSpent (P : Params) (v : CWallet) (tx : CTransaction) :
    Marks P v (v.walletUpdateSpent P tx false) := by
  obtain ⟨hsame, -, hflags⟩ := walletUpdateSpent_spec P v tx false
  exact ⟨hsame, fun o hown hflag => hflags o hown hflag fun h => by cases h⟩

theorem spendPrevout_of_not_own {P : Params} {txin : CTxIn} (h : ¬ v.OwnAt P txin.prevout) :
    spendPrevout P v txin = v := by
  unfold spendPrevout
  split
  · rfl
  next wtx hlookup =>
    split
    · rfl
    next txout htxout =>
      refine if_neg fun hmark => h ⟨wtx, hlookup, txout, htxout, hmark.2⟩

theorem walletUpdateSpent_of_not_own {P : Params} (h : ∀ txin ∈ tx.vin, ¬ v.OwnAt P txin.prevout) :
    v.walletUpdateSpent P tx false = v := by
  show tx.vin.foldl (spendPrevout P) v = v
  generalize tx.vin = vin at h
  induction vin with
  | nil => rfl
  | cons txin vin ih =>
    obtain ⟨hfirst, hrest⟩ := List.forall_mem_cons.mp h
    rw [List.foldl_cons, spendPrevout_of_not_own hfirst]
    exact ih hrest

/-- A step that counts nothing only marks. -/
theorem Step.marks {r : ScanWallet K × Bool} (h : Step e n block w tx r) (hcounted : e.Counted n w tx)
    (hnot : r.2 = false) :
    Marks e.P (e.view w) (e.view r.1) ∧
      ((∀ txin ∈ tx.vin, (e.view w).OwnAt e.P txin.prevout → (e.view w).isFromMe e.P tx = true) →
        e.view r.1 = e.view w) := by
  cases h with
  | existed h => exact ⟨.refl, fun _ => rfl⟩
  | added hnew hinvolves hkeys hview =>
    have hwritten := (hcounted hnew).1 hinvolves
    rw [hwritten] at hnot
    cases hnot
  | @marked hnew hinvolves w' hkeys hview =>
    have hstore := (hcounted hnew).2 hinvolves
    have hfound : e.view (e.found w tx) = e.view w := by
      show (⟨w.mapWallet, e.store (e.find w.keys tx).1, w.nOrderPosNext⟩ : CWallet) = _
      rw [hstore]
      rfl
    rw [hfound] at hview
    refine ⟨by rw [hview]; exact marks_walletUpdateSpent e.P (e.view w) tx, fun hworth => ?_⟩
    rw [hview]
    refine walletUpdateSpent_of_not_own fun txin hmem hown => hinvolves (.inr ?_)
    rw [hfound]
    exact hworth txin hmem hown

/-- **A scan that counts all it finds, and nothing**, keeps the wallet closed,
and where own outputs are worth something does not change it. -/
theorem scan_counts_nothing {w : ScanWallet K}
    (hcounts : Meets (e.scanStep n false) (fun p s => e.Counted n s.1 p.2) e.scanned (w, 0))
    (hnone : (e.scanForWalletTransactions n false w).2 = 0) :
    (e.Closed w → e.Closed (e.scanForWalletTransactions n false w).1) ∧
      ((∀ p ∈ e.scanned, ∀ txin ∈ p.2.vin, (e.view w).OwnAt e.P txin.prevout → (e.view w).isFromMe e.P p.2 = true) →
        e.view (e.scanForWalletTransactions n false w).1 = e.view w) := by
  rw [scan_eq_play] at hnone ⊢
  have hstep : ∀ (p : CBlock × CTransaction) (s : ScanWallet K × Nat), e.Counted n s.1 p.2 →
      0 < (e.scanStep n false p s).2 ∨ s.2 = 0 ∧ Marks e.P (e.view s.1) (e.view (e.scanStep n false p s).1) ∧
        ((∀ txin ∈ p.2.vin, (e.view s.1).OwnAt e.P txin.prevout → (e.view s.1).isFromMe e.P p.2 = true) →
          e.view (e.scanStep n false p s).1 = e.view s.1) := by
    intro p s hcounted
    have hcount : (e.scanStep n false p s).2 =
        if (e.addToWalletIfInvolvingMe n false p.1 s.1 p.2).2 = true then s.2 + 1 else s.2 := rfl
    rw [hcount]
    cases hadded : (e.addToWalletIfInvolvingMe n false p.1 s.1 p.2).2 with
    | true => exact .inl (by simp)
    | false =>
      rcases Nat.eq_zero_or_pos s.2 with hzero | hpos
      · exact .inr ⟨hzero, (step_cases e n false p.1 s.1 p.2 (by simp)).marks hcounted hadded⟩
      · exact .inl (by simpa using hpos)
  constructor
  · intro hclosed
    have hkeeps : ∀ (p : CBlock × CTransaction) (s : ScanWallet K × Nat), 0 < s.2 ∨ e.Closed s.1 → e.Counted n s.1 p.2 →
        0 < (e.scanStep n false p s).2 ∨ e.Closed (e.scanStep n false p s).1 := by
      intro p s hs hcounted
      rcases hstep p s hcounted with hpos | ⟨hzero, hmarks, -⟩
      · exact .inl hpos
      · exact .inr ((hs.resolve_left (by omega)).of_marks hmarks)
    exact (Meets.keeps hkeeps (.inr hclosed) hcounts).resolve_left (by omega)
  · intro hworth
    have hkeeps : ∀ (p : CBlock × CTransaction) (s : ScanWallet K × Nat), 0 < s.2 ∨ e.view s.1 = e.view w →
        (e.Counted n s.1 p.2 ∧
          ∀ txin ∈ p.2.vin, (e.view w).OwnAt e.P txin.prevout → (e.view w).isFromMe e.P p.2 = true) →
          0 < (e.scanStep n false p s).2 ∨ e.view (e.scanStep n false p s).1 = e.view w := by
      intro p s hs ⟨hcounted, hworth⟩
      rcases hstep p s hcounted with hpos | ⟨hzero, -, hsame⟩
      · exact .inl hpos
      · have hview := hs.resolve_left (by omega)
        rw [hview] at hsame
        exact .inr (hsame hworth)
    exact (Meets.keeps hkeeps (.inr rfl) (hcounts.and (Runs.meets_const.mpr hworth))).resolve_left (by omega)

/-! ## The loop -/

theorem reacceptRound_done (h : e.reacceptRound n w = .done w') :
    (e.reacceptPass w).1 = w' ∧ (e.reacceptPass w).2 = [] ∨
      (e.reacceptPass w).2 ≠ [] ∧ (e.scanForWalletTransactions n false (e.reacceptPass w).1).2 = 0 ∧
        (e.scanForWalletTransactions n false (e.reacceptPass w).1).1 = w' := by
  unfold reacceptRound at h
  generalize e.reacceptPass w = pass at h ⊢
  obtain ⟨w₁, vMissingTx⟩ := pass
  cases vMissingTx with
  | nil => exact .inl ⟨Turn.done.inj h, rfl⟩
  | cons pos vMissingTx =>
    dsimp only at h ⊢
    split at h
    · cases h
    next hret => exact .inr ⟨by simp, not_not.mp hret, Turn.done.inj h⟩

theorem reacceptRound_again (h : e.reacceptRound n w = .again w') :
    (e.scanForWalletTransactions n false (e.reacceptPass w).1).2 ≠ 0 ∧
      (e.scanForWalletTransactions n false (e.reacceptPass w).1).1 = w' := by
  unfold reacceptRound at h
  generalize e.reacceptPass w = pass at h ⊢
  obtain ⟨w₁, vMissingTx⟩ := pass
  cases vMissingTx with
  | nil => cases h
  | cons pos vMissingTx =>
    dsimp only at h ⊢
    split at h
    next hret => exact ⟨hret, Turn.again.inj h⟩
    · cases h

/-- **`ReacceptWalletTransactions` ends**: each round but the last brings the
wallet closer to the chain. -/
theorem reaccept_ends (e : ScanEnv K) (n : Nat) (w : ScanWallet K) :
    ∃ w', ∀ fuel, e.missing w < fuel → e.reacceptWalletTransactions fuel n w = some w' := by
  refine Rounds.loop_ends e.missing fun n w w' hround => ?_
  obtain ⟨hret, rfl⟩ := reacceptRound_again hround
  rw [← missing_reacceptPass (w := w)]
  exact missing_scan hret

/-- What the last round leaves. -/
theorem closed_of_done (hround : e.reacceptRound n w = .done w') (hcounts : e.ScanCounts n w) :
    (e.NoneBehind w → e.Closed w') ∧ (e.Worth w → e.Closed w' → e.NoneBehind w) := by
  rw [← closed_reacceptPass]
  rcases reacceptRound_done hround with ⟨rfl, -⟩ | ⟨hmissing, hnone, rfl⟩
  · exact ⟨id, fun _ => id⟩
  · obtain ⟨hkeeps, hsame⟩ := scan_counts_nothing (hcounts hmissing) hnone
    exact ⟨hkeeps, fun hworth hclosed => hclosed.of_view (hsame hworth).symm⟩

end

end ScanEnv

/-! ## A coinstake of which the wallet has one output as spent -/

namespace Sample

/-- A coinstake with two own outputs, and the payments that spend them. -/
def splitStake : CTransaction :=
  ⟨1, 1000, [⟨⟨7, 0⟩, [], UINT_MAX⟩], [CTxOut.empty, ⟨COIN, [1]⟩, ⟨COIN, [1]⟩], 0⟩

def spendStake (nTime n : Nat) : CTransaction := ⟨1, nTime, [⟨⟨1000, n⟩, [], UINT_MAX⟩], [⟨COIN, [3]⟩], 0⟩

/-- The chain has both payments. The file of the wallet takes every record. -/
def scanEnv : ScanEnv CKeyStore where
  store keystore := keystore
  find keystore _ := (keystore, [])
  P := params true
  chain := [⟨⟨1, 0, 0, 1002, 0, 500⟩, [splitStake], []⟩,
    ⟨⟨1, 500, 0, 1004, 0, 501⟩, [spendStake 1001 1, spendStake 1003 2], []⟩]
  readTxIndex hash :=
    if hash = 1000 then some ⟨some ⟨1, 0, 0⟩, [none, some ⟨1, 1, 0⟩, some ⟨1, 1, 1⟩]⟩
    else if hash = 1001 ∨ hash = 1003 then some ⟨some ⟨1, 1, hash⟩, [none]⟩
    else none
  nTimeFirstKey := 0
  nNow _ _ := 2000
  fWritten _ _ := true

/-- The coinstake with one of its outputs marked. -/
def halfSpent : CWalletTx := { CWalletTx.ofTx splitStake with vfSpent := [false, true, false] }

/-- A copy of the wallet that has only one of the payments. -/
def staleCopy : ScanWallet CKeyStore where
  mapWallet := ((∅ : Map Uint256 CWalletTx).insert 1000 halfSpent).insert 1001 (.ofTx (spendStake 1001 1))
  nOrderPosNext := 0
  keys := [[1]]

end Sample

namespace ScanEnv

end ScanEnv

end Pinkcoin
