/-
The spent flags of a wallet: which own outputs are marked when transactions
are added, loose or with a block, and that an output which a transaction of
the wallet spends stays marked.
-/
import Pinkcoin.AcceptBlock
import Pinkcoin.Lib.Runs

namespace Pinkcoin

open Runs

namespace CWallet

variable (P : Params) (w : CWallet)

/-- An own output of a wallet transaction. -/
def OwnAt (o : COutPoint) : Prop :=
  ∃ prev, w.mapWallet.lookup o.hash = some prev ∧ ∃ txout, prev.tx.vout[o.n]? = some txout ∧ w.isMine P txout

/-- An output that is marked spent. -/
def Flagged (o : COutPoint) : Prop := ∃ prev, w.mapWallet.lookup o.hash = some prev ∧ prev.isSpent o.n = true

/-- **Every own output that is spent is marked**, by the transactions of the
wallet that are in the main chain or the memory pool. -/
def AllFlagged (active : Uint256 → Bool) : Prop :=
  ∀ hash wtx, w.mapWallet.lookup hash = some wtx → active hash → ∀ txin ∈ wtx.tx.vin, w.OwnAt P txin.prevout →
    w.Flagged txin.prevout

/-- Each transaction is under its hash. -/
def Keyed : Prop := ∀ hash wtx, w.mapWallet.lookup hash = some wtx → wtx.tx.getHash P = hash

end CWallet

/-! ## Runs -/

/-- A transaction is added, or one that may involve the wallet. -/
inductive WalletEvent
  | addToWallet (nNow : Int) (fWritten : Bool) (wtxIn : CWalletTx)
  | addToWalletIfInvolvingMe (nNow : Int) (fWritten : Bool) (tx : CTransaction) (pblock : Option CBlock) (fUpdate : Bool)

/-- The wallet after an event. -/
def WalletEvent.run (P : Params) : WalletEvent → CWallet → CWallet
  | addToWallet nNow fWritten wtxIn, w => w.addToWallet P nNow fWritten wtxIn
  | addToWalletIfInvolvingMe nNow fWritten tx pblock fUpdate, w =>
    w.addToWalletIfInvolvingMe P nNow fWritten tx pblock fUpdate

namespace CWallet

variable (P : Params) (active : Uint256 → Bool) (w : CWallet)

/-- The transaction as the wallet has it. -/
def kept (tx : CTransaction) : CTransaction := ((w.mapWallet.lookup (tx.getHash P)).map CWalletTx.tx).getD tx

/-- No transaction in the chain or the pool spends an own output of it, of the
wallet's and itself. -/
def Unspent (tx : CTransaction) : Prop :=
  ∀ spender, spender = tx ∨ (∃ hash wtx, w.mapWallet.lookup hash = some wtx ∧ active hash ∧ spender = wtx.tx) →
    ∀ txin ∈ spender.vin, txin.prevout.hash = tx.getHash P →
      ∀ txout, tx.vout[txin.prevout.n]? = some txout → ¬ w.isMine P txout

/-- When `AddToWallet` leaves what is spent marked: the record of a new
transaction is written, and one that is new, or comes with a block, has no
spent outputs. -/
structure AddsUnspent (fWritten : Bool) (wtxIn : CWalletTx) : Prop where
  written : w.mapWallet.lookup (wtxIn.tx.getHash P) = none → fWritten
  unspent : w.mapWallet.lookup (wtxIn.tx.getHash P) = none ∨ wtxIn.hashBlock ≠ 0 → w.Unspent P active (w.kept P wtxIn.tx)

/-- With the keys of another keystore, the outputs that transactions in the
chain or the pool spend are no more the wallet's than before. -/
def FindsUnspent (keystore : CKeyStore) : Prop :=
  ∀ hash wtx, w.mapWallet.lookup hash = some wtx → active hash → ∀ txin ∈ wtx.tx.vin,
    { w with keystore := keystore }.OwnAt P txin.prevout → w.OwnAt P txin.prevout

end CWallet

namespace WalletEvent

variable (P : Params) (active : Uint256 → Bool)

/-- The wallet transaction made of a transaction and its block. -/
def walletTx (keystore : CKeyStore) (tx : CTransaction) (pblock : Option CBlock) : CWalletTx :=
  let wtx := { CWalletTx.ofTx tx with mapValue := (P.findStealthTransactions keystore tx).2 }
  match pblock with
  | some block => wtx.setMerkleBranch P block
  | none => wtx

/-- When an event leaves what is spent marked. A transaction that is there and
not to be updated changes nothing; one that does not involve the wallet is
not added. -/
def Keeps : WalletEvent → CWallet → Prop
  | addToWallet _ fWritten wtxIn, w => w.AddsUnspent P active fWritten wtxIn
  | addToWalletIfInvolvingMe _ fWritten tx pblock fUpdate, w =>
    ((w.mapWallet.lookup (tx.getHash P)).isSome → fUpdate) →
      let found := { w with keystore := (P.findStealthTransactions w.keystore tx).1 }
      w.FindsUnspent P active found.keystore ∧
        ((w.mapWallet.lookup (tx.getHash P)).isSome ∨ found.isMineTx P tx ∨ found.isFromMe P tx →
          found.AddsUnspent P active fWritten (walletTx P w.keystore tx pblock))

end WalletEvent

/-! ## What marking changes -/

section

variable {P : Params} {w w' w'' : CWallet} {hash : Uint256} {o : COutPoint} {tx : CTransaction} {active : Uint256 → Bool}

/-- Keys and transactions are as before. -/
structure SameTxs (w w' : CWallet) : Prop where
  keystore : w'.keystore = w.keystore
  txs : ∀ hash, (w'.mapWallet.lookup hash).map CWalletTx.tx = (w.mapWallet.lookup hash).map CWalletTx.tx

namespace SameTxs

theorem refl : SameTxs w w := ⟨rfl, fun _ => rfl⟩

theorem trans (h : SameTxs w w') (h' : SameTxs w' w'') : SameTxs w w'' :=
  ⟨h'.keystore.trans h.keystore, fun hash => (h'.txs hash).trans (h.txs hash)⟩

/-- A transaction of the one is in the other. -/
theorem lookup {wtx' : CWalletTx} (h : SameTxs w w') (hlookup : w'.mapWallet.lookup hash = some wtx') :
    ∃ wtx, w.mapWallet.lookup hash = some wtx ∧ wtx.tx = wtx'.tx := by
  have htxs := h.txs hash
  rw [hlookup, Option.map_some] at htxs
  exact Option.map_eq_some_iff.mp htxs.symm

theorem symm (h : SameTxs w w') : SameTxs w' w := ⟨h.keystore.symm, fun hash => (h.txs hash).symm⟩

theorem ownAt (h : SameTxs w w') (hown : w'.OwnAt P o) : w.OwnAt P o := by
  obtain ⟨prev', hprev', txout, htxout, hmine⟩ := hown
  obtain ⟨prev, hprev, htx⟩ := h.lookup hprev'
  refine ⟨prev, hprev, txout, by rw [htx]; exact htxout, ?_⟩
  rw [CWallet.isMine, ← h.keystore]
  exact hmine

theorem keyed (h : SameTxs w w') (hkeyed : w.Keyed P) : w'.Keyed P := by
  intro hash wtx' hlookup
  obtain ⟨wtx, hwtx, htx⟩ := h.lookup hlookup
  rw [← htx]
  exact hkeyed hash wtx hwtx

end SameTxs

theorem resizedSpent_getElem? {wtx : CWalletTx} {n : Nat} (hn : n < wtx.tx.vout.length) :
    wtx.resizedSpent[n]? = some (wtx.isSpent n) := by
  rw [CWalletTx.resizedSpent, CWalletTx.isSpent]
  by_cases hlength : n < wtx.vfSpent.length
  · rw [List.getElem?_append_left (by rw [List.length_take]; omega), List.getElem?_take_of_lt hn,
      List.getElem?_eq_getElem hlength, Option.getD_some]
  · rw [List.getElem?_append_right (by rw [List.length_take]; omega),
      List.getElem?_replicate_of_lt (by rw [List.length_take]; omega),
      List.getElem?_eq_none (by omega), Option.getD_none]

theorem isSpent_markSpent {wtx : CWalletTx} {n : Nat} (hn : n < wtx.tx.vout.length) : (wtx.markSpent n).isSpent n = true := by
  have hlength : n < wtx.resizedSpent.length := by
    by_contra hle
    have hsome := resizedSpent_getElem? hn
    rw [List.getElem?_eq_none (by omega)] at hsome
    cases hsome
  rw [CWalletTx.isSpent, CWalletTx.markSpent, List.getElem?_set_self hlength, Option.getD_some]

theorem isSpent_markSpent_of_isSpent {wtx : CWalletTx} {n n' : Nat} (hn' : n' < wtx.tx.vout.length)
    (h : wtx.isSpent n' = true) : (wtx.markSpent n).isSpent n' = true := by
  by_cases heq : n = n'
  · subst heq
    exact isSpent_markSpent hn'
  · rw [CWalletTx.isSpent, CWalletTx.markSpent, List.getElem?_set_ne heq, resizedSpent_getElem? hn', h, Option.getD_some]

theorem isSpent_updateSpent {wtx : CWalletTx} {vfNewSpent : List Bool} {n : Nat} (h : wtx.isSpent n = true) :
    (wtx.updateSpent vfNewSpent).isSpent n = true := by
  unfold CWalletTx.isSpent at h
  cases hget : wtx.vfSpent[n]? with
  | none =>
    rw [hget] at h
    cases h
  | some f =>
    rw [hget, Option.getD_some] at h
    simp [CWalletTx.isSpent, CWalletTx.updateSpent, hget, h]

/-- A change of one transaction that is none of what it is. -/
theorem sameTxs_adjust {f : CWalletTx → CWalletTx} (hf : ∀ wtx, (f wtx).tx = wtx.tx) : SameTxs w (w.adjust hash f) := by
  unfold CWallet.adjust
  cases hlookup : w.mapWallet.lookup hash with
  | none => exact .refl
  | some wtx =>
    refine ⟨rfl, fun hash' => ?_⟩
    show ((w.mapWallet.insert hash (f wtx)).lookup hash').map CWalletTx.tx = _
    by_cases heq : hash' = hash
    · rw [heq, AList.lookup_insert, hlookup, Option.map_some, Option.map_some, hf]
    · rw [AList.lookup_insert_ne heq]

theorem flagged_adjust_ne {f : CWalletTx → CWalletTx} (hne : o.hash ≠ hash) : (w.adjust hash f).Flagged o ↔ w.Flagged o := by
  unfold CWallet.adjust
  cases hlookup : w.mapWallet.lookup hash with
  | none => rfl
  | some wtx =>
    show (∃ prev, (w.mapWallet.insert hash (f wtx)).lookup o.hash = some prev ∧ _) ↔ _
    rw [AList.lookup_insert_ne hne]
    rfl

/-- The transactions stay, and no mark of an own output is lost. -/
structure Marks (P : Params) (w w' : CWallet) : Prop extends SameTxs w w' where
  flagged : ∀ o, w.OwnAt P o → w.Flagged o → w'.Flagged o

namespace Marks

theorem refl : Marks P w w := ⟨.refl, fun _ _ h => h⟩

theorem trans (h : Marks P w w') (h' : Marks P w' w'') : Marks P w w'' :=
  ⟨h.toSameTxs.trans h'.toSameTxs, fun o hown hflag => h'.flagged o (h.toSameTxs.symm.ownAt hown) (h.flagged o hown hflag)⟩

end Marks

/-- An own output is marked. -/
theorem marks_markSpent {wtx : CWalletTx} (hlookup : w.mapWallet.lookup o.hash = some wtx) (hn : o.n < wtx.tx.vout.length) :
    Marks P w (w.adjust o.hash (·.markSpent o.n)) ∧ (w.adjust o.hash (·.markSpent o.n)).Flagged o := by
  have hadjusted : (w.adjust o.hash (·.markSpent o.n)).mapWallet.lookup o.hash = some (wtx.markSpent o.n) := by
    simp only [CWallet.adjust, hlookup, AList.lookup_insert]
  refine ⟨⟨sameTxs_adjust fun _ => rfl, ?_⟩, ?_⟩
  · intro o' hown hflag
    by_cases heq : o'.hash = o.hash
    · obtain ⟨prev, hprev, txout, htxout, -⟩ := hown
      obtain ⟨prev', hprev', hspent⟩ := hflag
      rw [heq, hlookup] at hprev hprev'
      obtain rfl := Option.some.inj hprev
      obtain rfl := Option.some.inj hprev'
      exact ⟨_, by rw [heq]; exact hadjusted, isSpent_markSpent_of_isSpent (List.getElem?_eq_some_iff.mp htxout).1 hspent⟩
    · exact (flagged_adjust_ne heq).mpr hflag
  · exact ⟨_, hadjusted, isSpent_markSpent hn⟩

/-- The body of the loop of `WalletUpdateSpent` over the inputs. -/
def spendPrevout (P : Params) (w : CWallet) (txin : CTxIn) : CWallet :=
  match w.mapWallet.lookup txin.prevout.hash with
  | none => w
  | some wtx =>
    match wtx.tx.vout[txin.prevout.n]? with
    | none => w
    | some txout =>
      if ¬ wtx.isSpent txin.prevout.n ∧ w.isMine P txout then w.adjust txin.prevout.hash (·.markSpent txin.prevout.n) else w

theorem spendPrevout_marks (txin : CTxIn) :
    Marks P w (spendPrevout P w txin) ∧ (w.OwnAt P txin.prevout → (spendPrevout P w txin).Flagged txin.prevout) := by
  unfold spendPrevout
  cases hlookup : w.mapWallet.lookup txin.prevout.hash with
  | none =>
    refine ⟨.refl, fun hown => ?_⟩
    obtain ⟨prev, hprev, -⟩ := hown
    rw [hlookup] at hprev
    cases hprev
  | some wtx =>
    dsimp only
    cases htxout : wtx.tx.vout[txin.prevout.n]? with
    | none =>
      refine ⟨.refl, fun hown => ?_⟩
      obtain ⟨prev, hprev, txout, hout, -⟩ := hown
      rw [hlookup] at hprev
      obtain rfl := Option.some.inj hprev
      rw [htxout] at hout
      cases hout
    | some txout =>
      dsimp only
      by_cases hmark : ¬ wtx.isSpent txin.prevout.n ∧ w.isMine P txout
      · rw [if_pos hmark]
        obtain ⟨hmarks, hflag⟩ := marks_markSpent (P := P) hlookup (List.getElem?_eq_some_iff.mp htxout).1
        exact ⟨hmarks, fun _ => hflag⟩
      · rw [if_neg hmark]
        refine ⟨.refl, fun hown => ⟨wtx, hlookup, ?_⟩⟩
        obtain ⟨prev, hprev, txout', hout, hmine⟩ := hown
        rw [hlookup] at hprev
        obtain rfl := Option.some.inj hprev
        obtain rfl := Option.some.inj (htxout.symm.trans hout)
        by_contra hnot
        exact hmark ⟨hnot, hmine⟩

/-- The loop over the inputs marks each own output that is spent. -/
theorem foldl_spendPrevout (vin : List CTxIn) : ∀ w : CWallet, Marks P w (vin.foldl (spendPrevout P) w) ∧
    ∀ txin ∈ vin, w.OwnAt P txin.prevout → (vin.foldl (spendPrevout P) w).Flagged txin.prevout := by
  induction vin with
  | nil => exact fun w => ⟨.refl, fun txin hmem => by cases hmem⟩
  | cons txin vin ih =>
    intro w
    obtain ⟨hmarks, hfirst⟩ := spendPrevout_marks (P := P) (w := w) txin
    obtain ⟨hrest, hlater⟩ := ih (spendPrevout P w txin)
    refine ⟨hmarks.trans hrest, fun txin' hmem hown => ?_⟩
    rcases List.mem_cons.mp hmem with rfl | hmem
    · exact hrest.flagged _ (hmarks.toSameTxs.symm.ownAt hown) (hfirst hown)
    · exact hlater txin' hmem (hmarks.toSameTxs.symm.ownAt hown)

/-- The loop over the outputs changes the transaction itself only. -/
theorem foldl_markUnspent (hash : Uint256) (vout : List (CTxOut × Nat)) : ∀ w : CWallet,
    SameTxs w (vout.foldl (fun w (txout, i) => if w.isMine P txout then w.adjust hash (·.markUnspent i) else w) w) ∧
    ∀ o : COutPoint, o.hash ≠ hash →
      ((vout.foldl (fun w (txout, i) => if w.isMine P txout then w.adjust hash (·.markUnspent i) else w) w).Flagged o ↔
        w.Flagged o) := by
  induction vout with
  | nil => exact fun w => ⟨.refl, fun _ _ => Iff.rfl⟩
  | cons out vout ih =>
    intro w
    obtain ⟨txout, i⟩ := out
    rw [List.foldl_cons]
    dsimp only
    by_cases hmine : w.isMine P txout
    · rw [if_pos hmine]
      obtain ⟨hsame, hflag⟩ := ih (w.adjust hash (·.markUnspent i))
      have hstep : SameTxs w (w.adjust hash (·.markUnspent i)) := sameTxs_adjust fun _ => rfl
      exact ⟨hstep.trans hsame, fun o hne => (hflag o hne).trans (flagged_adjust_ne hne)⟩
    · rw [if_neg hmine]
      exact ih w

/-- **What `WalletUpdateSpent` does**: it marks what the transaction spends,
and takes no marks away but, with a block, those of the transaction itself. -/
theorem walletUpdateSpent_spec (P : Params) (w : CWallet) (tx : CTransaction) (fBlock : Bool) :
    SameTxs w (w.walletUpdateSpent P tx fBlock) ∧
    (∀ txin ∈ tx.vin, w.OwnAt P txin.prevout → (fBlock → txin.prevout.hash ≠ tx.getHash P) →
      (w.walletUpdateSpent P tx fBlock).Flagged txin.prevout) ∧
    ∀ o, w.OwnAt P o → w.Flagged o → (fBlock → o.hash ≠ tx.getHash P) → (w.walletUpdateSpent P tx fBlock).Flagged o := by
  obtain ⟨hmarks, hspent⟩ := foldl_spendPrevout (P := P) tx.vin w
  cases fBlock with
  | false =>
    exact ⟨hmarks.toSameTxs, fun txin hmem hown _ => hspent txin hmem hown,
      fun o hown hflag _ => hmarks.flagged o hown hflag⟩
  | true =>
    obtain ⟨hsame, hflags⟩ := foldl_markUnspent (P := P) (tx.getHash P) tx.vout.zipIdx (tx.vin.foldl (spendPrevout P) w)
    refine ⟨hmarks.toSameTxs.trans hsame, ?_, ?_⟩
    · intro txin hmem hown hne
      exact (hflags _ (hne rfl)).mpr (hspent txin hmem hown)
    · intro o hown hflag hne
      exact (hflags o (hne rfl)).mpr (hmarks.flagged o hown hflag)

/-! ## Steps -/

/-- Before it looks for what is spent, `AddToWallet` has the transaction in the
wallet, with the marks it had. -/
def CWallet.inserted (P : Params) (w : CWallet) (nNow : Int) (wtxIn : CWalletTx) : CWallet :=
  match w.mapWallet.lookup (wtxIn.tx.getHash P) with
  | none =>
    { w with
      mapWallet := w.mapWallet.insert (wtxIn.tx.getHash P) { wtxIn with nTimeReceived := nNow, nOrderPos := w.nOrderPosNext }
      nOrderPosNext := w.nOrderPosNext + 1 }
  | some wtx => { w with mapWallet := w.mapWallet.insert (wtxIn.tx.getHash P) (CWallet.mergeTx wtxIn wtx) }

theorem tx_mergeTx (wtxIn wtx : CWalletTx) : (CWallet.mergeTx wtxIn wtx).tx = wtx.tx := by
  unfold CWallet.mergeTx
  dsimp only [CWalletTx.updateSpent]
  split <;> split <;> split <;> rfl

theorem isSpent_mergeTx {wtxIn wtx : CWalletTx} {n : Nat} (h : wtx.isSpent n = true) :
    (CWallet.mergeTx wtxIn wtx).isSpent n = true := by
  unfold CWallet.mergeTx
  refine isSpent_updateSpent ?_
  split <;> split <;> split <;> exact h

/-- Where `AddToWallet` ends. -/
theorem addToWallet_cases (P : Params) (w : CWallet) (nNow : Int) (fWritten : Bool) (wtxIn : CWalletTx) :
    w.addToWallet P nNow fWritten wtxIn =
        (w.inserted P nNow wtxIn).walletUpdateSpent P (w.kept P wtxIn.tx) (wtxIn.hashBlock ≠ 0) ∨
      w.addToWallet P nNow fWritten wtxIn = w.inserted P nNow wtxIn ∧ fWritten = false := by
  cases hlookup : w.mapWallet.lookup (wtxIn.tx.getHash P) with
  | none =>
    simp only [CWallet.addToWallet, CWallet.inserted, CWallet.kept, hlookup, Option.map_none, Option.getD_none]
    cases fWritten with
    | true => exact .inl rfl
    | false => exact .inr ⟨rfl, rfl⟩
  | some wtx =>
    simp only [CWallet.addToWallet, CWallet.inserted, CWallet.kept, hlookup, Option.map_some, Option.getD_some, tx_mergeTx]
    by_cases hgoes : CWallet.mergeTx wtxIn wtx = wtx ∨ fWritten = true
    · rw [if_pos hgoes]
      exact .inl rfl
    · rw [if_neg hgoes]
      refine .inr ⟨rfl, ?_⟩
      cases fWritten with
      | true => exact absurd (.inr rfl) hgoes
      | false => rfl

/-- The transactions of the wallet, with the one that is added, as it is kept. -/
theorem lookup_inserted (P : Params) (w : CWallet) (nNow : Int) (wtxIn : CWalletTx) : ∃ wtx, wtx.tx = w.kept P wtxIn.tx ∧
    (∀ hash, (w.inserted P nNow wtxIn).mapWallet.lookup hash =
      if hash = wtxIn.tx.getHash P then some wtx else w.mapWallet.lookup hash) ∧
    ∀ old n, w.mapWallet.lookup (wtxIn.tx.getHash P) = some old → old.isSpent n = true → wtx.isSpent n = true := by
  have hinsert : ∀ (wtx : CWalletTx) (hash : Uint256), (w.mapWallet.insert (wtxIn.tx.getHash P) wtx).lookup hash =
      if hash = wtxIn.tx.getHash P then some wtx else w.mapWallet.lookup hash := by
    intro wtx hash
    by_cases heq : hash = wtxIn.tx.getHash P
    · rw [if_pos heq, heq, AList.lookup_insert]
    · rw [if_neg heq, AList.lookup_insert_ne heq]
  cases hlookup : w.mapWallet.lookup (wtxIn.tx.getHash P) with
  | none =>
    simp only [CWallet.inserted, CWallet.kept, hlookup, Option.map_none, Option.getD_none]
    exact ⟨{ wtxIn with nTimeReceived := nNow, nOrderPos := w.nOrderPosNext }, rfl, hinsert _, fun _ _ h => by cases h⟩
  | some wtx =>
    simp only [CWallet.inserted, CWallet.kept, hlookup, Option.map_some, Option.getD_some]
    refine ⟨_, tx_mergeTx wtxIn wtx, hinsert _, fun old n hold hspent => ?_⟩
    obtain rfl := Option.some.inj hold
    exact isSpent_mergeTx hspent

theorem keystore_inserted {nNow : Int} {wtxIn : CWalletTx} : (w.inserted P nNow wtxIn).keystore = w.keystore := by
  unfold CWallet.inserted
  split <;> rfl

theorem getHash_kept (hkeyed : w.Keyed P) (wtxIn : CWalletTx) : (w.kept P wtxIn.tx).getHash P = wtxIn.tx.getHash P := by
  unfold CWallet.kept
  cases hlookup : w.mapWallet.lookup (wtxIn.tx.getHash P) with
  | none => rfl
  | some wtx => exact hkeyed _ _ hlookup

/-- A transaction that the wallet has is only merged with. -/
theorem marks_inserted (nNow : Int) {wtxIn old : CWalletTx}
    (hold : w.mapWallet.lookup (wtxIn.tx.getHash P) = some old) :
    Marks P w (w.inserted P nNow wtxIn) := by
  obtain ⟨wtx, htx, hlookup, hspent⟩ := lookup_inserted P w nNow wtxIn
  have hkept : w.kept P wtxIn.tx = old.tx := by rw [CWallet.kept, hold, Option.map_some, Option.getD_some]
  refine ⟨⟨keystore_inserted, fun hash => ?_⟩, fun o hown hflag => ?_⟩
  · rw [hlookup hash]
    by_cases heq : hash = wtxIn.tx.getHash P
    · rw [if_pos heq, heq, hold, Option.map_some, Option.map_some, htx, hkept]
    · rw [if_neg heq]
  · obtain ⟨prev, hprev, hmarked⟩ := hflag
    by_cases heq : o.hash = wtxIn.tx.getHash P
    · rw [heq] at hprev
      exact ⟨wtx, by rw [hlookup, if_pos heq], hspent prev o.n hprev hmarked⟩
    · exact ⟨prev, by rw [hlookup, if_neg heq]; exact hprev, hmarked⟩

/-- An output of another transaction is the wallet's before as after. -/
theorem ownAt_inserted_ne {nNow : Int} {wtxIn : CWalletTx} (hne : o.hash ≠ wtxIn.tx.getHash P)
    (hown : (w.inserted P nNow wtxIn).OwnAt P o) : w.OwnAt P o := by
  obtain ⟨wtx, -, hlookup, -⟩ := lookup_inserted P w nNow wtxIn
  obtain ⟨prev, hprev, txout, hout, hmine⟩ := hown
  rw [hlookup, if_neg hne] at hprev
  rw [CWallet.isMine, keystore_inserted] at hmine
  exact ⟨prev, hprev, txout, hout, hmine⟩

theorem flagged_inserted_ne {nNow : Int} {wtxIn : CWalletTx} (hne : o.hash ≠ wtxIn.tx.getHash P) (hflag : w.Flagged o) :
    (w.inserted P nNow wtxIn).Flagged o := by
  obtain ⟨wtx, -, hlookup, -⟩ := lookup_inserted P w nNow wtxIn
  obtain ⟨prev, hprev, hspent⟩ := hflag
  exact ⟨prev, by rw [hlookup, if_neg hne]; exact hprev, hspent⟩

theorem keyed_inserted {nNow : Int} {wtxIn : CWalletTx} (hkeyed : w.Keyed P) : (w.inserted P nNow wtxIn).Keyed P := by
  obtain ⟨wtx, htx, hlookup, -⟩ := lookup_inserted P w nNow wtxIn
  intro hash wtx' hwtx'
  rw [hlookup] at hwtx'
  by_cases heq : hash = wtxIn.tx.getHash P
  · rw [if_pos heq] at hwtx'
    obtain rfl := Option.some.inj hwtx'
    rw [htx, getHash_kept hkeyed wtxIn, heq]
  · rw [if_neg heq] at hwtx'
    exact hkeyed hash wtx' hwtx'

/-- An output of the transaction that is added has no spender, where it is to
have no spent outputs. -/
theorem not_ownAt_of_unspent {nNow : Int} {wtxIn spender : CWalletTx} {hash : Uint256} {txin : CTxIn} (hkeyed : w.Keyed P)
    (hunspent : w.Unspent P active (w.kept P wtxIn.tx))
    (hspender : (w.inserted P nNow wtxIn).mapWallet.lookup hash = some spender) (hactive : active hash)
    (hmem : txin ∈ spender.tx.vin) (hprevout : txin.prevout.hash = wtxIn.tx.getHash P) :
    ¬ (w.inserted P nNow wtxIn).OwnAt P txin.prevout := by
  intro hown
  obtain ⟨wtx, htx, hlookup, -⟩ := lookup_inserted P w nNow wtxIn
  obtain ⟨prev, hprev, txout, hout, hmine⟩ := hown
  rw [hlookup, if_pos hprevout] at hprev
  obtain rfl := Option.some.inj hprev
  rw [htx] at hout
  rw [CWallet.isMine, keystore_inserted] at hmine
  refine hunspent spender.tx ?_ txin hmem (hprevout.trans (getHash_kept hkeyed wtxIn).symm) txout hout hmine
  rw [hlookup] at hspender
  by_cases heq : hash = wtxIn.tx.getHash P
  · rw [if_pos heq] at hspender
    obtain rfl := Option.some.inj hspender
    exact .inl htx
  · rw [if_neg heq] at hspender
    exact .inr ⟨hash, spender, hspender, hactive, rfl⟩

/-- Marking what the added transaction spends leaves all that is spent marked. -/
theorem flagged_walletUpdateSpent_inserted {nNow : Int} {wtxIn spender : CWalletTx} {hash : Uint256} {txin : CTxIn}
    (hkeyed : w.Keyed P) (hflagged : w.AllFlagged P active)
    (hunspent : w.mapWallet.lookup (wtxIn.tx.getHash P) = none ∨ wtxIn.hashBlock ≠ 0 →
      w.Unspent P active (w.kept P wtxIn.tx))
    (hspender : (w.inserted P nNow wtxIn).mapWallet.lookup hash = some spender) (hactive : active hash)
    (hmem : txin ∈ spender.tx.vin) (hown : (w.inserted P nNow wtxIn).OwnAt P txin.prevout) :
    ((w.inserted P nNow wtxIn).walletUpdateSpent P (w.kept P wtxIn.tx) (wtxIn.hashBlock ≠ 0)).Flagged txin.prevout := by
  obtain ⟨-, hmarked, hstays⟩ := walletUpdateSpent_spec P (w.inserted P nNow wtxIn)
    (w.kept P wtxIn.tx) (decide (wtxIn.hashBlock ≠ 0))
  obtain ⟨wtx, htx, hlookup, -⟩ := lookup_inserted P w nNow wtxIn
  have hhash := getHash_kept hkeyed wtxIn
  by_cases hnew : txin.prevout.hash = wtxIn.tx.getHash P ∧
      (w.mapWallet.lookup (wtxIn.tx.getHash P) = none ∨ wtxIn.hashBlock ≠ 0)
  · exact absurd hown (not_ownAt_of_unspent hkeyed (hunspent hnew.2) hspender hactive hmem hnew.1)
  · -- What is spent is not given back.
    have hkeeps : decide (wtxIn.hashBlock ≠ 0) = true → txin.prevout.hash ≠ (w.kept P wtxIn.tx).getHash P := by
      intro hblock heq
      exact hnew ⟨heq.trans hhash, .inr (of_decide_eq_true hblock)⟩
    by_cases heq : hash = wtxIn.tx.getHash P
    · rw [hlookup, if_pos heq] at hspender
      obtain rfl := Option.some.inj hspender
      rw [htx] at hmem
      exact hmarked txin hmem hown hkeeps
    · have hspender' := hspender
      rw [hlookup, if_neg heq] at hspender'
      refine hstays _ hown ?_ hkeeps
      by_cases hprevout : txin.prevout.hash = wtxIn.tx.getHash P
      · cases hold : w.mapWallet.lookup (wtxIn.tx.getHash P) with
        | none => exact absurd ⟨hprevout, .inl hold⟩ hnew
        | some old =>
          have hmarks := marks_inserted nNow hold
          have hown' := hmarks.toSameTxs.ownAt hown
          exact hmarks.flagged _ hown' (hflagged hash spender hspender' hactive txin hmem hown')
      · exact flagged_inserted_ne hprevout
          (hflagged hash spender hspender' hactive txin hmem (ownAt_inserted_ne hprevout hown))

/-- **`AddToWallet` keeps what is spent marked**, where the transaction it adds
has no spent outputs that it would give back. -/
theorem addToWallet_keeps {nNow : Int} {fWritten : Bool} {wtxIn : CWalletTx} (hkeyed : w.Keyed P)
    (hflagged : w.AllFlagged P active) (hadds : w.AddsUnspent P active fWritten wtxIn) :
    (w.addToWallet P nNow fWritten wtxIn).Keyed P ∧ (w.addToWallet P nNow fWritten wtxIn).AllFlagged P active := by
  rcases addToWallet_cases P w nNow fWritten wtxIn with hend | ⟨hend, hnot⟩
  · rw [hend]
    obtain ⟨hsame, -, -⟩ := walletUpdateSpent_spec P (w.inserted P nNow wtxIn)
      (w.kept P wtxIn.tx) (decide (wtxIn.hashBlock ≠ 0))
    refine ⟨hsame.keyed (keyed_inserted hkeyed), fun hash wtx hwtx hactive txin hmem hown => ?_⟩
    obtain ⟨spender, hspender, htx⟩ := hsame.lookup hwtx
    rw [← htx] at hmem
    exact flagged_walletUpdateSpent_inserted hkeyed hflagged hadds.unspent hspender hactive hmem (hsame.ownAt hown)
  · rw [hend]
    refine ⟨keyed_inserted hkeyed, fun hash wtx hwtx hactive txin hmem hown => ?_⟩
    cases hold : w.mapWallet.lookup (wtxIn.tx.getHash P) with
    | none =>
      have hwritten := hadds.written hold
      rw [hnot] at hwritten
      cases hwritten
    | some old =>
      have hmarks := marks_inserted nNow hold
      obtain ⟨spender, hspender, htx⟩ := hmarks.toSameTxs.lookup hwtx
      rw [← htx] at hmem
      have hown' := hmarks.toSameTxs.ownAt hown
      exact hmarks.flagged _ hown' (hflagged hash spender hspender hactive txin hmem hown')

theorem allFlagged_of_findsUnspent {keystore : CKeyStore} (hflagged : w.AllFlagged P active)
    (hfinds : w.FindsUnspent P active keystore) : { w with keystore := keystore }.AllFlagged P active := by
  intro hash wtx hlookup hactive txin hmem hown
  exact hflagged hash wtx hlookup hactive txin hmem (hfinds hash wtx hlookup hactive txin hmem hown)

/-- A transaction that is not added marks what it spends. -/
theorem allFlagged_walletUpdateSpent (hflagged : w.AllFlagged P active) :
    (w.walletUpdateSpent P tx false).AllFlagged P active := by
  obtain ⟨hsame, -, hstays⟩ := walletUpdateSpent_spec P w tx false
  intro hash wtx hwtx hactive txin hmem hown
  obtain ⟨spender, hspender, htx⟩ := hsame.lookup hwtx
  rw [← htx] at hmem
  have hown' := hsame.ownAt hown
  exact hstays _ hown' (hflagged hash spender hspender hactive txin hmem hown') (by simp)

/-- **`AddToWalletIfInvolvingMe` keeps what is spent marked**, where what it adds
is added so. -/
theorem addToWalletIfInvolvingMe_keeps {nNow : Int} {fWritten fUpdate : Bool} {pblock : Option CBlock}
    (hkeyed : w.Keyed P) (hflagged : w.AllFlagged P active)
    (hkeeps : (WalletEvent.addToWalletIfInvolvingMe nNow fWritten tx pblock fUpdate).Keeps P active w) :
    (w.addToWalletIfInvolvingMe P nNow fWritten tx pblock fUpdate).Keyed P ∧
      (w.addToWalletIfInvolvingMe P nNow fWritten tx pblock fUpdate).AllFlagged P active := by
  unfold CWallet.addToWalletIfInvolvingMe
  dsimp only
  by_cases hdone : (w.mapWallet.lookup (tx.getHash P)).isSome ∧ ¬ fUpdate
  · rw [if_pos hdone]
    exact ⟨hkeyed, hflagged⟩
  · rw [if_neg hdone]
    obtain ⟨hfinds, hadds⟩ := hkeeps fun hsome => by
      by_contra hnot
      exact hdone ⟨hsome, hnot⟩
    have hfound := allFlagged_of_findsUnspent hflagged hfinds
    have hkeyed' : { w with keystore := (P.findStealthTransactions w.keystore tx).1 }.Keyed P := hkeyed
    by_cases hinvolves : (w.mapWallet.lookup (tx.getHash P)).isSome ∨
        { w with keystore := (P.findStealthTransactions w.keystore tx).1 }.isMineTx P tx ∨
        { w with keystore := (P.findStealthTransactions w.keystore tx).1 }.isFromMe P tx
    · rw [if_pos hinvolves]
      exact addToWallet_keeps hkeyed' hfound (hadds hinvolves)
    · rw [if_neg hinvolves]
      obtain ⟨hsame, -, -⟩ := walletUpdateSpent_spec P
        { w with keystore := (P.findStealthTransactions w.keystore tx).1 } tx false
      exact ⟨hsame.keyed hkeyed', allFlagged_walletUpdateSpent hfound⟩

namespace WalletEvent

/-- What one event keeps. -/
theorem run_keeps (event : WalletEvent) (w : CWallet) (hw : w.Keyed P ∧ w.AllFlagged P active)
    (hkeeps : event.Keeps P active w) : (event.run P w).Keyed P ∧ (event.run P w).AllFlagged P active := by
  cases event with
  | addToWallet nNow fWritten wtxIn => exact addToWallet_keeps hw.1 hw.2 hkeeps
  | addToWalletIfInvolvingMe nNow fWritten tx pblock fUpdate => exact addToWalletIfInvolvingMe_keeps hw.1 hw.2 hkeeps

/-- **In every run from a wallet without transactions whose events all leave
what is spent marked, every own output that a transaction of the wallet in the
main chain or the memory pool spends is marked spent.** -/
theorem runs_flagged (P : Params) (active : Uint256 → Bool) (keystore : CKeyStore) (nOrderPosNext : Int)
    (events : List WalletEvent) (hmeets : Meets (run P) (Keeps P active) events ⟨∅, keystore, nOrderPosNext⟩) :
    (play (run P) events ⟨∅, keystore, nOrderPosNext⟩).AllFlagged P active := by
  have hempty : (⟨∅, keystore, nOrderPosNext⟩ : CWallet).Keyed P ∧
      (⟨∅, keystore, nOrderPosNext⟩ : CWallet).AllFlagged P active := by
    refine ⟨fun hash wtx hlookup => ?_, fun hash wtx hlookup => ?_⟩
    · simp at hlookup
    · simp at hlookup
  have hend := Meets.keeps run_keeps hempty hmeets
  exact hend.2

end WalletEvent

/-- Nothing spends an output of a transaction whose hash no input names. -/
theorem unspent_of_entries (hself : ∀ txin ∈ tx.vin, txin.prevout.hash ≠ tx.getHash P)
    (hentries : ∀ entry ∈ w.mapWallet.entries, ∀ txin ∈ entry.2.tx.vin, txin.prevout.hash ≠ tx.getHash P) :
    w.Unspent P active tx := by
  intro spender hspender txin hmem hprevout
  rcases hspender with rfl | ⟨hash, wtx, hlookup, -, rfl⟩
  · exact absurd hprevout (hself txin hmem)
  · exact absurd hprevout (hentries ⟨hash, wtx⟩ (AList.mem_lookup_iff.mp hlookup) txin hmem)

end

/-! ## A payment that is spent before its block -/

namespace Sample

def keystore : CKeyStore := [[1], [2]]

/-- A payment to the wallet, and a payment of the wallet to itself with it. -/
def funding : CTransaction := ⟨1, 1000, [⟨⟨7, 0⟩, [], UINT_MAX⟩], [⟨COIN, [1]⟩], 0⟩
def spending : CTransaction := ⟨1, 1001, [⟨⟨1000, 0⟩, [], UINT_MAX⟩], [⟨COIN, [2]⟩], 0⟩

/-- The block of the payment. -/
def fundingBlock : CBlock := ⟨⟨1, 0, 0, 1002, 0, 500⟩, [funding], []⟩

/-- Both are in the chain or the pool. -/
def seen (hash : Uint256) : Bool := hash = 1000 ∨ hash = 1001

end Sample

namespace WalletEvent

/-- A payment that has its block before it is spent. -/
theorem runs_flagged_sample :
    (play (run (Sample.params true)) [.addToWallet 5 true (.ofTx Sample.funding),
        .addToWalletIfInvolvingMe 6 true Sample.funding (some Sample.fundingBlock) true,
        .addToWalletIfInvolvingMe 7 true Sample.spending none true] ⟨∅, Sample.keystore, 0⟩).AllFlagged
      (Sample.params true) Sample.seen := by
  refine runs_flagged (Sample.params true) Sample.seen Sample.keystore 0 _ ⟨⟨fun _ => rfl, fun _ => ?_⟩, fun _ => ⟨?_, ?_⟩,
    fun _ => ⟨?_, ?_⟩, trivial⟩
  · exact unspent_of_entries (by decide) (by decide)
  · exact fun _ _ _ _ _ _ hown => hown
  · exact fun _ => ⟨fun _ => rfl, fun _ => unspent_of_entries (by decide) (by decide)⟩
  · exact fun _ _ _ _ _ _ hown => hown
  · exact fun _ => ⟨fun _ => rfl, fun _ => unspent_of_entries (by decide) (by decide)⟩

/-- The payment is added, its spending, and the payment once more with its block. -/
def early : List WalletEvent :=
  [.addToWalletIfInvolvingMe 5 true Sample.funding none true, .addToWalletIfInvolvingMe 6 true Sample.spending none true,
    .addToWalletIfInvolvingMe 7 true Sample.funding (some Sample.fundingBlock) true]

/-- **A payment that was spent before its block came is available again**: its
output is no longer marked, though the wallet's transaction that spends it is
in the pool. -/
theorem flag_lost :
    ¬ (play (run (Sample.params true)) early ⟨∅, Sample.keystore, 0⟩).AllFlagged (Sample.params true) Sample.seen := by
  intro hflagged
  obtain ⟨w, hw⟩ : ∃ w, play (run (Sample.params true)) early ⟨∅, Sample.keystore, 0⟩ = w := ⟨_, rfl⟩
  rw [hw] at hflagged
  have hspender : ∃ wtx, w.mapWallet.lookup 1001 = some wtx ∧ wtx.tx = Sample.spending := by
    rw [← hw]
    decide
  have hprev : ∃ prev, w.mapWallet.lookup 1000 = some prev ∧ prev.tx = Sample.funding ∧ prev.isSpent 0 = false := by
    rw [← hw]
    decide
  have hkeystore : w.keystore = Sample.keystore := by
    rw [← hw]
    decide
  obtain ⟨spender, hspender, htx⟩ := hspender
  obtain ⟨prev, hprev, hfunding, hunspent⟩ := hprev
  have hown : w.OwnAt (Sample.params true) ⟨1000, 0⟩ := by
    refine ⟨prev, hprev, ⟨COIN, [1]⟩, by rw [hfunding]; rfl, ?_⟩
    rw [CWallet.isMine, hkeystore]
    decide
  have hmem : (⟨⟨1000, 0⟩, [], UINT_MAX⟩ : CTxIn) ∈ spender.tx.vin := by
    rw [htx]
    exact List.mem_singleton_self _
  obtain ⟨prev', hprev', hspent⟩ := hflagged 1001 spender hspender rfl _ hmem hown
  obtain rfl := Option.some.inj (hprev.symm.trans hprev')
  rw [hunspent] at hspent
  cases hspent

end WalletEvent

end Pinkcoin
