/-
`clearwallettransactions` and `scanforalltxns`: the wallet that a scan of the
whole main chain makes of nothing but its keys, against the one that was
cleared. A key that is there already is not looked for again by
`FindStealthTransactions`, nor is the note that came with it.
-/
import Pinkcoin.StealthNotes
import Pinkcoin.WalletScan

namespace Pinkcoin

open CScript (getOp OP_RETURN)

/-! ## The commands -/

/-- The text of a note. -/
def noteText (vch : List UInt8) : String := String.ofList (vch.map fun b => Char.ofNat b.toNat)

/-- The keys of a wallet with stealth addresses and the redeem scripts
`scripts`, for its scans. -/
def StealthLibs.finder {G : Type} [AddCommGroup G] (L : StealthLibs G) (scripts : List CScript) :
    KeyFinder StealthWallet where
  store w := w.mapKeys.keys.map (fun id => id.toList) ++ scripts
  find w tx :=
    let (_, keys, mapNarr) := L.findStealth w tx ∅
    (keys, mapNarr.entries.map fun it => (it.1, noteText it.2))

/-- The records of transactions in the wallet file, and whether it lets them be
deleted. -/
structure TxRecords where
  hashes : List Uint256
  fDeleted : Uint256 → Bool

/-- `clearwallettransactions`. -/
def clearwallettransactions {K : Type} (records : TxRecords) (w : ScanWallet K) : ScanWallet K :=
  records.hashes.foldl (fun w hash =>
    if records.fDeleted hash then { w with mapWallet := w.mapWallet.erase hash } else w) w

namespace ScanEnv

variable {K : Type} (e : ScanEnv K)

/-- `scanforalltxns` from the genesis block. Its own scan is number 0. -/
def scanforalltxns (fuel : Nat) (w : ScanWallet K) : Option (ScanWallet K) :=
  e.reacceptWalletTransactions fuel 1 (e.scanForWalletTransactions 0 true w).1

end ScanEnv

/-! ## What they are for -/

/-- The note for an output. -/
def CWalletTx.note (wtx : CWalletTx) (k : Int) : Option String := wtx.mapValue.lookup (narrKey k)

/-- **The wallet is reproduced**: the same transactions, with the same spent
flags and the same notes. -/
structure Reproduces {K : Type} (w r : ScanWallet K) : Prop where
  txs : ∀ hash, (r.mapWallet.lookup hash).map CWalletTx.tx = (w.mapWallet.lookup hash).map CWalletTx.tx
  spent : ∀ hash wtx wtx', w.mapWallet.lookup hash = some wtx → r.mapWallet.lookup hash = some wtx' →
    ∀ i < wtx.tx.vout.length, wtx'.isSpent i = wtx.isSpent i
  notes : ∀ hash wtx wtx', w.mapWallet.lookup hash = some wtx → r.mapWallet.lookup hash = some wtx' →
    ∀ k, wtx'.note k = wtx.note k

namespace ScanEnv

variable {K : Type} (e : ScanEnv K)

/-- A transaction among some spends an output. -/
def SpentBy (l : List (CBlock × CTransaction)) (hash : Uint256) (i : Nat) : Prop :=
  ∃ p ∈ l, ∃ txin ∈ p.2.vin, txin.prevout = ⟨hash, i⟩

/-- An own output of a transaction. -/
def OwnOut (keys : K) (tx : CTransaction) (i : Nat) : Prop :=
  ∃ txout, tx.vout[i]? = some txout ∧ e.isMine keys txout = true

/-- The transaction involves the wallet as it is. -/
def Touches (w : ScanWallet K) (tx : CTransaction) : Prop :=
  (e.view w).isMineTx e.P tx = true ∨ (e.view w).isFromMe e.P tx = true

/-- The scanned transactions are those of a chain: with different hashes, spending
what comes before them only, and as the index has them. -/
structure IsChain : Prop where
  distinct : (e.scanned.map fun p => p.2.getHash e.P).Nodup
  ordered : ∀ before p after, e.scanned = before ++ p :: after → ∀ txin ∈ p.2.vin, ∀ q ∈ p :: after,
    txin.prevout.hash ≠ q.2.getHash e.P
  index : ∀ p ∈ e.scanned, ∀ i, e.SpentInIndex (p.2.getHash e.P) i → SpentBy e.scanned (p.2.getHash e.P) i

/-- **The wallet has what is its own of the chain**, no more and no less, with
the spent flags of the chain, and of each transaction just the notes that are
`notes`. -/
structure FromChain (notes : CTransaction → List (String × String)) (w : ScanWallet K) : Prop where
  found : ∀ p ∈ e.scanned, (w.mapWallet.lookup (p.2.getHash e.P)).isSome = true ↔ e.Touches w p.2
  spent : ∀ hash wtx, w.mapWallet.lookup hash = some wtx → ∀ i < wtx.tx.vout.length,
    wtx.isSpent i = true ↔ e.OwnOut w.keys wtx.tx i ∧ SpentBy e.scanned hash i
  notes : ∀ hash wtx, w.mapWallet.lookup hash = some wtx → ∀ k, wtx.note k = (notes wtx.tx).lookup (narrKey k)

end ScanEnv

/-- What the commands meet: a scan whose keys are found by the libraries `L`, the
redeem scripts of the wallet, and its file. -/
structure RescanEnv (G : Type) [AddCommGroup G] extends ScanEnv StealthWallet where
  L : StealthLibs G
  scripts : List CScript
  finder : toKeyFinder = L.finder scripts
  records : TxRecords

namespace StealthLibs

variable {G : Type} [AddCommGroup G] (L : StealthLibs G)

/-- The ephemeral key that an output gives. -/
def ephemeralKey (txout : CTxOut) : Option (List UInt8) :=
  match getOp txout.scriptPubKey with
  | none => none
  | some (opCode, _, itTxA) =>
    if opCode ≠ OP_RETURN then none
    else
      match getOp itTxA with
      | none => none
      | some (_, vchEphemPK, _) => if vchEphemPK.length ≠ 33 then none else some vchEphemPK

/-- Of the keys that the other outputs pay to, the wallet has those its stealth
addresses lead to from an ephemeral key. -/
def HeldFor (w : StealthWallet) (nOutputIdOuter : Nat) (vchEphemPK : List UInt8) (vout : List (CTxOut × Nat)) : Prop :=
  ∀ o ∈ vout, o.2 ≠ nOutputIdOuter → ∀ id, extractDestination L.hash160 o.1.scriptPubKey = some (.keyID id) →
    id ∈ w.mapKeys ∨ L.Foreign w.stealthAddresses vchEphemPK id

/-- **The wallet has the keys** that its stealth addresses lead to in a
transaction. -/
def Held (w : StealthWallet) (tx : CTransaction) : Prop :=
  ∀ o ∈ tx.vout.zipIdx, ∀ vchEphemPK, ephemeralKey o.1 = some vchEphemPK → L.HeldFor w o.2 vchEphemPK tx.vout.zipIdx

end StealthLibs

/-- The plain notes of a transaction, those that are read without a key. -/
def plainNotes (tx : CTransaction) : List (String × String) :=
  (findStealthTransactions (fun _ _ _ s => s) tx () ∅).2.2.entries.map fun it => (it.1, noteText it.2)

namespace RescanEnv

variable {G : Type} [AddCommGroup G] (e : RescanEnv G)

/-- A wallet whose transactions are all in the main chain, whose keys, scripts and
stealth addresses cover them, and whose birthday excludes no block; and the
wallet file takes and deletes its records. -/
structure Rescannable (w : ScanWallet StealthWallet) : Prop where
  chain : e.IsChain
  keyed : (e.view w).Keyed e.P
  inChain : ∀ hash wtx, w.mapWallet.lookup hash = some wtx → ∃ block ∈ e.chain, wtx.tx ∈ block.vtx
  held : ∀ block ∈ e.chain, ∀ tx ∈ block.vtx, e.L.Held w.keys tx
  birthday : e.scannedBlocks = e.chain
  recorded : ∀ hash, (w.mapWallet.lookup hash).isSome = true → hash ∈ e.records.hashes ∧ e.records.fDeleted hash = true
  written : ∀ block ∈ e.chain, ∀ tx ∈ block.vtx, e.fWritten 0 tx = true

end RescanEnv

/-! ## Exactly what WalletUpdateSpent marks -/

section

variable {P : Params} {w w' : CWallet} {hash : Uint256} {tx : CTransaction}

/-- A wallet transaction after some inputs marked what they spend of it. -/
structure MarkedBy (P : Params) (keystore : CKeyStore) (hash : Uint256) (vin : List CTxIn) (wtx wtx' : CWalletTx) :
    Prop where
  tx : wtx'.tx = wtx.tx
  mapValue : wtx'.mapValue = wtx.mapValue
  flags : ∀ i < wtx.tx.vout.length, wtx'.isSpent i = true ↔ wtx.isSpent i = true ∨
    (∃ txout, wtx.tx.vout[i]? = some txout ∧ P.isMineScript keystore txout.scriptPubKey = true) ∧
      ∃ txin ∈ vin, txin.prevout = ⟨hash, i⟩

theorem MarkedBy.nil {keystore : CKeyStore} (wtx : CWalletTx) : MarkedBy P keystore hash [] wtx wtx :=
  ⟨rfl, rfl, fun _ _ => ⟨.inl, fun h => h.elim id fun h => by obtain ⟨-, txin, hmem, -⟩ := h; cases hmem⟩⟩

/-- One input. -/
theorem exists_marked_spendPrevout (txin : CTxIn) {wtx' : CWalletTx}
    (h : (spendPrevout P w txin).mapWallet.lookup hash = some wtx') :
    ∃ wtx, w.mapWallet.lookup hash = some wtx ∧ MarkedBy P w.keystore hash [txin] wtx wtx' := by
  -- where nothing is marked, there is nothing to mark
  have hsame : (∀ wtx txout, w.mapWallet.lookup txin.prevout.hash = some wtx →
      wtx.tx.vout[txin.prevout.n]? = some txout → w.isMine P txout = true → wtx.isSpent txin.prevout.n = true) →
      w.mapWallet.lookup hash = some wtx' →
        ∃ wtx, w.mapWallet.lookup hash = some wtx ∧ MarkedBy P w.keystore hash [txin] wtx wtx' := by
    intro hnone hlookup
    refine ⟨wtx', hlookup, rfl, rfl, fun i _ => ⟨.inl, fun h => h.elim id fun hmarks => ?_⟩⟩
    obtain ⟨⟨txout, htxout, hmine⟩, txin', hmem, heq⟩ := hmarks
    rw [List.mem_singleton.mp hmem] at heq
    rw [heq] at hnone
    exact hnone wtx' txout hlookup htxout hmine
  unfold spendPrevout at h
  cases hprev : w.mapWallet.lookup txin.prevout.hash with
  | none =>
    rw [hprev] at h
    exact hsame (fun wtx _ hsome => by rw [hprev] at hsome; cases hsome) h
  | some prev =>
    rw [hprev] at h
    dsimp only at h
    cases htxout : prev.tx.vout[txin.prevout.n]? with
    | none =>
      rw [htxout] at h
      refine hsame (fun wtx txout hsome hout => ?_) h
      obtain rfl := Option.some.inj (hprev.symm.trans hsome)
      rw [htxout] at hout
      cases hout
    | some txout =>
      rw [htxout] at h
      dsimp only at h
      by_cases hmark : ¬ prev.isSpent txin.prevout.n = true ∧ w.isMine P txout = true
      · rw [if_pos hmark] at h
        unfold CWallet.adjust at h
        rw [hprev] at h
        dsimp only at h
        by_cases heq : hash = txin.prevout.hash
        · subst heq
          rw [AList.lookup_insert] at h
          obtain rfl := Option.some.inj h
          refine ⟨prev, hprev, rfl, rfl, fun i hi => ?_⟩
          rw [CWalletTx.markSpent, isSpent_set hi]
          by_cases hn : txin.prevout.n = i
          · subst hn
            rw [if_pos rfl]
            exact ⟨fun _ => .inr ⟨⟨txout, htxout, hmark.2⟩, txin, List.mem_singleton_self txin, rfl⟩, fun _ => rfl⟩
          · rw [if_neg hn]
            refine ⟨.inl, fun h => h.elim id fun hmarks => absurd ?_ hn⟩
            obtain ⟨-, txin', hmem, heq⟩ := hmarks
            rw [List.mem_singleton.mp hmem] at heq
            rw [heq]
        · rw [AList.lookup_insert_ne heq] at h
          refine ⟨wtx', h, rfl, rfl, fun i _ => ⟨.inl, fun h => h.elim id fun hmarks => absurd ?_ heq⟩⟩
          obtain ⟨-, txin', hmem, heq'⟩ := hmarks
          rw [List.mem_singleton.mp hmem] at heq'
          rw [heq']
      · rw [if_neg hmark] at h
        refine hsame (fun wtx txout' hsome hout hmine => ?_) h
        obtain rfl := Option.some.inj (hprev.symm.trans hsome)
        obtain rfl := Option.some.inj (htxout.symm.trans hout)
        by_contra hnot
        exact hmark ⟨hnot, hmine⟩

theorem MarkedBy.trans {keystore : CKeyStore} {vin vin' : List CTxIn} {wtx wtx' wtx'' : CWalletTx}
    (h : MarkedBy P keystore hash vin wtx wtx') (h' : MarkedBy P keystore hash vin' wtx' wtx'') :
    MarkedBy P keystore hash (vin ++ vin') wtx wtx'' := by
  refine ⟨h'.tx.trans h.tx, h'.mapValue.trans h.mapValue, fun i hi => ?_⟩
  rw [h'.flags i (by rw [h.tx]; exact hi), h.flags i hi, h.tx]
  constructor
  · rintro ((hspent | ⟨hown, txin, hmem, heq⟩) | ⟨hown, txin, hmem, heq⟩)
    · exact .inl hspent
    · exact .inr ⟨hown, txin, List.mem_append_left vin' hmem, heq⟩
    · exact .inr ⟨hown, txin, List.mem_append_right vin hmem, heq⟩
  · rintro (hspent | ⟨hown, txin, hmem, heq⟩)
    · exact .inl (.inl hspent)
    · rcases List.mem_append.mp hmem with hmem | hmem
      · exact .inl (.inr ⟨hown, txin, hmem, heq⟩)
      · exact .inr ⟨hown, txin, hmem, heq⟩

theorem exists_marked_foldl (vin : List CTxIn) {w : CWallet} {wtx' : CWalletTx}
    (h : (vin.foldl (spendPrevout P) w).mapWallet.lookup hash = some wtx') :
    ∃ wtx, w.mapWallet.lookup hash = some wtx ∧ MarkedBy P w.keystore hash vin wtx wtx' := by
  induction vin generalizing w with
  | nil => exact ⟨wtx', h, .nil wtx'⟩
  | cons txin vin ih =>
    obtain ⟨wtx₁, hlookup₁, hlater⟩ := ih h
    obtain ⟨wtx, hlookup, hfirst⟩ := exists_marked_spendPrevout txin hlookup₁
    rw [(spendPrevout_marks (P := P) (w := w) txin).1.keystore] at hlater
    exact ⟨wtx, hlookup, hfirst.trans hlater⟩

/-- The loop over the outputs takes marks from one transaction only. -/
theorem exists_unmarked_foldl (hash' : Uint256) (vout : List (CTxOut × Nat)) {w : CWallet} {wtx' : CWalletTx}
    (h : (vout.foldl (fun w (txout, i) => if w.isMine P txout then w.adjust hash' (·.markUnspent i) else w)
      w).mapWallet.lookup hash = some wtx') :
    ∃ wtx, w.mapWallet.lookup hash = some wtx ∧ wtx'.tx = wtx.tx ∧ wtx'.mapValue = wtx.mapValue ∧
      (hash ≠ hash' → wtx' = wtx) ∧ ∀ i < wtx.tx.vout.length, wtx'.isSpent i = true → wtx.isSpent i = true := by
  induction vout generalizing w with
  | nil => exact ⟨wtx', h, rfl, rfl, fun _ => rfl, fun _ _ h => h⟩
  | cons out vout ih =>
    obtain ⟨txout, i⟩ := out
    obtain ⟨wtx₁, hlookup₁, htx₁, hvalue₁, hother₁, hflags₁⟩ := ih h
    dsimp only at hlookup₁
    by_cases hmine : w.isMine P txout = true
    · rw [if_pos hmine] at hlookup₁
      unfold CWallet.adjust at hlookup₁
      cases hprev : w.mapWallet.lookup hash' with
      | none =>
        rw [hprev] at hlookup₁
        exact ⟨wtx₁, hlookup₁, htx₁, hvalue₁, hother₁, hflags₁⟩
      | some prev =>
        rw [hprev] at hlookup₁
        dsimp only at hlookup₁
        by_cases heq : hash = hash'
        · subst heq
          rw [AList.lookup_insert] at hlookup₁
          obtain rfl := Option.some.inj hlookup₁
          refine ⟨prev, hprev, htx₁, hvalue₁, fun hne => absurd rfl hne, fun n hn hspent => ?_⟩
          have hbefore := hflags₁ n hn hspent
          rw [CWalletTx.markUnspent, isSpent_set hn] at hbefore
          split at hbefore
          · cases hbefore
          · exact hbefore
        · rw [AList.lookup_insert_ne heq] at hlookup₁
          exact ⟨wtx₁, hlookup₁, htx₁, hvalue₁, hother₁, hflags₁⟩
    · rw [if_neg hmine] at hlookup₁
      exact ⟨wtx₁, hlookup₁, htx₁, hvalue₁, hother₁, hflags₁⟩

/-- **What `WalletUpdateSpent` marks** of a transaction: what the other spends of
it. A transaction in a block that has no marks gets none, where it does not
spend its own outputs. -/
theorem exists_marked (fBlock : Bool) {wtx' : CWalletTx} (hself : ∀ txin ∈ tx.vin, txin.prevout.hash ≠ tx.getHash P)
    (h : (w.walletUpdateSpent P tx fBlock).mapWallet.lookup hash = some wtx') :
    ∃ wtx, w.mapWallet.lookup hash = some wtx ∧
      ((hash = tx.getHash P → ∀ i < wtx.tx.vout.length, wtx.isSpent i = false) →
        MarkedBy P w.keystore hash tx.vin wtx wtx') := by
  cases fBlock with
  | false =>
    obtain ⟨wtx, hlookup, hmarked⟩ := exists_marked_foldl tx.vin h
    exact ⟨wtx, hlookup, fun _ => hmarked⟩
  | true =>
    obtain ⟨wtx₁, hlookup₁, htx₁, hvalue₁, hother₁, hflags₁⟩ := exists_unmarked_foldl (tx.getHash P) tx.vout.zipIdx h
    obtain ⟨wtx, hlookup, hmarked⟩ := exists_marked_foldl tx.vin hlookup₁
    refine ⟨wtx, hlookup, fun hnew => ?_⟩
    by_cases heq : hash = tx.getHash P
    · refine ⟨htx₁.trans hmarked.tx, hvalue₁.trans hmarked.mapValue, fun i hi => ?_⟩
      have hnone : ¬ (wtx.isSpent i = true ∨
          (∃ txout, wtx.tx.vout[i]? = some txout ∧ P.isMineScript w.keystore txout.scriptPubKey = true) ∧
            ∃ txin ∈ tx.vin, txin.prevout = ⟨hash, i⟩) := by
        rintro (hspent | ⟨-, txin, hmem, hprevout⟩)
        · rw [hnew heq i hi] at hspent
          cases hspent
        · refine hself txin hmem ?_
          rw [hprevout, heq]
      refine ⟨fun hspent => absurd ?_ hnone, fun hspent => absurd hspent hnone⟩
      exact (hmarked.flags i hi).mp (hflags₁ i (by rw [hmarked.tx]; exact hi) hspent)
    · rw [hother₁ heq]
      exact hmarked

/-! ## What involves a wallet -/

theorem isMineTx_congr (hkeystore : w'.keystore = w.keystore) : w'.isMineTx P tx = w.isMineTx P tx := by
  unfold CWallet.isMineTx CWallet.isMine
  rw [hkeystore]

/-- Whether a transaction is from the wallet depends on the transactions it
spends. -/
theorem isFromMe_congr (hkeystore : w'.keystore = w.keystore)
    (htxs : ∀ txin ∈ tx.vin, (w'.mapWallet.lookup txin.prevout.hash).map CWalletTx.tx =
      (w.mapWallet.lookup txin.prevout.hash).map CWalletTx.tx) :
    w'.isFromMe P tx = w.isFromMe P tx := by
  have hdebit : ∀ txin ∈ tx.vin, w'.getDebitIn P txin = w.getDebitIn P txin := by
    intro txin hmem
    have hsame := htxs txin hmem
    unfold CWallet.getDebitIn CWallet.isMine
    rw [hkeystore]
    cases hlookup : w.mapWallet.lookup txin.prevout.hash with
    | none =>
      rw [hlookup, Option.map_none, Option.map_eq_none_iff] at hsame
      rw [hsame]
    | some wtx =>
      rw [hlookup, Option.map_some] at hsame
      obtain ⟨wtx', hlookup', htx⟩ := Option.map_eq_some_iff.mp hsame
      rw [hlookup']
      dsimp only
      rw [htx]
  unfold CWallet.isFromMe CWallet.getDebit
  rw [List.map_congr_left hdebit]

end

/-! ## A scan from nothing -/

namespace ScanEnv

section

variable {K : Type} {e : ScanEnv K} {w w' : ScanWallet K} {notes : CTransaction → List (String × String)}
  {p q : CBlock × CTransaction} {l after : List (CBlock × CTransaction)} {hash : Uint256} {Kept : K → Prop}

/-- The scan finds nothing new for the key store, and of each transaction the
notes that are `notes`. -/
structure Settled (e : ScanEnv K) (notes : CTransaction → List (String × String)) (Kept : K → Prop) : Prop where
  still : ∀ keys keys', Kept keys → Kept keys' → e.store keys = e.store keys'
  step : ∀ p ∈ e.scanned, ∀ keys, Kept keys → Kept (e.find keys p.2).1 ∧ (e.find keys p.2).2 = notes p.2

/-- What the scan has made of the transactions it has read. -/
structure Scanned (e : ScanEnv K) (notes : CTransaction → List (String × String)) (Kept : K → Prop)
    (l : List (CBlock × CTransaction)) (w : ScanWallet K) : Prop where
  kept : Kept w.keys
  found : ∀ hash, (w.mapWallet.lookup hash).isSome = true ↔ ∃ p ∈ l, p.2.getHash e.P = hash ∧ e.Touches w p.2
  entry : ∀ hash wtx, w.mapWallet.lookup hash = some wtx → (∃ p ∈ l, wtx.tx = p.2 ∧ p.2.getHash e.P = hash) ∧
    wtx.mapValue = notes wtx.tx ∧
    ∀ i < wtx.tx.vout.length, wtx.isSpent i = true ↔ e.OwnOut w.keys wtx.tx i ∧ SpentBy l hash i

theorem IsChain.new (h : e.IsChain) (hsplit : e.scanned = l ++ p :: after) (hq : q ∈ l) :
    q.2.getHash e.P ≠ p.2.getHash e.P := by
  have hdistinct := h.distinct
  rw [hsplit, List.map_append, List.map_cons, List.nodup_append] at hdistinct
  exact hdistinct.2.2 _ (List.mem_map_of_mem hq) _ List.mem_cons_self

/-- No transaction that was read spends an output of the next, nor does that. -/
theorem IsChain.unspent (h : e.IsChain) (hsplit : e.scanned = l ++ p :: after) (hq : q ∈ l ++ [p]) :
    ∀ txin ∈ q.2.vin, txin.prevout.hash ≠ p.2.getHash e.P := by
  intro txin hmem
  rcases List.mem_append.mp hq with hq | hq
  · obtain ⟨before, rest, rfl⟩ := List.append_of_mem hq
    refine h.ordered before q (rest ++ p :: after) ?_ txin hmem p (by simp)
    rw [hsplit, List.append_assoc, List.cons_append]
  · rw [List.mem_singleton.mp hq] at hmem
    exact h.ordered l p after hsplit txin hmem p List.mem_cons_self

/-- **One transaction more**, when the wallet before its marks is `b`: with the
new transaction, or without it. -/
theorem Scanned.snoc (hscanned : e.Scanned notes Kept l w) (hchain : e.IsChain) (hsettled : e.Settled notes Kept)
    (hsplit : e.scanned = l ++ p :: after) {b : CWallet} {fBlock : Bool}
    (hview : e.view w' = b.walletUpdateSpent e.P p.2 fBlock) (hkept : Kept w'.keys) (entry : Option CWalletTx)
    (hkeystore : b.keystore = e.store w.keys)
    (hb : ∀ hash, b.mapWallet.lookup hash = if hash = p.2.getHash e.P then entry else w.mapWallet.lookup hash)
    (hentry : ∀ wtx, entry = some wtx → wtx.tx = p.2 ∧ wtx.mapValue = notes p.2 ∧ ∀ i, wtx.isSpent i = false)
    (htouches : entry.isSome = true ↔ e.Touches w p.2) : e.Scanned notes Kept (l ++ [p]) w' := by
  have hstore : e.store w'.keys = e.store w.keys := hsettled.still _ _ hkept hscanned.kept
  have hmap : w'.mapWallet = (b.walletUpdateSpent e.P p.2 fBlock).mapWallet := congrArg CWallet.mapWallet hview
  have hsame := (walletUpdateSpent_spec e.P b p.2 fBlock).1
  have hown : ∀ tx i, e.OwnOut w'.keys tx i ↔ e.OwnOut w.keys tx i := by
    intro tx i
    simp only [OwnOut, isMine, hstore]
  -- the new transaction is spent by none of these, so they involve the wallet as before
  have hinvolved : ∀ q ∈ l ++ [p], (e.Touches w' q.2 ↔ e.Touches w q.2) := by
    intro q hq
    have hmine : (e.view w').isMineTx e.P q.2 = (e.view w).isMineTx e.P q.2 := isMineTx_congr hstore
    have hfrom : (e.view w').isFromMe e.P q.2 = (e.view w).isFromMe e.P q.2 := by
      refine isFromMe_congr hstore fun txin hmem => ?_
      show (w'.mapWallet.lookup txin.prevout.hash).map CWalletTx.tx = _
      rw [hmap, hsame.txs, hb, if_neg (hchain.unspent hsplit hq txin hmem)]
      rfl
    rw [Touches, Touches, hmine, hfrom]
  have hlast : p ∈ l ++ [p] := List.mem_append_right l (List.mem_singleton_self p)
  refine ⟨hkept, fun hash => ?_, fun hash wtx' hlookup' => ?_⟩
  · rw [hmap, hsame.isSome, hb]
    by_cases heq : hash = p.2.getHash e.P
    · rw [if_pos heq, htouches, ← hinvolved p hlast]
      refine ⟨fun h => ⟨p, hlast, heq.symm, h⟩, fun htouched => ?_⟩
      obtain ⟨q, hq, hhash, h⟩ := htouched
      rcases List.mem_append.mp hq with hq | hq
      · exact absurd (hhash.trans heq) (hchain.new hsplit hq)
      · rw [← List.mem_singleton.mp hq]
        exact h
    · rw [if_neg heq, hscanned.found]
      constructor
      · rintro ⟨q, hq, hhash, h⟩
        have hq' : q ∈ l ++ [p] := List.mem_append_left [p] hq
        exact ⟨q, hq', hhash, (hinvolved q hq').mpr h⟩
      · rintro ⟨q, hq, hhash, h⟩
        have h' := (hinvolved q hq).mp h
        rcases List.mem_append.mp hq with hq | hq
        · exact ⟨q, hq, hhash, h'⟩
        · rw [List.mem_singleton.mp hq] at hhash
          exact absurd hhash.symm heq
  · rw [hmap] at hlookup'
    obtain ⟨wtx, hlookup, hmarked⟩ := exists_marked fBlock (hchain.unspent hsplit hlast) hlookup'
    rw [hb] at hlookup
    by_cases heq : hash = p.2.getHash e.P
    · rw [if_pos heq] at hlookup
      obtain ⟨htx, hvalue, hspent⟩ := hentry wtx hlookup
      have hmarks := hmarked fun _ i _ => hspent i
      refine ⟨⟨p, hlast, hmarks.tx.trans htx, heq.symm⟩, ?_, fun i hi => ?_⟩
      · rw [hmarks.mapValue, hmarks.tx, htx, hvalue]
      · rw [hmarks.tx] at hi
        rw [hmarks.flags i hi, hspent i]
        constructor
        · rintro (h | ⟨-, txin, hmem, hprevout⟩)
          · cases h
          · refine absurd ?_ (hchain.unspent hsplit hlast txin hmem)
            rw [hprevout, heq]
        · rintro ⟨-, q, hq, txin, hmem, hprevout⟩
          refine absurd ?_ (hchain.unspent hsplit hq txin hmem)
          rw [hprevout, heq]
    · rw [if_neg heq] at hlookup
      have hmarks := hmarked fun h => absurd h heq
      obtain ⟨⟨q, hq, htx, hhash⟩, hvalue, hspent⟩ := hscanned.entry hash wtx hlookup
      refine ⟨⟨q, List.mem_append_left [p] hq, hmarks.tx.trans htx, hhash⟩, ?_, fun i hi => ?_⟩
      · rw [hmarks.mapValue, hmarks.tx, hvalue]
      · rw [hmarks.tx] at hi ⊢
        rw [hmarks.flags i hi, hspent i hi, hown, hkeystore]
        constructor
        · rintro (⟨hmine, q, hq, hspends⟩ | ⟨hmine, hspends⟩)
          · exact ⟨hmine, q, List.mem_append_left [p] hq, hspends⟩
          · exact ⟨hmine, p, hlast, hspends⟩
        · rintro ⟨hmine, q, hq, hspends⟩
          rcases List.mem_append.mp hq with hq | hq
          · exact .inl ⟨hmine, q, hq, hspends⟩
          · rw [List.mem_singleton.mp hq] at hspends
            exact .inr ⟨hmine, hspends⟩

theorem addToWallet_new {P : Params} {v : CWallet} {nNow : Int} {wtxIn : CWalletTx}
    (hnew : v.mapWallet.lookup (wtxIn.tx.getHash P) = none) : v.addToWallet P nNow true wtxIn =
      CWallet.walletUpdateSpent P { v with
        mapWallet := v.mapWallet.insert (wtxIn.tx.getHash P)
          { wtxIn with nTimeReceived := nNow, nOrderPos := v.nOrderPosNext }
        nOrderPosNext := v.nOrderPosNext + 1 } wtxIn.tx (wtxIn.hashBlock ≠ 0) := by
  unfold CWallet.addToWallet
  dsimp only
  rw [hnew]
  rfl

theorem walletTx_fresh {block : CBlock} {mapNarr : List (String × String)} {tx : CTransaction} :
    (e.walletTx block mapNarr tx).mapValue = mapNarr ∧ (e.walletTx block mapNarr tx).vfSpent = [] := by
  unfold walletTx CWalletTx.setMerkleBranch
  split <;> exact ⟨rfl, rfl⟩

/-- **What the scan makes of a transaction.** -/
theorem Scanned.step (hscanned : e.Scanned notes Kept l w) (hchain : e.IsChain) (hsettled : e.Settled notes Kept)
    (hsplit : e.scanned = l ++ p :: after) (hwritten : e.fWritten 0 p.2 = true) :
    e.Scanned notes Kept (l ++ [p]) (e.addToWalletIfInvolvingMe 0 true p.1 w p.2).1 := by
  have hmem : p ∈ e.scanned := by
    rw [hsplit]
    exact List.mem_append_right l List.mem_cons_self
  obtain ⟨hkept, hnotes⟩ := hsettled.step p hmem w.keys hscanned.kept
  have hnew : w.mapWallet.lookup (p.2.getHash e.P) = none := by
    cases hlookup : w.mapWallet.lookup (p.2.getHash e.P) with
    | none => rfl
    | some wtx =>
      obtain ⟨⟨q, hq, -, hhash⟩, -⟩ := hscanned.entry _ wtx hlookup
      exact absurd hhash (hchain.new hsplit hq)
  have hfound : e.view (e.found w p.2) = e.view w := by
    show (⟨w.mapWallet, e.store (e.find w.keys p.2).1, w.nOrderPosNext⟩ : CWallet) = _
    rw [hsettled.still _ _ hkept hscanned.kept]
    rfl
  have hinvolves : e.Involves w p.2 ↔ e.Touches w p.2 := by rw [Involves, hfound, Touches]
  have hstep := step_cases e 0 true p.1 w p.2 fun _ => hnew
  generalize e.addToWalletIfInvolvingMe 0 true p.1 w p.2 = r at hstep
  cases hstep with
  | existed hexisted =>
    rw [hnew] at hexisted
    cases hexisted
  | @added _ htouches w' hkeys hview =>
    rw [hfound, hnotes, hwritten, addToWallet_new (by rw [tx_walletTx]; exact hnew), tx_walletTx] at hview
    obtain ⟨hvalue, hflags⟩ := @walletTx_fresh K e p.1 (notes p.2) p.2
    rw [← hkeys] at hkept
    refine hscanned.snoc hchain hsettled hsplit hview hkept (some { e.walletTx p.1 (notes p.2) p.2 with
      tx := p.2, nTimeReceived := e.nNow 0 p.2, nOrderPos := w.nOrderPosNext }) rfl (fun hash => ?_) (fun wtx heq => ?_)
      ⟨fun _ => hinvolves.mp htouches, fun _ => rfl⟩
    · by_cases heq : hash = p.2.getHash e.P
      · rw [if_pos heq, heq]
        dsimp only
        rw [AList.lookup_insert]
        rfl
      · rw [if_neg heq]
        dsimp only
        rw [AList.lookup_insert_ne heq]
        rfl
    · obtain rfl := Option.some.inj heq
      refine ⟨rfl, hvalue, fun i => ?_⟩
      show (((e.walletTx p.1 (notes p.2) p.2).vfSpent)[i]?).getD false = false
      rw [hflags]
      rfl
  | @marked _ hnot w' hkeys hview =>
    rw [hfound] at hview
    rw [← hkeys] at hkept
    refine hscanned.snoc hchain hsettled hsplit hview hkept none rfl (fun hash => ?_) (fun wtx heq => (nomatch heq))
      ⟨fun h => (nomatch h), fun h => absurd (hinvolves.mpr h) hnot⟩
    by_cases heq : hash = p.2.getHash e.P
    · rw [if_pos heq, heq]
      exact hnew
    · rw [if_neg heq]
      rfl

/-- **What the scan makes of the chain.** -/
theorem Scanned.run (hchain : e.IsChain) (hsettled : e.Settled notes Kept)
    (hwritten : ∀ p ∈ e.scanned, e.fWritten 0 p.2 = true) (after : List (CBlock × CTransaction)) :
    ∀ (l : List (CBlock × CTransaction)) (s : ScanWallet K × Nat), e.scanned = l ++ after → e.Scanned notes Kept l s.1 →
      e.Scanned notes Kept e.scanned (Runs.play (e.scanStep 0 true) after s).1 := by
  induction after with
  | nil =>
    intro l s hsplit hscanned
    rw [hsplit, List.append_nil]
    exact hscanned
  | cons p after ih =>
    intro l s hsplit hscanned
    have hmem : p ∈ e.scanned := by
      rw [hsplit]
      exact List.mem_append_right l List.mem_cons_self
    refine ih (l ++ [p]) (e.scanStep 0 true p s) (by rw [hsplit, List.append_assoc]; rfl) ?_
    exact hscanned.step hchain hsettled hsplit (hwritten p hmem)

theorem scanned_scan (hchain : e.IsChain) (hsettled : e.Settled notes Kept)
    (hwritten : ∀ p ∈ e.scanned, e.fWritten 0 p.2 = true) (hempty : ∀ hash, w.mapWallet.lookup hash = none)
    (hkept : Kept w.keys) :
    e.Scanned notes Kept e.scanned (e.scanForWalletTransactions 0 true w).1 := by
  rw [scan_eq_play]
  refine Scanned.run hchain hsettled hwritten e.scanned [] (w, 0) rfl ⟨hkept, fun hash => ?_, fun hash wtx h => ?_⟩
  · rw [hempty]
    exact ⟨fun h => (nomatch h), fun ⟨p, hp, _⟩ => (nomatch hp)⟩
  · rw [hempty] at h
    cases h

/-! ## The old wallet and the new one -/

theorem IsChain.inj (h : e.IsChain) (hp : p ∈ e.scanned) (hq : q ∈ e.scanned)
    (heq : p.2.getHash e.P = q.2.getHash e.P) : p = q :=
  List.inj_on_of_nodup_map h.distinct hp hq heq

/-- The transactions of the wallet are from the chain. -/
def InChain (e : ScanEnv K) (w : ScanWallet K) : Prop :=
  ∀ hash wtx, w.mapWallet.lookup hash = some wtx → ∃ p ∈ e.scanned, wtx.tx = p.2 ∧ p.2.getHash e.P = hash

theorem touches_congr {tx : CTransaction} (hstore : e.store w'.keys = e.store w.keys)
    (htxs : ∀ txin ∈ tx.vin, (w'.mapWallet.lookup txin.prevout.hash).map CWalletTx.tx =
      (w.mapWallet.lookup txin.prevout.hash).map CWalletTx.tx) : e.Touches w' tx ↔ e.Touches w tx := by
  have hmine : (e.view w').isMineTx e.P tx = (e.view w).isMineTx e.P tx := isMineTx_congr hstore
  have hfrom : (e.view w').isFromMe e.P tx = (e.view w).isFromMe e.P tx := isFromMe_congr hstore htxs
  rw [Touches, Touches, hmine, hfrom]

/-- What two wallets have of a hash is one transaction, if both have one. -/
theorem InChain.map_tx (hchain : e.IsChain) (hw : e.InChain w) (hw' : e.InChain w')
    (hsome : (w'.mapWallet.lookup hash).isSome = true ↔ (w.mapWallet.lookup hash).isSome = true) :
    (w'.mapWallet.lookup hash).map CWalletTx.tx = (w.mapWallet.lookup hash).map CWalletTx.tx := by
  cases hlookup : w.mapWallet.lookup hash with
  | none =>
    cases hlookup' : w'.mapWallet.lookup hash with
    | none => rfl
    | some wtx' =>
      rw [hlookup, hlookup'] at hsome
      cases hsome.mp rfl
  | some wtx =>
    cases hlookup' : w'.mapWallet.lookup hash with
    | none =>
      rw [hlookup, hlookup'] at hsome
      cases hsome.mpr rfl
    | some wtx' =>
      obtain ⟨p, hp, htx, hhash⟩ := hw hash wtx hlookup
      obtain ⟨q, hq, htx', hhash'⟩ := hw' hash wtx' hlookup'
      rw [Option.map_some, Option.map_some, htx, htx', hchain.inj hp hq (hhash.trans hhash'.symm)]

/-- **Two wallets that have what involves them of one chain have the same
transactions**: up to each place of the chain, by what comes before it. -/
theorem same_txs (hchain : e.IsChain) (hw : e.InChain w) (hw' : e.InChain w')
    (hstore : e.store w'.keys = e.store w.keys)
    (hfound : ∀ p ∈ e.scanned, (w.mapWallet.lookup (p.2.getHash e.P)).isSome = true ↔ e.Touches w p.2)
    (hfound' : ∀ p ∈ e.scanned, (w'.mapWallet.lookup (p.2.getHash e.P)).isSome = true ↔ e.Touches w' p.2)
    (hash : Uint256) :
    (w'.mapWallet.lookup hash).map CWalletTx.tx = (w.mapWallet.lookup hash).map CWalletTx.tx := by
  have hprefix : ∀ l after, e.scanned = l ++ after → ∀ p ∈ l,
      (w'.mapWallet.lookup (p.2.getHash e.P)).map CWalletTx.tx =
        (w.mapWallet.lookup (p.2.getHash e.P)).map CWalletTx.tx := by
    intro l
    induction l using List.reverseRecOn with
    | nil => exact fun after _ p hp => nomatch hp
    | append_singleton l p ih =>
      intro after hsplit
      rw [List.append_assoc, List.singleton_append] at hsplit
      have hbefore := ih (p :: after) hsplit
      have hmem : p ∈ e.scanned := by
        rw [hsplit]
        exact List.mem_append_right l List.mem_cons_self
      have hspent : ∀ txin ∈ p.2.vin, (w'.mapWallet.lookup txin.prevout.hash).map CWalletTx.tx =
          (w.mapWallet.lookup txin.prevout.hash).map CWalletTx.tx := by
        intro txin htxin
        by_cases hearlier : ∃ q ∈ l, q.2.getHash e.P = txin.prevout.hash
        · obtain ⟨q, hq, hhash⟩ := hearlier
          rw [← hhash]
          exact hbefore q hq
        · -- no transaction of the chain has this hash, and so none of the wallets
          have hnone : ∀ q ∈ e.scanned, q.2.getHash e.P ≠ txin.prevout.hash := by
            intro q hq hhash
            rw [hsplit] at hq
            rcases List.mem_append.mp hq with hq | hq
            · exact hearlier ⟨q, hq, hhash⟩
            · exact hchain.ordered l p after hsplit txin htxin q hq hhash.symm
          have hgone : ∀ {v : ScanWallet K}, e.InChain v → v.mapWallet.lookup txin.prevout.hash = none := by
            intro v hv
            cases hlookup : v.mapWallet.lookup txin.prevout.hash with
            | none => rfl
            | some wtx =>
              obtain ⟨q, hq, -, hhash⟩ := hv _ wtx hlookup
              exact absurd hhash (hnone q hq)
          rw [hgone hw, hgone hw']
      intro q hq
      rcases List.mem_append.mp hq with hq | hq
      · exact hbefore q hq
      · rw [List.mem_singleton.mp hq]
        refine InChain.map_tx hchain hw hw' ?_
        rw [hfound p hmem, hfound' p hmem]
        exact touches_congr hstore hspent
  by_cases hthere : ∃ p ∈ e.scanned, p.2.getHash e.P = hash
  · obtain ⟨p, hp, rfl⟩ := hthere
    exact hprefix e.scanned [] (List.append_nil _).symm p hp
  · refine InChain.map_tx hchain hw hw' ⟨fun h => ?_, fun h => ?_⟩
    · obtain ⟨wtx', hlookup'⟩ := Option.isSome_iff_exists.mp h
      obtain ⟨p, hp, -, hhash⟩ := hw' hash wtx' hlookup'
      exact absurd ⟨p, hp, hhash⟩ hthere
    · obtain ⟨wtx, hlookup⟩ := Option.isSome_iff_exists.mp h
      obtain ⟨p, hp, -, hhash⟩ := hw hash wtx hlookup
      exact absurd ⟨p, hp, hhash⟩ hthere

theorem Scanned.inChain (h : e.Scanned notes Kept e.scanned w) : e.InChain w := fun hash wtx hlookup =>
  (h.entry hash wtx hlookup).1

theorem Scanned.fromChain (h : e.Scanned notes Kept e.scanned w) (hchain : e.IsChain) : e.FromChain notes w where
  found p hp := by
    rw [h.found]
    refine ⟨fun ⟨q, hq, hhash, htouches⟩ => ?_, fun htouches => ⟨p, hp, rfl, htouches⟩⟩
    rw [← hchain.inj hq hp hhash]
    exact htouches
  spent hash wtx hlookup := (h.entry hash wtx hlookup).2.2
  notes hash wtx hlookup k := by rw [CWalletTx.note, (h.entry hash wtx hlookup).2.1]

/-- A wallet with the marks of the chain is closed. -/
theorem FromChain.closed (h : e.FromChain notes w) (hchain : e.IsChain) (hw : e.InChain w) : e.Closed w := by
  intro hash wtx hlookup i hopen
  obtain ⟨p, hp, htx, hhash⟩ := hw hash wtx hlookup
  have hindex := hopen.index
  rw [htx] at hindex
  have hspent := hchain.index p hp i hindex
  rw [hhash] at hspent
  obtain ⟨txout, htxout, -⟩ := hopen.own
  have hmarked := (h.spent hash wtx hlookup i (List.getElem?_eq_some_iff.mp htxout).1).mpr ⟨hopen.own, hspent⟩
  rw [hopen.unmarked] at hmarked
  cases hmarked

/-- **A wallet that is made from the chain reproduces exactly the wallets that
are from the chain.** -/
theorem reproduces_iff (hchain : e.IsChain) (hr : e.FromChain notes w') (hinr : e.InChain w') (hinw : e.InChain w)
    (hstore : e.store w'.keys = e.store w.keys) : Reproduces w w' ↔ e.FromChain notes w := by
  have hown : ∀ tx i, e.OwnOut w'.keys tx i ↔ e.OwnOut w.keys tx i := by
    intro tx i
    simp only [OwnOut, isMine, hstore]
  constructor
  · intro h
    have hsome : ∀ hash, (w'.mapWallet.lookup hash).isSome = (w.mapWallet.lookup hash).isSome := by
      intro hash
      simpa using congrArg Option.isSome (h.txs hash)
    have hthere : ∀ hash wtx, w.mapWallet.lookup hash = some wtx →
        ∃ wtx', w'.mapWallet.lookup hash = some wtx' ∧ wtx'.tx = wtx.tx := by
      intro hash wtx hlookup
      have htx := h.txs hash
      rw [hlookup, Option.map_some] at htx
      exact Option.map_eq_some_iff.mp htx
    refine ⟨fun p hp => ?_, fun hash wtx hlookup i hi => ?_, fun hash wtx hlookup k => ?_⟩
    · rw [← hsome, hr.found p hp]
      exact touches_congr hstore fun txin _ => h.txs txin.prevout.hash
    · obtain ⟨wtx', hlookup', htx⟩ := hthere hash wtx hlookup
      rw [← h.spent hash wtx wtx' hlookup hlookup' i hi, hr.spent hash wtx' hlookup' i (by rw [htx]; exact hi),
        hown, htx]
    · obtain ⟨wtx', hlookup', htx⟩ := hthere hash wtx hlookup
      rw [← h.notes hash wtx wtx' hlookup hlookup' k, hr.notes hash wtx' hlookup' k, htx]
  · intro h
    have htxs := same_txs hchain hinw hinr hstore h.found hr.found
    have hsame : ∀ hash wtx wtx', w.mapWallet.lookup hash = some wtx → w'.mapWallet.lookup hash = some wtx' →
        wtx'.tx = wtx.tx := by
      intro hash wtx wtx' hlookup hlookup'
      have htx := htxs hash
      rw [hlookup, hlookup'] at htx
      exact Option.some.inj htx
    refine ⟨htxs, fun hash wtx wtx' hlookup hlookup' i hi => ?_, fun hash wtx wtx' hlookup hlookup' k => ?_⟩
    · have htx := hsame hash wtx wtx' hlookup hlookup'
      rw [Bool.eq_iff_iff, hr.spent hash wtx' hlookup' i (by rw [htx]; exact hi), h.spent hash wtx hlookup i hi,
        hown, htx]
    · rw [hr.notes hash wtx' hlookup' k, h.notes hash wtx hlookup k, hsame hash wtx wtx' hlookup hlookup']

end

end ScanEnv

/-! ## Keys that are there -/

namespace StealthLibs

variable {G : Type} [AddCommGroup G] {L : StealthLibs G} {vchEphemPK : List UInt8} {j : Nat} {tx : CTransaction}

/-- The keys and addresses are as before. -/
structure SameKeys (w w' : StealthWallet) : Prop where
  mapKeys : w'.mapKeys = w.mapKeys
  stealthAddresses : w'.stealthAddresses = w.stealthAddresses

theorem tryOutputs_held {s : Seeking} {vout : List (CTxOut × Nat)} (h : L.HeldFor s.keys j vchEphemPK vout) :
    L.tryOutputs j vchEphemPK vout s = s := by
  induction vout with
  | nil => rfl
  | cons o vout ih =>
    obtain ⟨txoutB, nOutputId⟩ := o
    obtain ⟨hfirst, hrest⟩ := List.forall_mem_cons.mp h
    have hlater := ih hrest
    rw [tryOutputs]
    by_cases houter : nOutputId = j
    · rw [if_pos houter, hlater]
    · rw [if_neg houter]
      split
      next ckidMatch hdest =>
        split
        · exact hlater
        next hnew =>
          have hforeign := (hfirst houter ckidMatch hdest).resolve_left hnew
          have hnone := @tryAddresses_foreign _ _ L vchEphemPK ckidMatch _ [] nOutputId s hforeign
          rw [List.append_nil] at hnone
          rw [hnone]
          exact hlater
      next => exact hlater

/-- **At an ephemeral key whose payments are known nothing is found**, and no note
either. -/
theorem seek_held {s : StealthWallet × MapNarr} {itTxA : CScript} (h : L.HeldFor s.1 j vchEphemPK tx.vout.zipIdx) :
    SameKeys s.1 (L.seek tx j vchEphemPK itTxA s).1 ∧ (L.seek tx j vchEphemPK itTxA s).2 = s.2 := by
  unfold seek
  rw [tryOutputs_held (s := ⟨itTxA, { s.1 with nStealth := s.1.nStealth + 1 }, s.2⟩) h]
  exact ⟨⟨rfl, rfl⟩, rfl⟩

theorem readOutput_held {s : StealthWallet × MapNarr} {o : CTxOut × Nat}
    (h : ∀ vchEphemPK, ephemeralKey o.1 = some vchEphemPK → L.HeldFor s.1 o.2 vchEphemPK tx.vout.zipIdx) :
    SameKeys s.1 (readOutput (L.seek tx) s o).1 ∧
      (readOutput (L.seek tx) s o).2 = (readOutput (fun _ _ _ s => s) ((), s.2) o).2 := by
  unfold readOutput
  unfold ephemeralKey at h
  cases hop : CScript.getOp o.1.scriptPubKey with
  | none => exact ⟨⟨rfl, rfl⟩, rfl⟩
  | some op =>
    obtain ⟨opCode, vch, itTxA⟩ := op
    rw [hop] at h
    dsimp only at h ⊢
    by_cases hreturn : opCode ≠ CScript.OP_RETURN
    · rw [if_pos hreturn, if_pos hreturn]
      exact ⟨⟨rfl, rfl⟩, rfl⟩
    · rw [if_neg hreturn] at h ⊢
      rw [if_neg hreturn]
      cases hkey : CScript.getOp itTxA with
      | none => exact ⟨⟨rfl, rfl⟩, rfl⟩
      | some op =>
        obtain ⟨opCode', vchEphemPK, itTxA'⟩ := op
        rw [hkey] at h
        dsimp only at h ⊢
        by_cases hsize : vchEphemPK.length ≠ 33
        · rw [if_pos hsize, if_pos hsize]
          split <;> exact ⟨⟨rfl, rfl⟩, rfl⟩
        · rw [if_neg hsize] at h ⊢
          rw [if_neg hsize]
          exact seek_held (h vchEphemPK rfl)

theorem SameKeys.heldFor {w w' : StealthWallet} {vout : List (CTxOut × Nat)} (h : SameKeys w w')
    (hheld : L.HeldFor w j vchEphemPK vout) : L.HeldFor w' j vchEphemPK vout := by
  unfold HeldFor
  rw [h.mapKeys, h.stealthAddresses]
  exact hheld

theorem foldl_held {w : StealthWallet} (hheld : L.Held w tx) :
    ∀ (l : List (CTxOut × Nat)) (s : StealthWallet × MapNarr), (∀ o ∈ l, o ∈ tx.vout.zipIdx) → SameKeys w s.1 →
      SameKeys w (l.foldl (readOutput (L.seek tx)) s).1 ∧
        (l.foldl (readOutput (L.seek tx)) s).2 = (l.foldl (readOutput fun _ _ _ s => s) ((), s.2)).2 := by
  intro l
  induction l with
  | nil => exact fun s _ hsame => ⟨hsame, rfl⟩
  | cons o l ih =>
    intro s hmem hsame
    obtain ⟨ho, hl⟩ := List.forall_mem_cons.mp hmem
    obtain ⟨hkeys, hnotes⟩ := @readOutput_held _ _ L tx s o fun vchEphemPK hkey =>
      hsame.heldFor (hheld o ho vchEphemPK hkey)
    obtain ⟨hend, hend'⟩ := ih (readOutput (L.seek tx) s o) hl
      ⟨hkeys.mapKeys.trans hsame.mapKeys, hkeys.stealthAddresses.trans hsame.stealthAddresses⟩
    refine ⟨hend, hend'.trans ?_⟩
    rw [hnotes, List.foldl_cons]

/-- **With its keys there, a transaction gives its plain notes only.** -/
theorem findStealth_held {w : StealthWallet} (h : L.Held w tx) : SameKeys w (L.findStealth w tx ∅).2.1 ∧
    (L.findStealth w tx ∅).2.2 = (findStealthTransactions (fun _ _ _ s => s) tx () ∅).2.2 := by
  unfold findStealth findStealthTransactions
  split
  · exact ⟨⟨rfl, rfl⟩, rfl⟩
  · exact foldl_held h tx.vout.zipIdx (w, ∅) (fun o ho => ho) ⟨rfl, rfl⟩

end StealthLibs

/-! ## The commands -/

theorem keys_clearwallettransactions {K : Type} {records : TxRecords} {w : ScanWallet K} :
    (clearwallettransactions records w).keys = w.keys := by
  unfold clearwallettransactions
  generalize records.hashes = hashes
  induction hashes generalizing w with
  | nil => rfl
  | cons hash hashes ih =>
    rw [List.foldl_cons, ih]
    split <;> rfl

/-- A record that is deleted takes its transaction along. -/
theorem lookup_clearwallettransactions {K : Type} {records : TxRecords} {w : ScanWallet K} {hash : Uint256}
    (h : (w.mapWallet.lookup hash).isSome = true → hash ∈ records.hashes ∧ records.fDeleted hash = true) :
    (clearwallettransactions records w).mapWallet.lookup hash = none := by
  unfold clearwallettransactions
  generalize records.hashes = hashes at h
  induction hashes generalizing w with
  | nil =>
    cases hlookup : w.mapWallet.lookup hash with
    | none => exact hlookup
    | some wtx =>
      rw [hlookup] at h
      exact nomatch (h rfl).1
  | cons first hashes ih =>
    rw [List.foldl_cons]
    refine ih fun hsome => ?_
    by_cases hdeleted : records.fDeleted first = true
    · rw [if_pos hdeleted] at hsome
      dsimp only at hsome
      by_cases heq : hash = first
      · rw [heq, AList.lookup_erase] at hsome
        cases hsome
      · rw [AList.lookup_erase_ne heq] at hsome
        obtain ⟨hmem, hhash⟩ := h hsome
        exact ⟨(List.mem_cons.mp hmem).resolve_left heq, hhash⟩
    · rw [if_neg hdeleted] at hsome
      obtain ⟨hmem, hhash⟩ := h hsome
      refine ⟨(List.mem_cons.mp hmem).resolve_left fun heq => hdeleted ?_, hhash⟩
      rw [← heq]
      exact hhash

namespace RescanEnv

variable {G : Type} [AddCommGroup G] {e : RescanEnv G} {w : ScanWallet StealthWallet}

theorem store_eq_of_sameKeys {keys keys' : StealthWallet} (h : StealthLibs.SameKeys keys keys') :
    e.store keys' = e.store keys := by
  have hstore : e.store = (e.L.finder e.scripts).store := congrArg KeyFinder.store e.finder
  rw [hstore]
  show (keys'.mapKeys.keys.map fun id => id.toList) ++ e.scripts = _
  rw [h.mapKeys]
  rfl

theorem Rescannable.mem_chain (h : e.Rescannable w) {p : CBlock × CTransaction} (hp : p ∈ e.scanned) :
    p.1 ∈ e.chain ∧ p.2 ∈ p.1.vtx := by
  obtain ⟨block, hblock, hp⟩ := List.mem_flatMap.mp hp
  obtain ⟨tx, htx, rfl⟩ := List.mem_map.mp hp
  rw [h.birthday] at hblock
  exact ⟨hblock, htx⟩

/-- **The rescan finds no keys**, and the plain notes only. -/
theorem Rescannable.settled (h : e.Rescannable w) : e.Settled plainNotes (StealthLibs.SameKeys w.keys) where
  still keys keys' hkeys hkeys' := (store_eq_of_sameKeys hkeys).trans (store_eq_of_sameKeys hkeys').symm
  step p hp keys hkeys := by
    have hfind : e.find = (e.L.finder e.scripts).find := congrArg KeyFinder.find e.finder
    obtain ⟨hblock, htx⟩ := h.mem_chain hp
    have hheld : e.L.Held keys p.2 := fun o ho vchEphemPK hkey =>
      hkeys.heldFor (h.held p.1 hblock p.2 htx o ho vchEphemPK hkey)
    obtain ⟨hsame, hnotes⟩ := StealthLibs.findStealth_held hheld
    rw [hfind]
    refine ⟨⟨hsame.mapKeys.trans hkeys.mapKeys, hsame.stealthAddresses.trans hkeys.stealthAddresses⟩, ?_⟩
    show ((e.L.findStealth keys p.2 ∅).2.2.entries.map fun it => (it.1, noteText it.2)) = _
    rw [hnotes]
    rfl

theorem Rescannable.inScanned (h : e.Rescannable w) : e.InChain w := by
  intro hash wtx hlookup
  obtain ⟨block, hblock, htx⟩ := h.inChain hash wtx hlookup
  have hmem : (block, wtx.tx) ∈ e.scanned := by
    rw [ScanEnv.scanned, h.birthday]
    exact List.mem_flatMap.mpr ⟨block, hblock, List.mem_map_of_mem htx⟩
  exact ⟨(block, wtx.tx), hmem, rfl, h.keyed hash wtx hlookup⟩

/-- **What the rescan ends with**: the wallet of the chain, with the plain notes. -/
theorem exists_rescanned (h : e.Rescannable w) : ∃ r,
    (∀ fuel, 0 < fuel → e.scanforalltxns fuel (clearwallettransactions e.records w) = some r) ∧
      e.FromChain plainNotes r ∧ e.InChain r ∧ e.store r.keys = e.store w.keys := by
  have hscanned := ScanEnv.scanned_scan (w := clearwallettransactions e.records w) h.chain h.settled
    (fun p hp => h.written p.1 (h.mem_chain hp).1 p.2 (h.mem_chain hp).2)
    (fun hash => lookup_clearwallettransactions (h.recorded hash))
    (by rw [keys_clearwallettransactions]; exact ⟨rfl, rfl⟩)
  have hfrom := hscanned.fromChain h.chain
  have hclosed := hfrom.closed h.chain hscanned.inChain
  exact ⟨_, fun fuel hfuel => ScanEnv.reaccept_closed hclosed hfuel, hfrom, hscanned.inChain,
    store_eq_of_sameKeys hscanned.kept⟩

/-- **A rescan reproduces exactly the wallets that have of the chain what involves
them, with its marks and plain notes.** -/
theorem rescan_reproduces_iff (e : RescanEnv G) (w : ScanWallet StealthWallet) (h : e.Rescannable w) : ∃ r,
    (∀ fuel, 0 < fuel → e.scanforalltxns fuel (clearwallettransactions e.records w) = some r) ∧
      (Reproduces w r ↔ e.FromChain plainNotes w) := by
  obtain ⟨r, hrun, hfrom, hin, hstore⟩ := exists_rescanned h
  exact ⟨r, hrun, ScanEnv.reproduces_iff h.chain hfrom hin h.inScanned hstore⟩

end RescanEnv

/-! ## A note that a rescan loses -/

namespace Sample

open StealthSample (secretOf group)

/-- The chain has one block, with a payment to a stealth address. -/
noncomputable def rescanEnv : RescanEnv (ZMod secp256k1Order) where
  toKeyFinder := stealthSender.toStealthLibs.finder []
  P := { params true with
    isMineScript := fun keystore script =>
      match extractDestination lastBytes script with
      | some (.keyID id) => keystore.contains id.toList
      | _ => false }
  chain := [⟨⟨1, 0, 0, 2001, 0, 700⟩, [stealthPaid], []⟩]
  readTxIndex hash := if hash = 2000 then some ⟨some ⟨1, 0, 0⟩, [none, none, none]⟩ else none
  nTimeFirstKey := 0
  nNow _ _ := 3000
  fWritten _ _ := true
  L := stealthSender.toStealthLibs
  scripts := []
  finder := rfl
  records := ⟨[2000], fun _ => true⟩

/-- The wallet after the payment has arrived. -/
noncomputable def paidWallet : ScanWallet StealthWallet :=
  (rescanEnv.scanForWalletTransactions 0 true ⟨∅, 0, stealthPayee true⟩).1

theorem entries_paidWallet : paidWallet.mapWallet.entries.map (fun it => (it.1, it.2.tx)) = [(2000, stealthPaid)] := by
  decide +kernel

theorem note_paidWallet : (paidWallet.mapWallet.lookup 2000).bind (fun wtx => wtx.note 2) = some "hi" := by
  decide +kernel

theorem lookup_paidWallet {hash : Uint256} {wtx : CWalletTx} (h : paidWallet.mapWallet.lookup hash = some wtx) :
    hash = 2000 ∧ wtx.tx = stealthPaid := by
  have hmem := List.mem_map_of_mem (f := fun it : (Σ _ : Uint256, CWalletTx) => (it.1, it.2.tx))
    (AList.mem_lookup_iff.mp h)
  rw [entries_paidWallet, List.mem_singleton] at hmem
  exact Prod.mk.inj hmem

theorem scanned_rescanEnv : rescanEnv.scanned = [(⟨⟨1, 0, 0, 2001, 0, 700⟩, [stealthPaid], []⟩, stealthPaid)] := rfl

theorem isChain_rescanEnv : rescanEnv.IsChain where
  distinct := by
    rw [scanned_rescanEnv]
    exact List.nodup_singleton _
  ordered before p after hsplit txin hmem q hq := by
    have hone : ∀ q ∈ before ++ p :: after, q.2 = stealthPaid := by
      intro q hq
      rw [← hsplit, scanned_rescanEnv, List.mem_singleton] at hq
      rw [hq]
    rw [hone p (by simp)] at hmem
    rw [hone q (List.mem_append_right before hq)]
    obtain rfl := List.mem_singleton.mp hmem
    decide
  index p hp i hspent := by
    rw [scanned_rescanEnv, List.mem_singleton] at hp
    rw [hp] at hspent
    obtain ⟨txindex, hindex, hspender⟩ := hspent
    obtain rfl : ⟨some ⟨1, 0, 0⟩, [none, none, none]⟩ = txindex := Option.some.inj hindex
    match i, hspender with
    | 0, hspender | 1, hspender | 2, hspender => cases hspender
    | _ + 3, hspender => cases hspender

theorem held_paidWallet : rescanEnv.L.Held paidWallet.keys stealthPaid := by
  have hmatch : lastBytes (pointOf 12).toList ∈ paidWallet.keys.mapKeys := by decide +kernel
  have hforeign : rescanEnv.L.Foreign paidWallet.keys.stealthAddresses (pointOf 3).toList
      (List.Vector.replicate 20 0) :=
    (apart_stealthPayee true).change _ ⟨0, rfl⟩
  intro o ho vchEphemPK hkey o' ho' hne id hid
  -- one output has the key, the two others pay to hashes
  have hkeys : stealthPaid.vout.zipIdx.map (fun o => StealthLibs.ephemeralKey o.1) =
      [none, some (pointOf 3).toList, none] := by
    decide +kernel
  have hdests : stealthPaid.vout.zipIdx.map (fun o => extractDestination lastBytes o.1.scriptPubKey) =
      [some (.keyID (List.Vector.replicate 20 0)), none, some (.keyID (lastBytes (pointOf 12).toList))] := by
    decide +kernel
  have hephemeral := List.mem_map_of_mem (f := fun o : CTxOut × Nat => StealthLibs.ephemeralKey o.1) ho
  have hdest := List.mem_map_of_mem (f := fun o : CTxOut × Nat => extractDestination lastBytes o.1.scriptPubKey) ho'
  have hid' : extractDestination lastBytes o'.1.scriptPubKey = some (.keyID id) := hid
  rw [hkeys, hkey] at hephemeral
  rw [hdests, hid'] at hdest
  obtain rfl : vchEphemPK = (pointOf 3).toList := by simpa using hephemeral
  simp only [List.mem_cons, List.not_mem_nil, reduceCtorEq, Option.some.injEq, CTxDestination.keyID.injEq, or_false,
    false_or] at hdest
  rcases hdest with rfl | rfl
  · exact .inr hforeign
  · exact .inl hmatch

theorem rescannable_paidWallet : rescanEnv.Rescannable paidWallet where
  chain := isChain_rescanEnv
  keyed hash wtx hlookup := by
    obtain ⟨rfl, htx⟩ := lookup_paidWallet hlookup
    rw [htx]
    rfl
  inChain hash wtx hlookup := ⟨_, List.mem_singleton_self _, by
    rw [(lookup_paidWallet hlookup).2]
    exact List.mem_singleton_self _⟩
  held block hblock tx htx := by
    obtain rfl := List.mem_singleton.mp hblock
    obtain rfl := List.mem_singleton.mp htx
    exact held_paidWallet
  birthday := rfl
  recorded hash hsome := by
    obtain ⟨wtx, hlookup⟩ := Option.isSome_iff_exists.mp hsome
    obtain ⟨rfl, -⟩ := lookup_paidWallet hlookup
    exact ⟨List.mem_singleton_self _, rfl⟩
  written _ _ _ _ := rfl

end Sample

namespace RescanEnv

theorem rescan_reproduces_iff_sample : ∃ r,
    (∀ fuel, 0 < fuel → Sample.rescanEnv.scanforalltxns fuel
      (clearwallettransactions Sample.rescanEnv.records Sample.paidWallet) = some r) ∧
      (Reproduces Sample.paidWallet r ↔ Sample.rescanEnv.FromChain plainNotes Sample.paidWallet) :=
  rescan_reproduces_iff Sample.rescanEnv Sample.paidWallet Sample.rescannable_paidWallet

/-- **The note is lost**: the wallet has the key of the payment, so the rescan does
not look for it. -/
theorem not_reproduces_paidWallet : Sample.rescanEnv.Rescannable Sample.paidWallet ∧
    ¬ ∃ fuel r, Sample.rescanEnv.scanforalltxns fuel
        (clearwallettransactions Sample.rescanEnv.records Sample.paidWallet) = some r ∧
      Reproduces Sample.paidWallet r := by
  refine ⟨Sample.rescannable_paidWallet, fun ⟨fuel, r, hrun, h⟩ => ?_⟩
  obtain ⟨r', hrun', hfrom, hin, hstore⟩ := exists_rescanned Sample.rescannable_paidWallet
  have hfuel : 0 < fuel := by
    by_contra hzero
    obtain rfl : fuel = 0 := by omega
    exact nomatch hrun
  obtain rfl := Option.some.inj ((hrun' fuel hfuel).symm.trans hrun)
  have hplain := (ScanEnv.reproduces_iff Sample.isChain_rescanEnv hfrom hin Sample.rescannable_paidWallet.inScanned
    hstore).mp h
  obtain ⟨wtx, hlookup, hnote⟩ := Option.bind_eq_some_iff.mp Sample.note_paidWallet
  have hnone : (plainNotes Sample.stealthPaid).lookup (narrKey 2) = none := by decide +kernel
  rw [hplain.notes 2000 wtx hlookup 2, (Sample.lookup_paidWallet hlookup).2, hnone] at hnote
  exact nomatch hnote

end RescanEnv

end Pinkcoin
