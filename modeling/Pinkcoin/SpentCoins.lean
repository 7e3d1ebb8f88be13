/-
Repairing the spent flags of the wallet after the transaction index, and
removing what never got into the main chain.
-/
import Pinkcoin.WalletSpent

namespace Pinkcoin

/-! ## Depth -/

/-- `CheckMerkleBranch`. -/
def checkMerkleBranch (P : Params) (hash : Uint256) (vMerkleBranch : List Uint256) (nIndex : Int) : Uint256 :=
  (vMerkleBranch.foldl (fun (hash, nIndex) otherside =>
    (if nIndex % 2 = 1 then P.hashPair otherside hash else P.hashPair hash otherside, nIndex / 2)) (hash, nIndex)).1

namespace CWalletTx

variable (P : Params) (s : Node) (wtx : CWalletTx)

/-- `GetDepthInMainChainINTERNAL`, with the branch checked each time. -/
def depthInternal : Int :=
  if wtx.hashBlock = 0 ∨ wtx.nIndex = -1 then 0
  else
    match s.mapBlockIndex.find wtx.hashBlock with
    | none => 0
    | some pindex =>
      if ¬ s.isInMainChain wtx.hashBlock then 0
      else if checkMerkleBranch P (wtx.tx.getHash P) wtx.vMerkleBranch wtx.nIndex ≠ pindex.hashMerkleRoot then 0
      else ((s.best.map CBlockIndex.nHeight).getD 0 : Int) - pindex.nHeight + 1

/-- `GetDepthInMainChain`: -1 where it is not in the memory pool either. -/
def getDepthInMainChain : Int :=
  if wtx.depthInternal P s = 0 ∧ (s.mempool.lookup (wtx.tx.getHash P)).isNone then -1 else wtx.depthInternal P s

/-- `IsConfirmedInMainChain`. -/
def isConfirmedInMainChain (nNow : Int) : Prop :=
  wtx.tx.isFinal s.nBestHeight.toNat nNow ∧ 1 ≤ wtx.getDepthInMainChain P s

instance (nNow : Int) : Decidable (wtx.isConfirmedInMainChain P s nNow) := inferInstanceAs (Decidable (_ ∧ _))

/-- A coinbase or a coinstake. -/
def isGeneration : Prop := wtx.tx.isCoinBase ∨ wtx.tx.isCoinStake

instance : Decidable wtx.isGeneration := inferInstanceAs (Decidable (_ ∨ _))

/-- A generation that is not in the main chain. -/
def isShallow : Prop := wtx.isGeneration ∧ wtx.getDepthInMainChain P s ≤ 0

instance : Decidable (wtx.isShallow P s) := inferInstanceAs (Decidable (_ ∧ _))

end CWalletTx

/-! ## FixSpentCoins -/

/-- What a repair is run with: the clock, `GetTxTime` of each transaction, and
whether the wallet has a file. -/
structure FixEnv where
  nNow : Int
  nTxTime : Uint256 → Int
  fFileBacked : Bool

/-- A transaction that was used after it was erased. -/
structure Dangling where
  pcoin : Uint256
  deriving DecidableEq

/-- The wallet, and what is counted. -/
structure FixState where
  w : CWallet
  nMismatchFound : Nat
  nBalanceInQuestion : Int
  nOrphansFound : Nat

namespace FixState

variable (st : FixState)

/-- `*pcoin`. -/
def deref (pcoin : Uint256) : Except Dangling CWalletTx :=
  match st.w.mapWallet.lookup pcoin with
  | none => throw ⟨pcoin⟩
  | some wtx => pure wtx

/-- A mismatch is counted, and repaired by `f`. -/
def mismatch (fCheckOnly : Bool) (pcoin : Uint256) (f : CWalletTx → CWalletTx) (nValue : Int) : FixState where
  w := if fCheckOnly then st.w else st.w.adjust pcoin f
  nMismatchFound := st.nMismatchFound + 1
  nBalanceInQuestion := st.nBalanceInQuestion + nValue
  nOrphansFound := st.nOrphansFound

/-- An orphan is counted, and erased from the wallet (`EraseFromWallet`, which
does nothing without a file). -/
def orphan (e : FixEnv) (fCheckOnly : Bool) (hash : Uint256) : FixState where
  w := if fCheckOnly ∨ ¬ e.fFileBacked then st.w else { st.w with mapWallet := st.w.mapWallet.erase hash }
  nMismatchFound := st.nMismatchFound
  nBalanceInQuestion := st.nBalanceInQuestion
  nOrphansFound := st.nOrphansFound + 1

end FixState

section Fix

variable (P : Params) (s : Node) (e : FixEnv) (fCheckOnly : Bool) (pcoin : Uint256)

/-- More than ten minutes old. -/
def FixEnv.isOld : Prop := 60 * 10 < e.nNow - e.nTxTime pcoin

instance : Decidable (e.isOld pcoin) := inferInstanceAs (Decidable (_ < _))

/-- Not in the main chain after ten minutes. -/
def CWalletTx.isStale (wtx : CWalletTx) : Prop := ¬ wtx.isConfirmedInMainChain P s e.nNow ∧ e.isOld pcoin

instance (wtx : CWalletTx) : Decidable (wtx.isStale P s e pcoin) := inferInstanceAs (Decidable (_ ∧ _))

/-- The index has a spender of output `n`. -/
def hasSpender (vSpent : List (Option CDiskTxPos)) (n : Nat) : Bool := (vSpent[n]?).join.isSome

/-- The body of the loop over the outputs. -/
def fixOutput (vSpent : List (Option CDiskTxPos)) (st : FixState) (n : Nat) : Except Dangling FixState := do
  let wtx ← st.deref pcoin
  match wtx.tx.vout[n]? with
  | none => pure st
  | some txout =>
    if st.w.isMine P txout ∧ wtx.isSpent n ∧ ¬ hasSpender vSpent n ∧ e.isOld pcoin then
      pure (st.mismatch fCheckOnly pcoin (·.markUnspent n) txout.nValue)
    else if st.w.isMine P txout ∧ ¬ wtx.isSpent n ∧ hasSpender vSpent n ∧ e.isOld pcoin then
      pure (st.mismatch fCheckOnly pcoin (·.markSpent n) txout.nValue)
    else pure st

/-- The outputs, and the end of the body of the loop over the coins. -/
def fixOutputs (hash : Uint256) (vSpent : List (Option CDiskTxPos)) (st : FixState) : Except Dangling FixState := do
  let wtx ← st.deref pcoin
  let st ← (List.range wtx.tx.vout.length).foldlM (fixOutput P e fCheckOnly pcoin vSpent) st
  let wtx ← st.deref pcoin
  pure (if wtx.isShallow P s then st.orphan e fCheckOnly hash else st)

/-- The body of the loop over the coins. -/
def fixCoin (st : FixState) (pcoin : Uint256) : Except Dangling FixState := do
  let wtx ← st.deref pcoin
  let hash := wtx.tx.getHash P
  let st := if wtx.isStale P s e pcoin then st.orphan e fCheckOnly hash else st
  match s.txdb.readTxIndex hash with
  | some txindex => fixOutputs P s e fCheckOnly pcoin hash txindex.vSpent st
  | none =>
    let wtx ← st.deref pcoin
    if ¬ wtx.isGeneration then pure st else fixOutputs P s e fCheckOnly pcoin hash [] st

/-- `FixSpentCoins`. -/
def fixSpentCoins (w : CWallet) : Except Dangling FixState :=
  w.mapWallet.keys.foldlM (fixCoin P s e fCheckOnly) ⟨w, 0, 0, 0⟩

end Fix

/-! ## What is expected of it -/

section Expected

variable (P : Params) (s : Node) (e : FixEnv)

/-- The index records a spender of an output. -/
def IndexSpends (hash : Uint256) (n : Nat) : Prop := ∃ txindex, s.txdb.readTxIndex hash = some txindex ∧ hasSpender txindex.vSpent n

/-- A wallet transaction among some of the wallet's, in the memory pool, spends
an output. -/
def PoolSpends (w : CWallet) (remains : CWalletTx → Prop) (hash : Uint256) (n : Nat) : Prop :=
  ∃ hash' wtx, w.mapWallet.lookup hash' = some wtx ∧ remains wtx ∧ (s.mempool.lookup (wtx.tx.getHash P)).isSome ∧
    ∃ txin ∈ wtx.tx.vin, txin.prevout = ⟨hash, n⟩

/-- Own outputs of old transactions of the main chain are marked spent exactly
where the index or a transaction of the memory pool spends them. -/
def Repaired (w : CWallet) : Prop :=
  ∀ hash wtx, w.mapWallet.lookup hash = some wtx → 1 ≤ wtx.getDepthInMainChain P s → e.isOld hash →
    ∀ n txout, wtx.tx.vout[n]? = some txout → w.isMine P txout →
      (wtx.isSpent n = true ↔ IndexSpends s hash n ∨ PoolSpends P s w (fun _ => True) hash n)

/-- **What is expected of `FixSpentCoins`**: a check changes nothing, and a
repair uses no transaction it has erased, leaves the flags repaired, and
leaves nothing for another run to find. -/
structure FixesSpentCoins (w : CWallet) : Prop where
  check : ∃ st, fixSpentCoins P s e true w = .ok st ∧ st.w = w
  repair : ∃ st, fixSpentCoins P s e false w = .ok st ∧ Repaired P s e st.w ∧
    ∀ fCheckOnly, ∃ st', fixSpentCoins P s e fCheckOnly st.w = .ok st' ∧ st'.nMismatchFound = 0 ∧ st'.nOrphansFound = 0

/-- **When that is so**: no transaction is stale; without a file there is no
orphaned generation, which could not be erased; and own outputs of old
transactions are as expected where the index has no record of the
transaction, and elsewhere not spent in the memory pool only. -/
structure Fixable (w : CWallet) : Prop where
  fresh : ∀ hash wtx, w.mapWallet.lookup hash = some wtx → ¬ wtx.isStale P s e hash
  erasable : e.fFileBacked ∨ ∀ hash wtx, w.mapWallet.lookup hash = some wtx → ¬ wtx.isShallow P s
  agrees : ∀ hash wtx, w.mapWallet.lookup hash = some wtx → e.isOld hash →
    ∀ n txout, wtx.tx.vout[n]? = some txout → w.isMine P txout →
      if s.txdb.readTxIndex hash = none ∧ ¬ wtx.isGeneration then
        (wtx.isSpent n = true ↔ PoolSpends P s w (fun wtx => ¬ wtx.isShallow P s) hash n)
      else PoolSpends P s w (fun wtx => ¬ wtx.isShallow P s) hash n → IndexSpends s hash n

end Expected

/-! ## One transaction -/

/-- The parts of a wallet transaction that a repair leaves alone. -/
structure SameCore (wtx wtx' : CWalletTx) : Prop where
  tx : wtx'.tx = wtx.tx
  hashBlock : wtx'.hashBlock = wtx.hashBlock
  vMerkleBranch : wtx'.vMerkleBranch = wtx.vMerkleBranch
  nIndex : wtx'.nIndex = wtx.nIndex

namespace SameCore

variable {P : Params} {s : Node} {e : FixEnv} {pcoin : Uint256} {wtx wtx' wtx'' : CWalletTx}

theorem refl : SameCore wtx wtx := ⟨rfl, rfl, rfl, rfl⟩

theorem trans (h : SameCore wtx wtx') (h' : SameCore wtx' wtx'') : SameCore wtx wtx'' :=
  ⟨h'.tx.trans h.tx, h'.hashBlock.trans h.hashBlock, h'.vMerkleBranch.trans h.vMerkleBranch, h'.nIndex.trans h.nIndex⟩

theorem getDepthInMainChain (h : SameCore wtx wtx') : wtx'.getDepthInMainChain P s = wtx.getDepthInMainChain P s := by
  unfold CWalletTx.getDepthInMainChain CWalletTx.depthInternal
  rw [h.tx, h.hashBlock, h.vMerkleBranch, h.nIndex]

theorem isGeneration (h : SameCore wtx wtx') : wtx'.isGeneration ↔ wtx.isGeneration := by
  unfold CWalletTx.isGeneration
  rw [h.tx]

theorem isShallow (h : SameCore wtx wtx') : wtx'.isShallow P s ↔ wtx.isShallow P s := by
  unfold CWalletTx.isShallow
  rw [h.isGeneration, h.getDepthInMainChain]

theorem isStale (h : SameCore wtx wtx') : wtx'.isStale P s e pcoin ↔ wtx.isStale P s e pcoin := by
  unfold CWalletTx.isStale CWalletTx.isConfirmedInMainChain
  rw [h.tx, h.getDepthInMainChain]

end SameCore

/-- Setting one flag, whatever to. -/
theorem isSpent_set {wtx : CWalletTx} {n n' : Nat} {b : Bool} (hn' : n' < wtx.tx.vout.length) :
    ({ wtx with vfSpent := wtx.resizedSpent.set n b } : CWalletTx).isSpent n' = if n = n' then b else wtx.isSpent n' := by
  have hlength : n' < wtx.resizedSpent.length := by
    by_contra hle
    have hsome := resizedSpent_getElem? hn'
    rw [List.getElem?_eq_none (by omega)] at hsome
    cases hsome
  unfold CWalletTx.isSpent
  by_cases heq : n = n'
  · subst heq
    rw [List.getElem?_set_self hlength, if_pos rfl, Option.getD_some]
  · rw [List.getElem?_set_ne heq, resizedSpent_getElem? hn', if_neg heq, Option.getD_some]
    rfl

section Outputs

variable {P : Params} {s : Node} {e : FixEnv} {fCheckOnly : Bool} {pcoin : Uint256} {st st' : FixState} {wtx : CWalletTx}
  {vSpent : List (Option CDiskTxPos)}

theorem deref_some (h : st.w.mapWallet.lookup pcoin = some wtx) : st.deref pcoin = .ok wtx := by
  unfold FixState.deref
  rw [h]
  rfl

theorem deref_none (h : st.w.mapWallet.lookup pcoin = none) : st.deref pcoin = .error ⟨pcoin⟩ := by
  unfold FixState.deref
  rw [h]
  rfl

/-- The state within the loop over the outputs of one transaction, `k` of which
are done. -/
structure OutputsFixed (P : Params) (e : FixEnv) (pcoin : Uint256) (vSpent : List (Option CDiskTxPos)) (wtx : CWalletTx)
    (st : FixState) (k : Nat) (st' : FixState) : Prop where
  orphans : st'.nOrphansFound = st.nOrphansFound
  keystore : st'.w.keystore = st.w.keystore
  others : ∀ hash, hash ≠ pcoin → st'.w.mapWallet.lookup hash = st.w.mapWallet.lookup hash
  here : ∃ wtx', st'.w.mapWallet.lookup pcoin = some wtx' ∧ SameCore wtx wtx' ∧
    ∀ n txout, wtx.tx.vout[n]? = some txout →
      wtx'.isSpent n = if n < k ∧ st.w.isMine P txout ∧ e.isOld pcoin then hasSpender vSpent n else wtx.isSpent n

/-- One output more. -/
theorem outputsFixed_succ {k : Nat} {wtx' : CWalletTx} {f : CWalletTx → CWalletTx} {nMismatch : Nat} {nBalance : Int}
    (h : OutputsFixed P e pcoin vSpent wtx st k st') (hlookup : st'.w.mapWallet.lookup pcoin = some wtx')
    (hcore : SameCore wtx' (f wtx'))
    (hflags : ∀ n txout, wtx.tx.vout[n]? = some txout →
      (f wtx').isSpent n = if n = k ∧ st.w.isMine P txout ∧ e.isOld pcoin then hasSpender vSpent n else wtx'.isSpent n) :
    OutputsFixed P e pcoin vSpent wtx st (k + 1) ⟨st'.w.adjust pcoin f, nMismatch, nBalance, st'.nOrphansFound⟩ := by
  obtain ⟨wtx₀, hlookup₀, hcore₀, hflags₀⟩ := h.here
  obtain rfl : wtx' = wtx₀ := Option.some.inj (hlookup.symm.trans hlookup₀)
  have hadjust : st'.w.adjust pcoin f = { st'.w with mapWallet := st'.w.mapWallet.insert pcoin (f wtx') } := by
    unfold CWallet.adjust
    rw [hlookup]
  rw [hadjust]
  refine ⟨h.orphans, h.keystore, fun hash hne => ?_, f wtx', AList.lookup_insert _, hcore₀.trans hcore, ?_⟩
  · dsimp only
    rw [AList.lookup_insert_ne hne]
    exact h.others hash hne
  · intro n txout htxout
    rw [hflags n txout htxout, hflags₀ n txout htxout]
    by_cases hown : st.w.isMine P txout = true ∧ e.isOld pcoin
    · rcases Nat.lt_trichotomy n k with hlt | rfl | hgt
      · rw [if_neg (fun h => hlt.ne h.1), if_pos ⟨hlt, hown⟩, if_pos ⟨hlt.trans (Nat.lt_succ_self k), hown⟩]
      · rw [if_pos ⟨rfl, hown⟩, if_pos ⟨Nat.lt_succ_self n, hown⟩]
      · rw [if_neg (fun h => hgt.ne' h.1), if_neg (fun h => absurd h.1 (by omega)), if_neg (fun h => absurd h.1 (by omega))]
    · rw [if_neg (fun h => hown h.2), if_neg (fun h => hown h.2), if_neg (fun h => hown h.2)]

/-- **The loop over the outputs** sets each own flag of an old transaction to
what the index says. -/
theorem outputsFixed_loop (hlookup : st.w.mapWallet.lookup pcoin = some wtx) {k : Nat} (hk : k ≤ wtx.tx.vout.length) :
    ∃ st', (List.range k).foldlM (fixOutput P e false pcoin vSpent) st = .ok st' ∧
      OutputsFixed P e pcoin vSpent wtx st k st' := by
  induction k with
  | zero =>
    refine ⟨st, rfl, rfl, rfl, fun _ _ => rfl, wtx, hlookup, .refl, fun n txout _ => ?_⟩
    rw [if_neg (fun h => absurd h.1 (Nat.not_lt_zero n))]
  | succ k ih =>
    obtain ⟨st', hrun, hfixed⟩ := ih (by omega)
    obtain ⟨wtx', hlookup', hcore', hflags'⟩ := hfixed.here
    obtain ⟨txout, htxout⟩ : ∃ txout, wtx.tx.vout[k]? = some txout := ⟨_, List.getElem?_eq_getElem (by omega)⟩
    have hmine : st'.w.isMine P txout = st.w.isMine P txout := by
      unfold CWallet.isMine
      rw [hfixed.keystore]
    have hlength : ∀ n txout, wtx.tx.vout[n]? = some txout → n < wtx'.tx.vout.length := fun n txout h => by
      rw [hcore'.tx]
      exact (List.getElem?_eq_some_iff.mp h).1
    rw [List.range_succ, List.foldlM_append, hrun]
    show ∃ st'', (List.foldlM (fixOutput P e false pcoin vSpent) st' [k]) = .ok st'' ∧ _
    rw [List.foldlM_cons]
    -- a mark is put the other way where it differs from the index
    have hset : ∀ b, hasSpender vSpent k = b → st.w.isMine P txout = true → e.isOld pcoin →
        ∀ nMismatch nBalance, OutputsFixed P e pcoin vSpent wtx st (k + 1)
          ⟨st'.w.adjust pcoin fun wtx => { wtx with vfSpent := wtx.resizedSpent.set k b }, nMismatch, nBalance,
            st'.nOrphansFound⟩ := by
      intro b hb hown hold nMismatch nBalance
      refine outputsFixed_succ hfixed hlookup' ⟨rfl, rfl, rfl, rfl⟩ fun n txout' htxout' => ?_
      rw [isSpent_set (hlength n txout' htxout')]
      by_cases heq : n = k
      · subst heq
        obtain rfl : txout = txout' := Option.some.inj (htxout.symm.trans htxout')
        rw [if_pos rfl, if_pos ⟨rfl, hown, hold⟩, hb]
      · rw [if_neg (Ne.symm heq), if_neg (fun h => heq h.1)]
    have hstep : ∃ st'', fixOutput P e false pcoin vSpent st' k = .ok st'' ∧
        OutputsFixed P e pcoin vSpent wtx st (k + 1) st'' := by
      unfold fixOutput
      rw [deref_some hlookup']
      have hvout : wtx'.tx.vout[k]? = some txout := by
        rw [hcore'.tx]
        exact htxout
      show ∃ st'', (match wtx'.tx.vout[k]? with | none => _ | some txout => _) = Except.ok st'' ∧ _
      rw [hvout]
      dsimp only
      rw [hmine]
      by_cases hlost : st.w.isMine P txout = true ∧ wtx'.isSpent k = true ∧ ¬ hasSpender vSpent k = true ∧ e.isOld pcoin
      · rw [if_pos hlost]
        exact ⟨_, rfl, hset false (by simpa using hlost.2.2.1) hlost.1 hlost.2.2.2 _ _⟩
      · rw [if_neg hlost]
        by_cases hspent : st.w.isMine P txout = true ∧ ¬ wtx'.isSpent k = true ∧ hasSpender vSpent k = true ∧ e.isOld pcoin
        · rw [if_pos hspent]
          exact ⟨_, rfl, hset true hspent.2.2.1 hspent.1 hspent.2.2.2 _ _⟩
        · rw [if_neg hspent]
          refine ⟨st', rfl, hfixed.orphans, hfixed.keystore, hfixed.others, wtx', hlookup', hcore', fun n txout' htxout' => ?_⟩
          rw [hflags' n txout' htxout']
          by_cases heq : n = k
          · subst heq
            obtain rfl : txout = txout' := Option.some.inj (htxout.symm.trans htxout')
            rw [if_neg (fun h => absurd h.1 (lt_irrefl n))]
            by_cases hown : st.w.isMine P txout = true ∧ e.isOld pcoin
            · rw [if_pos ⟨Nat.lt_succ_self n, hown⟩]
              -- it is as the index says already
              have hsame := hflags' n txout htxout
              rw [if_neg (fun h => absurd h.1 (lt_irrefl n))] at hsame
              rw [hsame] at hlost hspent
              cases hflag : wtx.isSpent n <;> cases hindex : hasSpender vSpent n <;> simp_all
            · rw [if_neg (fun h => hown h.2)]
          · by_cases hown : st.w.isMine P txout' = true ∧ e.isOld pcoin
            · by_cases hlt : n < k
              · rw [if_pos ⟨hlt, hown⟩, if_pos ⟨hlt.trans (Nat.lt_succ_self k), hown⟩]
              · rw [if_neg (fun h => hlt h.1), if_neg (fun h => absurd h.1 (by omega))]
            · rw [if_neg (fun h => hown h.2), if_neg (fun h => hown h.2)]
    obtain ⟨st'', hrun', hfixed'⟩ := hstep
    exact ⟨st'', by rw [hrun']; rfl, hfixed'⟩

end Outputs

section Coin

variable {P : Params} {s : Node} {e : FixEnv} {fCheckOnly : Bool} {pcoin : Uint256} {st st' : FixState} {wtx : CWalletTx}
  {vSpent : List (Option CDiskTxPos)}

/-- What the index says of the outputs of a transaction. -/
def vSpentOf (s : Node) (hash : Uint256) : List (Option CDiskTxPos) := ((s.txdb.readTxIndex hash).map CTxIndex.vSpent).getD []

theorem indexSpends_iff {n : Nat} : IndexSpends s pcoin n ↔ hasSpender (vSpentOf s pcoin) n = true := by
  unfold IndexSpends vSpentOf
  cases s.txdb.readTxIndex pcoin with
  | none => simp [hasSpender]
  | some txindex => simp

/-- The transactions whose outputs are looked at. -/
def IsLooked (s : Node) (hash : Uint256) (wtx : CWalletTx) : Prop := ¬ (s.txdb.readTxIndex hash = none ∧ ¬ wtx.isGeneration)

instance (hash : Uint256) (wtx : CWalletTx) : Decidable (IsLooked s hash wtx) := inferInstanceAs (Decidable (¬ _))

/-- A check of the outputs counts only. -/
theorem outputs_check (hlookup : st.w.mapWallet.lookup pcoin = some wtx) (l : List Nat) :
    ∃ st', l.foldlM (fixOutput P e true pcoin vSpent) st = .ok st' ∧ st'.w = st.w ∧ st'.nOrphansFound = st.nOrphansFound := by
  induction l generalizing st with
  | nil => exact ⟨st, rfl, rfl, rfl⟩
  | cons n l ih =>
    have hstep : ∃ st', fixOutput P e true pcoin vSpent st n = .ok st' ∧ st'.w = st.w ∧
        st'.nOrphansFound = st.nOrphansFound := by
      unfold fixOutput
      rw [deref_some hlookup]
      show ∃ st', (match wtx.tx.vout[n]? with | none => _ | some txout => _) = Except.ok st' ∧ _
      split
      · exact ⟨st, rfl, rfl, rfl⟩
      · split
        · exact ⟨_, rfl, rfl, rfl⟩
        · split
          · exact ⟨_, rfl, rfl, rfl⟩
          · exact ⟨st, rfl, rfl, rfl⟩
    obtain ⟨st₁, hrun, hw, horphans⟩ := hstep
    obtain ⟨st₂, hrest, hw₂, horphans₂⟩ := @ih st₁ (by rw [hw]; exact hlookup)
    rw [List.foldlM_cons, hrun]
    exact ⟨st₂, hrest, hw₂.trans hw, horphans₂.trans horphans⟩

/-- Outputs that are as the index says are left as they are. -/
theorem outputs_agree (hlookup : st.w.mapWallet.lookup pcoin = some wtx)
    (hagree : ∀ n txout, wtx.tx.vout[n]? = some txout → st.w.isMine P txout → e.isOld pcoin →
      wtx.isSpent n = hasSpender vSpent n) (l : List Nat) :
    l.foldlM (fixOutput P e fCheckOnly pcoin vSpent) st = .ok st := by
  induction l with
  | nil => rfl
  | cons n l ih =>
    have hstep : fixOutput P e fCheckOnly pcoin vSpent st n = .ok st := by
      unfold fixOutput
      rw [deref_some hlookup]
      show (match wtx.tx.vout[n]? with | none => _ | some txout => _) = Except.ok st
      cases htxout : wtx.tx.vout[n]? with
      | none => rfl
      | some txout =>
        dsimp only
        rw [if_neg, if_neg]
        · rfl
        · intro ⟨hmine, hspent, hindex, hold⟩
          exact hspent ((hagree n txout htxout hmine hold).trans hindex)
        · intro ⟨hmine, hspent, hindex, hold⟩
          exact hindex ((hagree n txout htxout hmine hold).symm.trans hspent)
    rw [List.foldlM_cons, hstep]
    exact ih

/-- An orphan that is not erased is counted only. -/
theorem orphan_w {hash : Uint256} (h : fCheckOnly = true ∨ e.fFileBacked = false) :
    (st.orphan e fCheckOnly hash).w = st.w := by
  unfold FixState.orphan
  exact if_pos (by simpa using h)

/-- How many orphans a transaction is counted as. -/
def orphanCount (P : Params) (s : Node) (e : FixEnv) (pcoin : Uint256) (wtx : CWalletTx) : Nat :=
  (if wtx.isStale P s e pcoin then 1 else 0) + if wtx.isShallow P s then 1 else 0

/-- The state after the test for a stale transaction. -/
def afterStale (P : Params) (s : Node) (e : FixEnv) (fCheckOnly : Bool) (pcoin : Uint256) (wtx : CWalletTx) (st : FixState) :
    FixState :=
  if wtx.isStale P s e pcoin then st.orphan e fCheckOnly pcoin else st

/-- The body of the loop over the coins, for a transaction under its hash that
is not erased as a stale one. -/
theorem fixCoin_eq (hlookup : st.w.mapWallet.lookup pcoin = some wtx) (hkey : wtx.tx.getHash P = pcoin)
    (hkept : (afterStale P s e fCheckOnly pcoin wtx st).w = st.w) :
    fixCoin P s e fCheckOnly st pcoin =
      if IsLooked s pcoin wtx then
        fixOutputs P s e fCheckOnly pcoin pcoin (vSpentOf s pcoin) (afterStale P s e fCheckOnly pcoin wtx st)
      else .ok (afterStale P s e fCheckOnly pcoin wtx st) := by
  have hlookup' : (afterStale P s e fCheckOnly pcoin wtx st).w.mapWallet.lookup pcoin = some wtx := by
    rw [hkept]
    exact hlookup
  unfold fixCoin
  rw [deref_some hlookup]
  show (match s.txdb.readTxIndex (wtx.tx.getHash P) with | some txindex => _ | none => _) = _
  rw [hkey]
  cases hindex : s.txdb.readTxIndex pcoin with
  | some txindex =>
    have hlooked : IsLooked s pcoin wtx := fun h => nomatch hindex.symm.trans h.1
    have hspent : vSpentOf s pcoin = txindex.vSpent := by
      unfold vSpentOf
      rw [hindex]
      rfl
    rw [if_pos hlooked, hspent]
    rfl
  | none =>
    have hspent : vSpentOf s pcoin = [] := by
      unfold vSpentOf
      rw [hindex]
      rfl
    rw [hspent]
    have hfold : (if wtx.isStale P s e pcoin then st.orphan e fCheckOnly pcoin else st) =
      afterStale P s e fCheckOnly pcoin wtx st := rfl
    rw [hfold]
    dsimp only
    rw [deref_some hlookup']
    by_cases hgeneration : wtx.isGeneration
    · have hlooked : IsLooked s pcoin wtx := fun h => h.2 hgeneration
      rw [if_pos hlooked]
      exact if_neg (not_not.mpr hgeneration)
    · have hnot : ¬ IsLooked s pcoin wtx := fun h => h ⟨hindex, hgeneration⟩
      rw [if_neg hnot]
      exact if_pos hgeneration

/-- **A stale transaction is used after it was erased.** -/
theorem fixCoin_stale (hlookup : st.w.mapWallet.lookup pcoin = some wtx) (hkey : wtx.tx.getHash P = pcoin)
    (hstale : wtx.isStale P s e pcoin) (hfile : e.fFileBacked = true) :
    fixCoin P s e false st pcoin = .error ⟨pcoin⟩ := by
  have hgone : (st.orphan e false pcoin).deref pcoin = .error ⟨pcoin⟩ := by
    refine deref_none ?_
    have herase : (st.orphan e false pcoin).w.mapWallet = st.w.mapWallet.erase pcoin := by
      unfold FixState.orphan
      dsimp only
      rw [if_neg (by simp [hfile])]
    rw [herase]
    exact AList.lookup_erase _ _
  unfold fixCoin
  rw [deref_some hlookup]
  show (match s.txdb.readTxIndex (wtx.tx.getHash P) with | some txindex => _ | none => _) = _
  rw [hkey, if_pos hstale]
  cases s.txdb.readTxIndex pcoin with
  | some txindex =>
    dsimp only
    unfold fixOutputs
    rw [hgone]
    rfl
  | none =>
    dsimp only
    rw [hgone]
    rfl

/-- A shallow generation is looked at. -/
theorem isLooked_of_isShallow (h : wtx.isShallow P s) : IsLooked s pcoin wtx := fun hnone => hnone.2 h.1

theorem afterStale_w (h : wtx.isStale P s e pcoin → fCheckOnly = true ∨ e.fFileBacked = false) :
    (afterStale P s e fCheckOnly pcoin wtx st).w = st.w := by
  unfold afterStale
  by_cases hstale : wtx.isStale P s e pcoin
  · rw [if_pos hstale]
    exact orphan_w (h hstale)
  · rw [if_neg hstale]

theorem afterStale_orphans : (afterStale P s e fCheckOnly pcoin wtx st).nOrphansFound =
    st.nOrphansFound + if wtx.isStale P s e pcoin then 1 else 0 := by
  unfold afterStale
  by_cases hstale : wtx.isStale P s e pcoin
  · rw [if_pos hstale, if_pos hstale]
    rfl
  · rw [if_neg hstale, if_neg hstale]
    rfl

/-- **A check of a transaction** counts only. -/
theorem fixCoin_check (hlookup : st.w.mapWallet.lookup pcoin = some wtx) (hkey : wtx.tx.getHash P = pcoin) :
    ∃ st', fixCoin P s e true st pcoin = .ok st' ∧ st'.w = st.w ∧
      st'.nOrphansFound = st.nOrphansFound + orphanCount P s e pcoin wtx := by
  have hkept : (afterStale P s e true pcoin wtx st).w = st.w := afterStale_w fun _ => .inl rfl
  have horphans := @afterStale_orphans P s e true pcoin st wtx
  rw [fixCoin_eq hlookup hkey hkept]
  unfold orphanCount
  by_cases hlooked : IsLooked s pcoin wtx
  · rw [if_pos hlooked]
    have hlookup' : (afterStale P s e true pcoin wtx st).w.mapWallet.lookup pcoin = some wtx := by
      rw [hkept]
      exact hlookup
    obtain ⟨st', hrun, hw, hsame⟩ := @outputs_check P e pcoin _ wtx (vSpentOf s pcoin) hlookup' (List.range wtx.tx.vout.length)
    unfold fixOutputs
    rw [deref_some hlookup']
    show ∃ st'', ((List.range wtx.tx.vout.length).foldlM (fixOutput P e true pcoin (vSpentOf s pcoin)) _ >>= _) = _ ∧ _
    rw [hrun]
    show ∃ st'', (st'.deref pcoin >>= _) = Except.ok st'' ∧ _
    rw [deref_some (by rw [hw]; exact hlookup')]
    refine ⟨_, rfl, ?_, ?_⟩
    · split
      · rw [orphan_w (.inl rfl), hw, hkept]
      · rw [hw, hkept]
    · by_cases hshallow : wtx.isShallow P s
      · rw [if_pos hshallow, if_pos hshallow]
        show st'.nOrphansFound + 1 = _
        omega
      · rw [if_neg hshallow, if_neg hshallow]
        omega
  · rw [if_neg hlooked, if_neg fun hshallow => hlooked (isLooked_of_isShallow hshallow)]
    exact ⟨_, rfl, hkept, horphans⟩

/-- **What a repair leaves of a transaction**: nothing of a shallow generation,
if it can be erased, and else the flags as the index says. -/
def Outcome (P : Params) (s : Node) (e : FixEnv) (w : CWallet) (pcoin : Uint256) (wtx : CWalletTx) (found : Option CWalletTx) :
    Prop :=
  if e.fFileBacked ∧ wtx.isShallow P s then found = none
  else ∃ wtx', found = some wtx' ∧ SameCore wtx wtx' ∧ ∀ n txout, wtx.tx.vout[n]? = some txout →
    wtx'.isSpent n =
      if IsLooked s pcoin wtx ∧ w.isMine P txout ∧ e.isOld pcoin then hasSpender (vSpentOf s pcoin) n else wtx.isSpent n

/-- **A repair of a transaction** that is not erased as a stale one. -/
theorem fixCoin_repair (hlookup : st.w.mapWallet.lookup pcoin = some wtx) (hkey : wtx.tx.getHash P = pcoin)
    (hfresh : ¬ (wtx.isStale P s e pcoin ∧ e.fFileBacked = true)) :
    ∃ st', fixCoin P s e false st pcoin = .ok st' ∧ st'.w.keystore = st.w.keystore ∧
      (∀ hash, hash ≠ pcoin → st'.w.mapWallet.lookup hash = st.w.mapWallet.lookup hash) ∧
      Outcome P s e st.w pcoin wtx (st'.w.mapWallet.lookup pcoin) := by
  have hkept : (afterStale P s e false pcoin wtx st).w = st.w := afterStale_w fun hstale => .inr (by
    cases hfile : e.fFileBacked with
    | true => exact absurd ⟨hstale, hfile⟩ hfresh
    | false => rfl)
  rw [fixCoin_eq hlookup hkey hkept]
  unfold Outcome
  by_cases hlooked : IsLooked s pcoin wtx
  · rw [if_pos hlooked]
    have hlookup' : (afterStale P s e false pcoin wtx st).w.mapWallet.lookup pcoin = some wtx := by
      rw [hkept]
      exact hlookup
    obtain ⟨st', hrun, hfixed⟩ := @outputsFixed_loop P e pcoin _ wtx (vSpentOf s pcoin) hlookup' _ le_rfl
    obtain ⟨wtx', hlookup'', hcore, hflags⟩ := hfixed.here
    unfold fixOutputs
    rw [deref_some hlookup']
    show ∃ st'', ((List.range wtx.tx.vout.length).foldlM (fixOutput P e false pcoin (vSpentOf s pcoin)) _ >>= _) = _ ∧ _
    rw [hrun]
    show ∃ st'', (st'.deref pcoin >>= _) = Except.ok st'' ∧ _
    rw [deref_some hlookup'']
    refine ⟨_, rfl, ?_⟩
    have hkeystore := hfixed.keystore
    have hothers := hfixed.others
    have hmine := hfixed.here
    rw [hkept] at hkeystore
    simp only [hkept] at hothers hflags
    have hsame : ∃ wtx'', some wtx' = some wtx'' ∧ SameCore wtx wtx'' ∧ ∀ n txout, wtx.tx.vout[n]? = some txout →
        wtx''.isSpent n = if IsLooked s pcoin wtx ∧ st.w.isMine P txout ∧ e.isOld pcoin then hasSpender (vSpentOf s pcoin) n
          else wtx.isSpent n := by
      refine ⟨wtx', rfl, hcore, fun n txout htxout => ?_⟩
      have hlt := (List.getElem?_eq_some_iff.mp htxout).1
      rw [hflags n txout htxout]
      simp only [hlt, hlooked, true_and]
    by_cases hshallow : wtx.isShallow P s
    · rw [if_pos (hcore.isShallow.mpr hshallow)]
      cases hfile : e.fFileBacked with
      | true =>
        have herase : (st'.orphan e false pcoin).w = { st'.w with mapWallet := st'.w.mapWallet.erase pcoin } := by
          unfold FixState.orphan
          dsimp only
          rw [if_neg (by simp [hfile])]
        rw [herase]
        refine ⟨hkeystore, fun hash hne => ?_, ?_⟩
        · dsimp only
          rw [AList.lookup_erase_ne hne]
          exact hothers hash hne
        · rw [if_pos ⟨rfl, hshallow⟩]
          exact AList.lookup_erase _ _
      | false =>
        rw [orphan_w (.inr hfile), if_neg (by simp)]
        exact ⟨hkeystore, hothers, by rw [hlookup'']; exact hsame⟩
    · rw [if_neg fun h => hshallow (hcore.isShallow.mp h), if_neg fun h => hshallow h.2]
      exact ⟨hkeystore, hothers, by rw [hlookup'']; exact hsame⟩
  · rw [if_neg hlooked]
    refine ⟨_, rfl, by rw [hkept], fun _ _ => by rw [hkept], ?_⟩
    rw [if_neg fun h => hlooked (isLooked_of_isShallow h.2), hkept]
    refine ⟨wtx, hlookup, .refl, fun n txout _ => ?_⟩
    rw [if_neg fun h => hlooked h.1]

/-- A transaction at which nothing is found. -/
theorem fixCoin_agree (hlookup : st.w.mapWallet.lookup pcoin = some wtx) (hkey : wtx.tx.getHash P = pcoin)
    (hfresh : ¬ wtx.isStale P s e pcoin) (hdeep : ¬ wtx.isShallow P s)
    (hagree : IsLooked s pcoin wtx → ∀ n txout, wtx.tx.vout[n]? = some txout → st.w.isMine P txout → e.isOld pcoin →
      wtx.isSpent n = hasSpender (vSpentOf s pcoin) n) : fixCoin P s e fCheckOnly st pcoin = .ok st := by
  have hsame : afterStale P s e fCheckOnly pcoin wtx st = st := if_neg hfresh
  rw [fixCoin_eq hlookup hkey (by rw [hsame]), hsame]
  by_cases hlooked : IsLooked s pcoin wtx
  · rw [if_pos hlooked]
    unfold fixOutputs
    rw [deref_some hlookup]
    show ((List.range wtx.tx.vout.length).foldlM (fixOutput P e fCheckOnly pcoin (vSpentOf s pcoin)) st >>= _) = _
    rw [outputs_agree hlookup (hagree hlooked)]
    show (st.deref pcoin >>= _) = Except.ok st
    rw [deref_some hlookup]
    exact congrArg Except.ok (if_neg hdeep)
  · rw [if_neg hlooked]

end Coin

/-! ## A whole run -/

section Run

variable {P : Params} {s : Node} {e : FixEnv} {fCheckOnly : Bool} {st st' : FixState} {w : CWallet} {l : List Uint256}

/-- Each of the coins is there, under its hash. -/
def AllThere (P : Params) (w : CWallet) (l : List Uint256) : Prop :=
  ∀ pcoin ∈ l, ∃ wtx, w.mapWallet.lookup pcoin = some wtx ∧ wtx.tx.getHash P = pcoin

/-- **A check changes nothing**, and counts every orphan. -/
theorem run_check (hthere : AllThere P st.w l) :
    ∃ st', l.foldlM (fixCoin P s e true) st = .ok st' ∧ st'.w = st.w ∧ st.nOrphansFound ≤ st'.nOrphansFound ∧
      ∀ pcoin ∈ l, ∀ wtx, st.w.mapWallet.lookup pcoin = some wtx →
        st.nOrphansFound + orphanCount P s e pcoin wtx ≤ st'.nOrphansFound := by
  induction l generalizing st with
  | nil => exact ⟨st, rfl, rfl, le_rfl, fun _ h => (nomatch h)⟩
  | cons pcoin l ih =>
    obtain ⟨⟨wtx, hlookup, hkey⟩, hthere⟩ := List.forall_mem_cons.mp hthere
    obtain ⟨st₁, hrun, hw, horphans⟩ := @fixCoin_check P s e pcoin st wtx hlookup hkey
    obtain ⟨st₂, hrest, hw₂, hle, hcount⟩ := @ih st₁ (by rw [hw]; exact hthere)
    rw [List.foldlM_cons, hrun]
    refine ⟨st₂, hrest, hw₂.trans hw, by omega, fun pcoin' hmem wtx' hlookup' => ?_⟩
    rcases List.mem_cons.mp hmem with rfl | hmem
    · obtain rfl : wtx = wtx' := Option.some.inj (hlookup.symm.trans hlookup')
      omega
    · have hlater := hcount pcoin' hmem wtx' (by rw [hw]; exact hlookup')
      omega

/-- **A repair of coins none of which is erased as a stale one.** -/
theorem run_repair (hdistinct : l.Nodup) (hthere : AllThere P st.w l)
    (hfresh : ∀ pcoin ∈ l, ∀ wtx, st.w.mapWallet.lookup pcoin = some wtx → ¬ (wtx.isStale P s e pcoin ∧ e.fFileBacked = true)) :
    ∃ st', l.foldlM (fixCoin P s e false) st = .ok st' ∧ st'.w.keystore = st.w.keystore ∧
      (∀ hash, hash ∉ l → st'.w.mapWallet.lookup hash = st.w.mapWallet.lookup hash) ∧
      ∀ pcoin ∈ l, ∀ wtx, st.w.mapWallet.lookup pcoin = some wtx →
        Outcome P s e st.w pcoin wtx (st'.w.mapWallet.lookup pcoin) := by
  induction l generalizing st with
  | nil => exact ⟨st, rfl, rfl, fun _ _ => rfl, fun _ h => (nomatch h)⟩
  | cons pcoin l ih =>
    obtain ⟨hnotin, hdistinct⟩ := List.nodup_cons.mp hdistinct
    obtain ⟨⟨wtx, hlookup, hkey⟩, hthere⟩ := List.forall_mem_cons.mp hthere
    obtain ⟨st₁, hrun, hkeystore, hothers, houtcome⟩ :=
      fixCoin_repair hlookup hkey (hfresh pcoin List.mem_cons_self wtx hlookup)
    have hlater : ∀ hash ∈ l, st₁.w.mapWallet.lookup hash = st.w.mapWallet.lookup hash := fun hash hmem =>
      hothers hash fun heq => hnotin (heq ▸ hmem)
    obtain ⟨st₂, hrest, hkeystore₂, hothers₂, houtcome₂⟩ := @ih st₁ hdistinct
      (fun hash hmem => by
        rw [hlater hash hmem]
        exact hthere hash hmem)
      (fun hash hmem wtx' hlookup' => by
        rw [hlater hash hmem] at hlookup'
        exact hfresh hash (List.mem_cons_of_mem _ hmem) wtx' hlookup')
    rw [List.foldlM_cons, hrun]
    refine ⟨st₂, hrest, hkeystore₂.trans hkeystore, fun hash hmem => ?_, fun hash hmem wtx' hlookup' => ?_⟩
    · rw [hothers₂ hash fun h => hmem (List.mem_cons_of_mem _ h), hothers hash fun heq => hmem (heq ▸ List.mem_cons_self)]
    · rcases List.mem_cons.mp hmem with rfl | hmem
      · obtain rfl : wtx = wtx' := Option.some.inj (hlookup.symm.trans hlookup')
        rw [hothers₂ hash hnotin]
        exact houtcome
      · have hfound := houtcome₂ hash hmem wtx' (by rw [hlater hash hmem]; exact hlookup')
        unfold Outcome CWallet.isMine at hfound ⊢
        rw [hkeystore] at hfound
        exact hfound

/-- **A repair does not get past a stale transaction.** -/
theorem run_stale (hdistinct : l.Nodup) (hthere : AllThere P st.w l) (hrun : l.foldlM (fixCoin P s e false) st = .ok st') :
    ∀ pcoin ∈ l, ∀ wtx, st.w.mapWallet.lookup pcoin = some wtx → ¬ (wtx.isStale P s e pcoin ∧ e.fFileBacked = true) := by
  induction l generalizing st with
  | nil => exact fun _ h => nomatch h
  | cons pcoin l ih =>
    obtain ⟨hnotin, hdistinct⟩ := List.nodup_cons.mp hdistinct
    obtain ⟨⟨wtx, hlookup, hkey⟩, hthere⟩ := List.forall_mem_cons.mp hthere
    have hfirst : ¬ (wtx.isStale P s e pcoin ∧ e.fFileBacked = true) := by
      intro ⟨hstale, hfile⟩
      rw [List.foldlM_cons, fixCoin_stale hlookup hkey hstale hfile] at hrun
      exact nomatch hrun
    obtain ⟨st₁, hrun₁, -, hothers, -⟩ := fixCoin_repair hlookup hkey hfirst
    rw [List.foldlM_cons, hrun₁] at hrun
    have hlater : ∀ hash ∈ l, st₁.w.mapWallet.lookup hash = st.w.mapWallet.lookup hash := fun hash hmem =>
      hothers hash fun heq => hnotin (heq ▸ hmem)
    intro pcoin' hmem wtx' hlookup'
    rcases List.mem_cons.mp hmem with rfl | hmem
    · obtain rfl : wtx = wtx' := Option.some.inj (hlookup.symm.trans hlookup')
      exact hfirst
    · refine @ih st₁ hdistinct (fun hash hmem => ?_) hrun pcoin' hmem wtx' (by rw [hlater pcoin' hmem]; exact hlookup')
      rw [hlater hash hmem]
      exact hthere hash hmem

/-- A run over coins at which nothing is found. -/
theorem run_agree (h : ∀ pcoin ∈ l, fixCoin P s e fCheckOnly st pcoin = .ok st) :
    l.foldlM (fixCoin P s e fCheckOnly) st = .ok st := by
  induction l with
  | nil => rfl
  | cons pcoin l ih =>
    obtain ⟨hfirst, h⟩ := List.forall_mem_cons.mp h
    rw [List.foldlM_cons, hfirst]
    exact ih h

theorem allThere_keys (hkeyed : w.Keyed P) : AllThere P w w.mapWallet.keys := by
  intro pcoin hmem
  obtain ⟨wtx, hlookup⟩ := Option.isSome_iff_exists.mp (AList.lookup_isSome.mpr hmem)
  exact ⟨wtx, hlookup, hkeyed pcoin wtx hlookup⟩

theorem mem_keys {hash : Uint256} {wtx : CWalletTx} (h : w.mapWallet.lookup hash = some wtx) : hash ∈ w.mapWallet.keys :=
  AList.lookup_isSome.mp (Option.isSome_of_eq_some h)

end Run

/-! ## What a repair leaves -/

/-- The wallet after a repair: every transaction with its outcome, and no
others. -/
structure Fixed (P : Params) (s : Node) (e : FixEnv) (w w' : CWallet) : Prop where
  keystore : w'.keystore = w.keystore
  none : ∀ hash, w.mapWallet.lookup hash = none → w'.mapWallet.lookup hash = none
  some : ∀ hash wtx, w.mapWallet.lookup hash = some wtx → Outcome P s e w hash wtx (w'.mapWallet.lookup hash)

namespace Fixed

variable {P : Params} {s : Node} {e : FixEnv} {w w' : CWallet} {hash : Uint256} {wtx wtx' : CWalletTx} {n : Nat} {txout : CTxOut}

/-- What is in the wallet afterwards. -/
theorem source (h : Fixed P s e w w') (hlookup : w'.mapWallet.lookup hash = Option.some wtx') :
    ∃ wtx, w.mapWallet.lookup hash = Option.some wtx ∧ ¬ (e.fFileBacked = true ∧ wtx.isShallow P s) ∧ SameCore wtx wtx' ∧
      ∀ n txout, wtx.tx.vout[n]? = Option.some txout → wtx'.isSpent n =
        if IsLooked s hash wtx ∧ w.isMine P txout ∧ e.isOld hash then hasSpender (vSpentOf s hash) n else wtx.isSpent n := by
  cases hbefore : w.mapWallet.lookup hash with
  | none => exact nomatch (h.none hash hbefore).symm.trans hlookup
  | some wtx =>
    have houtcome := h.some hash wtx hbefore
    unfold Outcome at houtcome
    split at houtcome
    · exact nomatch houtcome.symm.trans hlookup
    next hkept =>
      obtain ⟨wtx'', hfound, hcore, hflags⟩ := houtcome
      obtain rfl : wtx' = wtx'' := Option.some.inj (hlookup.symm.trans hfound)
      exact ⟨wtx, rfl, hkept, hcore, hflags⟩

/-- What remains of a transaction. -/
theorem remains (h : Fixed P s e w w') (hlookup : w.mapWallet.lookup hash = Option.some wtx)
    (hkept : ¬ (e.fFileBacked = true ∧ wtx.isShallow P s)) :
    ∃ wtx', w'.mapWallet.lookup hash = Option.some wtx' ∧ SameCore wtx wtx' := by
  have houtcome := h.some hash wtx hlookup
  unfold Outcome at houtcome
  rw [if_neg hkept] at houtcome
  obtain ⟨wtx', hfound, hcore, -⟩ := houtcome
  exact ⟨wtx', hfound, hcore⟩

theorem keyed (h : Fixed P s e w w') (hkeyed : w.Keyed P) : w'.Keyed P := by
  intro hash wtx' hlookup
  obtain ⟨wtx, hbefore, -, hcore, -⟩ := h.source hlookup
  rw [hcore.tx]
  exact hkeyed hash wtx hbefore

theorem isMine (h : Fixed P s e w w') : w'.isMine P txout = w.isMine P txout := by
  unfold CWallet.isMine
  rw [h.keystore]

/-- The memory pool spends the same outputs, by the transactions that remain. -/
theorem poolSpends (h : Fixed P s e w w')
    (herasable : e.fFileBacked = true ∨ ∀ hash wtx, w.mapWallet.lookup hash = Option.some wtx → ¬ wtx.isShallow P s) :
    PoolSpends P s w' (fun _ => True) hash n ↔ PoolSpends P s w (fun wtx => ¬ wtx.isShallow P s) hash n := by
  constructor
  · intro ⟨hash', wtx', hlookup, _, hpool, txin, htxin, heq⟩
    obtain ⟨wtx, hbefore, hkept, hcore, -⟩ := h.source hlookup
    rw [hcore.tx] at hpool htxin
    refine ⟨hash', wtx, hbefore, fun hshallow => ?_, hpool, txin, htxin, heq⟩
    rcases herasable with hfile | hnone
    · exact hkept ⟨hfile, hshallow⟩
    · exact hnone hash' wtx hbefore hshallow
  · intro ⟨hash', wtx, hlookup, hdeep, hpool, txin, htxin, heq⟩
    obtain ⟨wtx', hafter, hcore⟩ := h.remains hlookup fun hkept => hdeep hkept.2
    rw [← hcore.tx] at hpool htxin
    exact ⟨hash', wtx', hafter, trivial, hpool, txin, htxin, heq⟩

end Fixed

section Spec

variable {P : Params} {s : Node} {e : FixEnv} {w w' : CWallet} {hash : Uint256} {wtx : CWalletTx}

/-- A repair that gets through. -/
theorem exists_fixed (hkeyed : w.Keyed P)
    (hfresh : ∀ hash wtx, w.mapWallet.lookup hash = some wtx → ¬ (wtx.isStale P s e hash ∧ e.fFileBacked = true)) :
    ∃ st, fixSpentCoins P s e false w = .ok st ∧ Fixed P s e w st.w := by
  obtain ⟨st, hrun, hkeystore, hothers, houtcome⟩ := @run_repair P s e ⟨w, 0, 0, 0⟩ w.mapWallet.keys w.mapWallet.keys_nodup
    (allThere_keys hkeyed) fun pcoin _ => hfresh pcoin
  refine ⟨st, hrun, hkeystore, fun hash hnone => ?_, fun hash wtx hlookup => houtcome hash (mem_keys hlookup) wtx hlookup⟩
  rw [hothers hash fun hmem => ?_]
  · exact hnone
  · rw [← AList.mem_keys, ← AList.lookup_isSome, hnone] at hmem
    exact nomatch hmem

/-- An old transaction that is not stale is in the main chain, and no
generation that is not. -/
theorem deep_of_fresh (hfresh : ¬ wtx.isStale P s e hash) (hold : e.isOld hash) :
    1 ≤ wtx.getDepthInMainChain P s ∧ ¬ wtx.isShallow P s := by
  have hconfirmed : wtx.isConfirmedInMainChain P s e.nNow := by
    by_contra hnot
    exact hfresh ⟨hnot, hold⟩
  refine ⟨hconfirmed.2, fun hshallow => ?_⟩
  have hdeep := hconfirmed.2
  have hnone := hshallow.2
  omega

/-- Nothing is left to find after a repair of a wallet without stale
transactions. -/
theorem second_run (hkeyed : w.Keyed P) (hfixed : Fixed P s e w w') (h : Fixable P s e w) (fCheckOnly : Bool) :
    fixSpentCoins P s e fCheckOnly w' = .ok ⟨w', 0, 0, 0⟩ := by
  refine run_agree fun pcoin hmem => ?_
  obtain ⟨wtx', hlookup, hkey⟩ := allThere_keys (hfixed.keyed hkeyed) pcoin hmem
  obtain ⟨wtx, hbefore, hkept, hcore, hflags⟩ := hfixed.source hlookup
  refine fixCoin_agree hlookup hkey (fun hstale => h.fresh pcoin wtx hbefore (hcore.isStale.mp hstale))
    (fun hshallow => ?_) fun hlooked n txout htxout hmine hold => ?_
  · rcases h.erasable with hfile | hnone
    · exact hkept ⟨hfile, hcore.isShallow.mp hshallow⟩
    · exact hnone pcoin wtx hbefore (hcore.isShallow.mp hshallow)
  · have hlooked' : IsLooked s pcoin wtx := by
      unfold IsLooked at hlooked ⊢
      rwa [hcore.isGeneration] at hlooked
    rw [hcore.tx] at htxout
    rw [hflags n txout htxout, if_pos ⟨hlooked', hfixed.isMine ▸ hmine, hold⟩]

/-- The flags are repaired exactly where they agree in the end. -/
theorem repaired_iff (hfixed : Fixed P s e w w')
    (hfresh : ∀ hash wtx, w.mapWallet.lookup hash = some wtx → ¬ wtx.isStale P s e hash)
    (herasable : e.fFileBacked = true ∨ ∀ hash wtx, w.mapWallet.lookup hash = some wtx → ¬ wtx.isShallow P s) :
    Repaired P s e w' ↔ ∀ hash wtx, w.mapWallet.lookup hash = some wtx → e.isOld hash →
      ∀ n txout, wtx.tx.vout[n]? = some txout → w.isMine P txout →
        if s.txdb.readTxIndex hash = none ∧ ¬ wtx.isGeneration then
          (wtx.isSpent n = true ↔ PoolSpends P s w (fun wtx => ¬ wtx.isShallow P s) hash n)
        else PoolSpends P s w (fun wtx => ¬ wtx.isShallow P s) hash n → IndexSpends s hash n := by
  -- for one output, before and after
  have hone : ∀ hash (wtx wtx' : CWalletTx), w.mapWallet.lookup hash = some wtx → e.isOld hash → ∀ n txout,
      wtx.tx.vout[n]? = some txout → w.isMine P txout →
      wtx'.isSpent n = (if IsLooked s hash wtx ∧ w.isMine P txout ∧ e.isOld hash then hasSpender (vSpentOf s hash) n
        else wtx.isSpent n) →
      ((wtx'.isSpent n = true ↔ IndexSpends s hash n ∨ PoolSpends P s w' (fun _ => True) hash n) ↔
        if s.txdb.readTxIndex hash = none ∧ ¬ wtx.isGeneration then
          (wtx.isSpent n = true ↔ PoolSpends P s w (fun wtx => ¬ wtx.isShallow P s) hash n)
        else PoolSpends P s w (fun wtx => ¬ wtx.isShallow P s) hash n → IndexSpends s hash n) := by
    intro hash wtx wtx' hlookup hold n txout htxout hmine hflag
    rw [hfixed.poolSpends herasable, hflag]
    by_cases hnone : s.txdb.readTxIndex hash = none ∧ ¬ wtx.isGeneration
    · have hindex : ¬ IndexSpends s hash n := fun ⟨txindex, hread, _⟩ => nomatch hnone.1.symm.trans hread
      rw [if_pos hnone, if_neg fun h => h.1 hnone]
      simp only [hindex, false_or]
    · rw [if_neg hnone, if_pos ⟨hnone, hmine, hold⟩, ← indexSpends_iff]
      exact ⟨fun h hpool => h.mpr (.inr hpool), fun h => ⟨.inl, fun h' => h'.elim id h⟩⟩
  constructor
  · intro hrepaired hash wtx hlookup hold n txout htxout hmine
    obtain ⟨hdeep, hnotshallow⟩ := deep_of_fresh (hfresh hash wtx hlookup) hold
    have houtcome := hfixed.some hash wtx hlookup
    unfold Outcome at houtcome
    rw [if_neg fun h => hnotshallow h.2] at houtcome
    obtain ⟨wtx', hfound, hcore, hflags⟩ := houtcome
    refine (hone hash wtx wtx' hlookup hold n txout htxout hmine (hflags n txout htxout)).mp ?_
    refine hrepaired hash wtx' hfound ?_ hold n txout ?_ (hfixed.isMine.trans hmine)
    · rw [hcore.getDepthInMainChain]
      exact hdeep
    · rw [hcore.tx]
      exact htxout
  · intro hagrees hash wtx' hfound hdeep hold n txout htxout hmine
    obtain ⟨wtx, hlookup, -, hcore, hflags⟩ := hfixed.source hfound
    rw [hcore.tx] at htxout
    have hmine' : w.isMine P txout = true := hfixed.isMine.symm.trans hmine
    exact (hone hash wtx wtx' hlookup hold n txout htxout hmine' (hflags n txout htxout)).mpr
      (hagrees hash wtx hlookup hold n txout htxout hmine')

/-- An orphan that is still there is found again. -/
theorem orphan_found (hkeyed : w'.Keyed P) (hlookup : w'.mapWallet.lookup hash = some wtx)
    (horphan : wtx.isStale P s e hash ∨ wtx.isShallow P s)
    (hsecond : ∃ st', fixSpentCoins P s e true w' = .ok st' ∧ st'.nMismatchFound = 0 ∧ st'.nOrphansFound = 0) : False := by
  obtain ⟨st', hrun, -, hzero⟩ := hsecond
  obtain ⟨st'', hrun', -, -, hcount⟩ := @run_check P s e ⟨w', 0, 0, 0⟩ w'.mapWallet.keys (allThere_keys hkeyed)
  obtain rfl : st' = st'' := Except.ok.inj (hrun.symm.trans hrun')
  have hle := hcount hash (mem_keys hlookup) wtx hlookup
  have hpos : 0 < orphanCount P s e hash wtx := by
    unfold orphanCount
    rcases horphan with hstale | hshallow
    · rw [if_pos hstale]
      omega
    · rw [if_pos hshallow]
      omega
  simp only at hle
  omega

/-- **`FixSpentCoins` does what is expected of it exactly where** no
transaction is stale, no orphaned generation has to stay, and the flags are
not left to the memory pool. -/
theorem fixesSpentCoins_iff (P : Params) (s : Node) (e : FixEnv) (w : CWallet) (hkeyed : w.Keyed P) :
    FixesSpentCoins P s e w ↔ Fixable P s e w := by
  constructor
  · intro ⟨_, st, hrun, hrepaired, hsecond⟩
    have hkept := @run_stale P s e ⟨w, 0, 0, 0⟩ st w.mapWallet.keys w.mapWallet.keys_nodup (allThere_keys hkeyed) hrun
    obtain ⟨st', hrun', hfixed⟩ := exists_fixed hkeyed fun hash wtx hlookup => hkept hash (mem_keys hlookup) wtx hlookup
    obtain rfl : st = st' := Except.ok.inj (hrun.symm.trans hrun')
    have hfresh : ∀ hash wtx, w.mapWallet.lookup hash = some wtx → ¬ wtx.isStale P s e hash := by
      intro hash wtx hlookup hstale
      -- without a file it is still there
      have hfile : ¬ e.fFileBacked = true := fun hfile => hkept hash (mem_keys hlookup) wtx hlookup ⟨hstale, hfile⟩
      obtain ⟨wtx', hafter, hcore⟩ := hfixed.remains hlookup fun h => hfile h.1
      exact orphan_found (hfixed.keyed hkeyed) hafter (.inl (hcore.isStale.mpr hstale)) (hsecond true)
    have herasable : e.fFileBacked = true ∨ ∀ hash wtx, w.mapWallet.lookup hash = some wtx → ¬ wtx.isShallow P s := by
      by_cases hfile : e.fFileBacked = true
      · exact .inl hfile
      · refine .inr fun hash wtx hlookup hshallow => ?_
        obtain ⟨wtx', hafter, hcore⟩ := hfixed.remains hlookup fun h => hfile h.1
        exact orphan_found (hfixed.keyed hkeyed) hafter (.inr (hcore.isShallow.mpr hshallow)) (hsecond true)
    exact ⟨hfresh, herasable, (repaired_iff hfixed hfresh herasable).mp hrepaired⟩
  · intro h
    obtain ⟨st, hrun, hfixed⟩ := exists_fixed hkeyed fun hash wtx hlookup hstale => h.fresh hash wtx hlookup hstale.1
    obtain ⟨st', hcheck, hsame, -, -⟩ := @run_check P s e ⟨w, 0, 0, 0⟩ w.mapWallet.keys (allThere_keys hkeyed)
    exact ⟨⟨st', hcheck, hsame⟩, st, hrun, (repaired_iff hfixed h.fresh h.erasable).mpr h.agrees,
      fun fCheckOnly => ⟨_, second_run hkeyed hfixed h fCheckOnly, rfl, rfl⟩⟩

end Spec

/-! ## A payment that never got into a block -/

namespace Sample

def staleTx : CTransaction := ⟨1, 1000, [⟨⟨7, 0⟩, [], UINT_MAX⟩], [⟨5 * COIN, [1]⟩], 0⟩

def staleWallet : CWallet := ⟨(∅ : Map Uint256 CWalletTx).insert 1000 (.ofTx staleTx), [[1]], 0⟩

/-- The payment came a thousand seconds ago. -/
def fixEnv : FixEnv := ⟨2000, fun _ => 1000, true⟩

theorem keyed_staleWallet : staleWallet.Keyed (params true) := by
  intro hash wtx hlookup
  unfold staleWallet at hlookup
  by_cases heq : hash = 1000
  · subst heq
    rw [AList.lookup_insert] at hlookup
    obtain rfl := Option.some.inj hlookup
    rfl
  · rw [AList.lookup_insert_ne heq, AList.lookup_empty] at hlookup
    exact nomatch hlookup

end Sample

theorem fixesSpentCoins_iff_sample :
    FixesSpentCoins (Sample.params true) (Node.empty []) Sample.fixEnv Sample.staleWallet ↔
      Fixable (Sample.params true) (Node.empty []) Sample.fixEnv Sample.staleWallet :=
  fixesSpentCoins_iff (Sample.params true) (Node.empty []) Sample.fixEnv Sample.staleWallet Sample.keyed_staleWallet

/-- It is erased, and then its outputs are looked at. -/
theorem not_fixesSpentCoins_staleWallet :
    ¬ FixesSpentCoins (Sample.params true) (Node.empty []) Sample.fixEnv Sample.staleWallet := by
  intro h
  obtain ⟨st, hrun, -⟩ := h.repair
  have herror : (fixSpentCoins (Sample.params true) (Node.empty []) Sample.fixEnv false Sample.staleWallet).isOk = false := by
    decide +kernel
  rw [hrun] at herror
  exact nomatch herror

end Pinkcoin
