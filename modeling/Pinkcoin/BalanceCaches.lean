/-
What the transactions of the wallet have cached of their balances, and what the
wallet does that changes them: some of it clears caches, of all transactions or
of one, and some does not.
-/
import Mathlib.Logic.Function.Basic
import Pinkcoin.Balances
import Pinkcoin.Lib.Runs
import Pinkcoin.SpentCoins

namespace Pinkcoin

/-! ## Changes of what is owned -/

namespace Ownership

variable (o : Ownership)

/-- `AddKey`, of an open wallet. -/
def addKey (keyID : CKeyID) : Ownership := { o with haveKey := fun id => decide (id = keyID) || o.haveKey id }

/-- `AddCScript`. -/
def addCScript (redeemScript : CScript) : Ownership :=
  if redeemScript.length > MAX_SCRIPT_ELEMENT_SIZE then o
  else { o with getCScript := Function.update o.getCScript (o.hash160 redeemScript) (some redeemScript) }

def setAddressBookName (address : CTxDestination) (strName : String) : Ownership :=
  { o with mapAddressBook := Function.update o.mapAddressBook address (some strName) }

def delAddressBookName (address : CTxDestination) : Ownership :=
  { o with mapAddressBook := Function.update o.mapAddressBook address none }

end Ownership

/-! ## Caches -/

/-- What a wallet transaction has cached. -/
structure TxCaches where
  debit : Option Int
  credit : Option Int
  availableCredit : Option Int
  change : Option Int

/-- The caches when a transaction is dirty. -/
def TxCaches.dirty : TxCaches := ⟨none, none, none, none⟩

/-- The wallet with the caches of its transactions. -/
structure CachedBooks where
  books : WalletBooks
  caches : Uint256 → TxCaches

/-- The unspent own outputs of a transaction. -/
def WalletBooks.unspentCredit (b : WalletBooks) (wtx : CWalletTx) : Int :=
  (wtx.tx.vout.zipIdx.map fun out => if ¬ wtx.isSpent out.2 ∧ b.own.isMine out.1 then out.1.nValue else 0).sum

namespace CachedBooks

variable (s : CachedBooks) (hash : Uint256)

def setCaches (c : TxCaches) : CachedBooks := { s with caches := Function.update s.caches hash c }

/-- `CWalletTx::MarkDirty`. -/
def markTxDirty : CachedBooks := s.setCaches hash .dirty

/-- `CWallet::MarkDirty`. -/
def markDirty : CachedBooks := { s with caches := fun _ => .dirty }

/-! ## Reading -/

/-- `GetDebit`. -/
def getDebit (wtx : CWalletTx) : Int × CachedBooks :=
  if wtx.tx.vin = [] then (0, s)
  else
    match (s.caches hash).debit with
    | some nDebitCached => (nDebitCached, s)
    | none =>
      let nDebit := s.books.getDebit wtx.tx
      (nDebit, s.setCaches hash { s.caches hash with debit := some nDebit })

/-- `GetCredit`. -/
def getCredit (wtx : CWalletTx) (fUseCache : Bool) : Int × CachedBooks :=
  if s.books.isImmature wtx then (0, s)
  else
    match if fUseCache then (s.caches hash).credit else none with
    | some nCreditCached => (nCreditCached, s)
    | none =>
      let nCredit := s.books.getCreditTx wtx.tx
      (nCredit, s.setCaches hash { s.caches hash with credit := some nCredit })

/-- `GetAvailableCredit`. -/
def getAvailableCredit (wtx : CWalletTx) (fUseCache : Bool) : Int × CachedBooks :=
  if s.books.isImmature wtx then (0, s)
  else
    match if fUseCache then (s.caches hash).availableCredit else none with
    | some nAvailableCreditCached => (nAvailableCreditCached, s)
    | none =>
      let nCredit := s.books.unspentCredit wtx
      (nCredit, s.setCaches hash { s.caches hash with availableCredit := some nCredit })

/-- `GetChange`. -/
def getChange (wtx : CWalletTx) : Int × CachedBooks :=
  match (s.caches hash).change with
  | some nChangeCached => (nChangeCached, s)
  | none =>
    let nChange := s.books.getChange wtx.tx
    (nChange, s.setCaches hash { s.caches hash with change := some nChange })

/-! ## Changes -/

/-- A transaction of the wallet is put in its place. -/
def put (wtx : CWalletTx) : CachedBooks :=
  { s with books := { s.books with mapWallet := s.books.mapWallet.insert hash wtx } }

/-- `MarkSpent` and `MarkUnspent`: only a flag that changes clears a cache. An
index out of range is an exception. -/
def markOutput (fSpent : Bool) (nOut : Nat) : CachedBooks :=
  match s.books.mapWallet.lookup hash with
  | none => s
  | some wtx =>
    if nOut < wtx.tx.vout.length then
      let s' := if wtx.isSpent nOut = fSpent then s else s.setCaches hash { s.caches hash with availableCredit := none }
      s'.put hash { wtx with vfSpent := wtx.resizedSpent.set nOut fSpent }
    else s

def markSpent (nOut : Nat) : CachedBooks := s.markOutput hash true nOut

def markUnspent (nOut : Nat) : CachedBooks := s.markOutput hash false nOut

/-- One input of `WalletUpdateSpent`. What it prints asks for the credit. -/
def updateSpentInput (txin : CTxIn) : CachedBooks :=
  match s.books.mapWallet.lookup txin.prevout.hash with
  | none => s
  | some wtx =>
    match wtx.tx.vout[txin.prevout.n]? with
    | none => s
    | some txout =>
      if ¬ wtx.isSpent txin.prevout.n ∧ s.books.own.isMine txout then
        ((s.getCredit txin.prevout.hash wtx true).2).markSpent txin.prevout.hash txin.prevout.n
      else s

/-- `WalletUpdateSpent`, of the transaction with this hash. -/
def walletUpdateSpent (tx : CTransaction) (fBlock : Bool) : CachedBooks :=
  let s' := tx.vin.foldl updateSpentInput s
  if fBlock then
    tx.vout.zipIdx.foldl (fun s out => if s.books.own.isMine out.1 then s.markUnspent hash out.2 else s) s'
  else s'

/-- `AddToWallet`, of the transaction with this hash. A new one is bound to the
wallet, with its time and place; one that is there is bound again. When it
cannot be written (`fWritten` false) that is all. -/
def addToWallet (wtxIn : CWalletTx) (nTimeReceived nOrderPos : Int) (fWritten : Bool) : CachedBooks :=
  match s.books.mapWallet.lookup hash with
  | none =>
    let wtx := { wtxIn with nTimeReceived := nTimeReceived, nOrderPos := nOrderPos }
    let s' := (s.put hash wtx).markTxDirty hash
    if fWritten then s'.walletUpdateSpent hash wtx.tx (wtxIn.hashBlock ≠ 0) else s'
  | some wtx =>
    let wtx' := CWallet.mergeTx wtxIn wtx
    let s' := (s.put hash wtx').markTxDirty hash
    if wtx' = wtx ∨ fWritten then s'.walletUpdateSpent hash wtx'.tx (wtxIn.hashBlock ≠ 0) else s'

/-- `EraseFromWallet`. -/
def eraseFromWallet : CachedBooks :=
  { books := { s.books with mapWallet := s.books.mapWallet.erase hash }
    caches := Function.update s.caches hash .dirty }

/-- The keys, the scripts or the labels are others. No cache is cleared. -/
def withOwn (own : Ownership) : CachedBooks := { s with books := { s.books with own := own } }

/-- `importprivkey`, before the chain is scanned. -/
def importPrivKey (keyID : CKeyID) (strLabel : String) : CachedBooks :=
  let s' := s.markDirty.withOwn (s.books.own.setAddressBookName (.keyID keyID) strLabel)
  if s'.books.own.haveKey keyID then s' else s'.withOwn (s'.books.own.addKey keyID)

/-- One key of `importwallet`. -/
def importKey (key : CKeyID × Option String) : CachedBooks :=
  if s.books.own.haveKey key.1 then s
  else
    let own := s.books.own.addKey key.1
    s.withOwn (key.2.elim own (own.setAddressBookName (.keyID key.1)))

end CachedBooks

/-! ## Runs -/

/-- What happens to the wallet. `CommitTransaction`, `FixSpentCoins`,
`ReacceptWalletTransactions`, `DisableTransaction` and a scan of the chain are
some of these one after the other; a new key of a stealth payment, or one from
the pool, is `addKey`. -/
inductive BalanceEvent
  | getDebit (hash : Uint256)
  | getCredit (hash : Uint256) (fUseCache : Bool)
  | getAvailableCredit (hash : Uint256) (fUseCache : Bool)
  | getChange (hash : Uint256)
  | addToWallet (hash : Uint256) (wtxIn : CWalletTx) (nTimeReceived nOrderPos : Int) (fWritten : Bool)
  | walletUpdateSpent (hash : Uint256) (tx : CTransaction)
  | eraseFromWallet (hash : Uint256)
  | markSpent (hash : Uint256) (nOut : Nat)
  | markUnspent (hash : Uint256) (nOut : Nat)
  | markTxDirty (hash : Uint256)
  | markDirty
  | addKey (keyID : CKeyID)
  | addCScript (redeemScript : CScript)
  | setAddressBookName (address : CTxDestination) (strName : String)
  | delAddressBookName (address : CTxDestination)
  | importPrivKey (keyID : CKeyID) (strLabel : String)
  | chain (isFinal : CWalletTx → Bool) (getDepthInMainChain : CWalletTx → Int) (isConfirmed : CWalletTx → Bool)

namespace CachedBooks

/-- A transaction of the wallet is read. -/
def readTx (s : CachedBooks) (hash : Uint256) (read : CWalletTx → Int × CachedBooks) : CachedBooks :=
  match s.books.mapWallet.lookup hash with
  | none => s
  | some wtx => (read wtx).2

def event (e : BalanceEvent) (s : CachedBooks) : CachedBooks :=
  match e with
  | .getDebit hash => s.readTx hash (s.getDebit hash)
  | .getCredit hash fUseCache => s.readTx hash (s.getCredit hash · fUseCache)
  | .getAvailableCredit hash fUseCache => s.readTx hash (s.getAvailableCredit hash · fUseCache)
  | .getChange hash => s.readTx hash (s.getChange hash)
  | .addToWallet hash wtxIn nTimeReceived nOrderPos fWritten =>
    s.addToWallet hash wtxIn nTimeReceived nOrderPos fWritten
  | .walletUpdateSpent hash tx => s.walletUpdateSpent hash tx false
  | .eraseFromWallet hash => s.eraseFromWallet hash
  | .markSpent hash nOut => s.markSpent hash nOut
  | .markUnspent hash nOut => s.markUnspent hash nOut
  | .markTxDirty hash => s.markTxDirty hash
  | .markDirty => s.markDirty
  | .addKey keyID => s.withOwn (s.books.own.addKey keyID)
  | .addCScript redeemScript => s.withOwn (s.books.own.addCScript redeemScript)
  | .setAddressBookName address strName => s.withOwn (s.books.own.setAddressBookName address strName)
  | .delAddressBookName address => s.withOwn (s.books.own.delAddressBookName address)
  | .importPrivKey keyID strLabel => s.importPrivKey keyID strLabel
  | .chain isFinal getDepthInMainChain isConfirmed =>
    { s with books := { s.books with
        isFinal := isFinal, getDepthInMainChain := getDepthInMainChain, isConfirmed := isConfirmed } }

end CachedBooks

/-- A call on the wallet. `importwallet` adds keys, scans the chain, and marks
all dirty at its end. -/
inductive BalanceCall
  | event (e : BalanceEvent)
  | importWallet (vKeys : List (CKeyID × Option String)) (scan : List BalanceEvent)

namespace CachedBooks

def call (c : BalanceCall) (s : CachedBooks) : CachedBooks :=
  match c with
  | .event e => event e s
  | .importWallet vKeys scan => (Runs.play event scan (vKeys.foldl importKey s)).markDirty

/-- **The caches of a transaction are coherent**: each of its four values is what
it would be if they were cleared first. -/
structure CoherentAt (s : CachedBooks) (hash : Uint256) (wtx : CWalletTx) : Prop where
  debit : (s.getDebit hash wtx).1 = ((s.markTxDirty hash).getDebit hash wtx).1
  credit : ∀ fUseCache, (s.getCredit hash wtx fUseCache).1 = ((s.markTxDirty hash).getCredit hash wtx fUseCache).1
  availableCredit : ∀ fUseCache,
    (s.getAvailableCredit hash wtx fUseCache).1 = ((s.markTxDirty hash).getAvailableCredit hash wtx fUseCache).1
  change : (s.getChange hash wtx).1 = ((s.markTxDirty hash).getChange hash wtx).1

def Coherent (s : CachedBooks) : Prop :=
  ∀ hash wtx, s.books.mapWallet.lookup hash = some wtx → s.CoherentAt hash wtx

/-! ## The condition -/

/-- No transaction with a cached debit spends an own output of worth of this
one. -/
def Unspending (s : CachedBooks) (hash : Uint256) (tx : CTransaction) : Prop :=
  ∀ hash' wtx, s.books.mapWallet.lookup hash' = some wtx → hash' ≠ hash → (s.caches hash').debit ≠ none →
    ∀ txin ∈ wtx.tx.vin, txin.prevout.hash = hash → ∀ txout, tx.vout[txin.prevout.n]? = some txout →
      s.books.own.isMine txout = true → txout.nValue = 0

/-- An output is as much the wallet's as it was, or worth nothing. -/
def SameMine (own own' : Ownership) (txout : CTxOut) : Prop := own'.isMine txout = own.isMine txout ∨ txout.nValue = 0

/-- **What is cached does not depend on what changes hands**: whatever an own
transaction has cached is of outputs that are own as before, or change as
before. -/
structure OwnKept (s : CachedBooks) (own' : Ownership) : Prop where
  debit : ∀ hash wtx, s.books.mapWallet.lookup hash = some wtx → (s.caches hash).debit ≠ none →
    ∀ txin ∈ wtx.tx.vin, ∀ txout, s.books.spends txin = some txout → SameMine s.books.own own' txout
  credit : ∀ hash wtx, s.books.mapWallet.lookup hash = some wtx → (s.caches hash).credit ≠ none →
    ∀ txout ∈ wtx.tx.vout, SameMine s.books.own own' txout
  availableCredit : ∀ hash wtx, s.books.mapWallet.lookup hash = some wtx → (s.caches hash).availableCredit ≠ none →
    ∀ out ∈ wtx.tx.vout.zipIdx, wtx.isSpent out.2 = false → SameMine s.books.own own' out.1
  change : ∀ hash wtx, s.books.mapWallet.lookup hash = some wtx → (s.caches hash).change ≠ none →
    ∀ txout ∈ wtx.tx.vout, own'.isChange txout = s.books.own.isChange txout ∨ txout.nValue = 0

/-- The condition of an event, on the wallet before it. -/
def EventKept (e : BalanceEvent) (s : CachedBooks) : Prop :=
  match e with
  | .addToWallet hash wtxIn _ _ _ => s.books.mapWallet.lookup hash = none → s.Unspending hash wtxIn.tx
  | .eraseFromWallet hash => ∀ wtx, s.books.mapWallet.lookup hash = some wtx → s.Unspending hash wtx.tx
  | .addKey keyID => s.OwnKept (s.books.own.addKey keyID)
  | .addCScript redeemScript => s.OwnKept (s.books.own.addCScript redeemScript)
  | .setAddressBookName address strName => s.OwnKept (s.books.own.setAddressBookName address strName)
  | .delAddressBookName address => s.OwnKept (s.books.own.delAddressBookName address)
  | _ => True

def CallKept (c : BalanceCall) (s : CachedBooks) : Prop :=
  match c with
  | .event e => EventKept e s
  | .importWallet _ _ => True

end CachedBooks

/-! ## What is cached is what it would be -/

/-- A cached value is the one it stands for. -/
def StandsFor (cached : Option Int) (n : Int) : Prop := ∀ m, cached = some m → m = n

/-- What a transaction has cached is what it would be. -/
structure TxCaches.Sound (c : TxCaches) (b : WalletBooks) (wtx : CWalletTx) : Prop where
  debit : StandsFor c.debit (b.getDebit wtx.tx)
  credit : StandsFor c.credit (b.getCreditTx wtx.tx)
  availableCredit : StandsFor c.availableCredit (b.unspentCredit wtx)
  change : StandsFor c.change (b.getChange wtx.tx)

theorem standsFor_none {n : Int} : StandsFor none n := fun _ h => nomatch h

theorem standsFor_some (n : Int) : StandsFor (some n) n := fun _ h => (Option.some.inj h).symm

/-- A value that is the same where it is cached. -/
theorem StandsFor.of_eq {cached : Option Int} {n n' : Int} (h : StandsFor cached n) (hsame : cached ≠ none → n' = n) :
    StandsFor cached n' := by
  intro m hm
  rw [h m hm, hsame (by rw [hm]; exact Option.some_ne_none m)]

theorem TxCaches.sound_dirty (b : WalletBooks) (wtx : CWalletTx) : TxCaches.dirty.Sound b wtx :=
  ⟨standsFor_none, standsFor_none, standsFor_none, standsFor_none⟩

/-- Caches stay sound when what is cached is the same. -/
theorem TxCaches.Sound.of_eq {c : TxCaches} {b b' : WalletBooks} {wtx wtx' : CWalletTx} (h : c.Sound b wtx)
    (hdebit : c.debit ≠ none → b'.getDebit wtx'.tx = b.getDebit wtx.tx)
    (hcredit : c.credit ≠ none → b'.getCreditTx wtx'.tx = b.getCreditTx wtx.tx)
    (havailable : c.availableCredit ≠ none → b'.unspentCredit wtx' = b.unspentCredit wtx)
    (hchange : c.change ≠ none → b'.getChange wtx'.tx = b.getChange wtx.tx) : c.Sound b' wtx' :=
  ⟨h.debit.of_eq hdebit, h.credit.of_eq hcredit, h.availableCredit.of_eq havailable, h.change.of_eq hchange⟩

namespace CachedBooks

/-- **Every cache is sound.** -/
def Sound (s : CachedBooks) : Prop :=
  ∀ hash wtx, s.books.mapWallet.lookup hash = some wtx → (s.caches hash).Sound s.books wtx

variable {s : CachedBooks} {hash : Uint256} {wtx : CWalletTx}

@[simp] theorem setCaches_books (c : TxCaches) : (s.setCaches hash c).books = s.books := rfl

@[simp] theorem setCaches_self (c : TxCaches) : (s.setCaches hash c).caches hash = c := Function.update_self ..

theorem setCaches_other {hash' : Uint256} (c : TxCaches) (hne : hash' ≠ hash) :
    (s.setCaches hash c).caches hash' = s.caches hash' := Function.update_of_ne hne ..

theorem Sound.setCaches (h : s.Sound) {c : TxCaches}
    (hc : ∀ wtx, s.books.mapWallet.lookup hash = some wtx → c.Sound s.books wtx) : (s.setCaches hash c).Sound := by
  intro hash' wtx hlookup
  by_cases heq : hash' = hash
  · subst heq
    rw [setCaches_self]
    exact hc wtx hlookup
  · rw [setCaches_other c heq]
    exact h hash' wtx hlookup

theorem Sound.markTxDirty (h : s.Sound) : (s.markTxDirty hash).Sound :=
  h.setCaches fun wtx _ => TxCaches.sound_dirty s.books wtx

theorem sound_markDirty (s : CachedBooks) : s.markDirty.Sound := fun _ wtx _ => TxCaches.sound_dirty s.books wtx

/-! ## Reading -/

theorem getDebit_eq (h : (s.caches hash).Sound s.books wtx) : (s.getDebit hash wtx).1 = s.books.getDebit wtx.tx := by
  unfold getDebit
  by_cases hvin : wtx.tx.vin = []
  · rw [if_pos hvin, WalletBooks.getDebit, hvin]
    rfl
  · rw [if_neg hvin]
    split
    next hcached => exact h.debit _ hcached
    next => rfl

theorem getCredit_eq (h : (s.caches hash).Sound s.books wtx) (fUseCache : Bool) :
    (s.getCredit hash wtx fUseCache).1 = s.books.getCredit wtx := by
  unfold getCredit WalletBooks.getCredit
  by_cases himmature : s.books.isImmature wtx = true
  · rw [if_pos himmature, if_pos himmature]
  · rw [if_neg himmature, if_neg himmature]
    cases fUseCache with
    | false => rfl
    | true =>
      split
      next hcached => exact h.credit _ hcached
      next => rfl

theorem getAvailableCredit_eq (h : (s.caches hash).Sound s.books wtx) (fUseCache : Bool) :
    (s.getAvailableCredit hash wtx fUseCache).1 = s.books.getAvailableCredit wtx := by
  unfold getAvailableCredit WalletBooks.getAvailableCredit
  by_cases himmature : s.books.isImmature wtx = true
  · rw [if_pos himmature, if_pos himmature]
  · rw [if_neg himmature, if_neg himmature]
    cases fUseCache with
    | false => rfl
    | true =>
      split
      next hcached => exact h.availableCredit _ hcached
      next => rfl

theorem getChange_eq (h : (s.caches hash).Sound s.books wtx) :
    (s.getChange hash wtx).1 = s.books.getChange wtx.tx := by
  unfold getChange
  split
  next hcached => exact h.change _ hcached
  next => rfl

/-- **Sound caches are coherent**: each read is what it would be anyhow. -/
theorem Sound.coherent (h : s.Sound) : s.Coherent := by
  intro hash wtx hlookup
  have hsound := h hash wtx hlookup
  have hdirty : ((s.markTxDirty hash).caches hash).Sound (s.markTxDirty hash).books wtx :=
    h.markTxDirty hash wtx hlookup
  exact {
    debit := (getDebit_eq hsound).trans (getDebit_eq hdirty).symm
    credit := fun fUseCache => (getCredit_eq hsound fUseCache).trans (getCredit_eq hdirty fUseCache).symm
    availableCredit := fun fUseCache =>
      (getAvailableCredit_eq hsound fUseCache).trans (getAvailableCredit_eq hdirty fUseCache).symm
    change := (getChange_eq hsound).trans (getChange_eq hdirty).symm }

/-- A value that is cached anew is the one it stands for. -/
theorem Sound.getDebit (h : s.Sound) (hlookup : s.books.mapWallet.lookup hash = some wtx) :
    (s.getDebit hash wtx).2.Sound := by
  unfold CachedBooks.getDebit
  split
  · exact h
  · split
    · exact h
    · refine h.setCaches fun wtx' hlookup' => ?_
      rw [← Option.some.inj (hlookup.symm.trans hlookup')]
      exact { h hash wtx hlookup with debit := standsFor_some _ }

theorem Sound.getCredit (h : s.Sound) (hlookup : s.books.mapWallet.lookup hash = some wtx) (fUseCache : Bool) :
    (s.getCredit hash wtx fUseCache).2.Sound := by
  unfold CachedBooks.getCredit
  split
  · exact h
  · split
    · exact h
    · refine h.setCaches fun wtx' hlookup' => ?_
      rw [← Option.some.inj (hlookup.symm.trans hlookup')]
      exact { h hash wtx hlookup with credit := standsFor_some _ }

theorem Sound.getAvailableCredit (h : s.Sound) (hlookup : s.books.mapWallet.lookup hash = some wtx)
    (fUseCache : Bool) : (s.getAvailableCredit hash wtx fUseCache).2.Sound := by
  unfold CachedBooks.getAvailableCredit
  split
  · exact h
  · split
    · exact h
    · refine h.setCaches fun wtx' hlookup' => ?_
      rw [← Option.some.inj (hlookup.symm.trans hlookup')]
      exact { h hash wtx hlookup with availableCredit := standsFor_some _ }

theorem Sound.getChange (h : s.Sound) (hlookup : s.books.mapWallet.lookup hash = some wtx) :
    (s.getChange hash wtx).2.Sound := by
  unfold CachedBooks.getChange
  split
  · exact h
  · refine h.setCaches fun wtx' hlookup' => ?_
    rw [← Option.some.inj (hlookup.symm.trans hlookup')]
    exact { h hash wtx hlookup with change := standsFor_some _ }

/-- Reading a transaction of the wallet, whichever of its values. -/
theorem Sound.readTx (h : s.Sound) {read : CWalletTx → Int × CachedBooks}
    (hread : ∀ wtx, s.books.mapWallet.lookup hash = some wtx → (read wtx).2.Sound) : (s.readTx hash read).Sound := by
  unfold CachedBooks.readTx
  split
  next => exact h
  next wtx hlookup => exact hread wtx hlookup

/-! ## Flags -/

theorem spends_put {wtx' : CWalletTx} (hlookup : s.books.mapWallet.lookup hash = some wtx) (htx : wtx'.tx = wtx.tx)
    (txin : CTxIn) : (s.put hash wtx').books.spends txin = s.books.spends txin := by
  unfold WalletBooks.spends put
  dsimp only
  by_cases heq : txin.prevout.hash = hash
  · rw [heq, AList.lookup_insert, hlookup, Option.bind_some, Option.bind_some, htx]
  · rw [AList.lookup_insert_ne heq]

theorem getDebit_put {wtx' : CWalletTx} (hlookup : s.books.mapWallet.lookup hash = some wtx) (htx : wtx'.tx = wtx.tx)
    (tx : CTransaction) : (s.put hash wtx').books.getDebit tx = s.books.getDebit tx := by
  unfold WalletBooks.getDebit
  congr 1
  refine List.map_congr_left fun txin _ => ?_
  unfold WalletBooks.getDebitIn
  rw [spends_put hlookup htx]
  rfl

/-- **A transaction that is changed in place**: its inputs and outputs are the
same, and its flags where they are cached. -/
theorem Sound.put (h : s.Sound) {wtx' : CWalletTx} (hlookup : s.books.mapWallet.lookup hash = some wtx)
    (htx : wtx'.tx = wtx.tx)
    (hflags : (s.caches hash).availableCredit ≠ none → s.books.unspentCredit wtx' = s.books.unspentCredit wtx) :
    (s.put hash wtx').Sound := by
  intro hash' wtx'' hlookup'
  change (s.books.mapWallet.insert hash wtx').lookup hash' = some wtx'' at hlookup'
  by_cases heq : hash' = hash
  · subst heq
    rw [AList.lookup_insert] at hlookup'
    obtain rfl := Option.some.inj hlookup'
    refine (h hash' wtx hlookup).of_eq (fun _ => ?_) (fun _ => ?_) hflags fun _ => ?_
    · rw [getDebit_put hlookup htx, htx]
    · rw [htx]
      rfl
    · rw [htx]
      rfl
  · rw [AList.lookup_insert_ne heq] at hlookup'
    exact (h hash' wtx'' hlookup').of_eq (fun _ => getDebit_put hlookup htx _) (fun _ => rfl) (fun _ => rfl)
      fun _ => rfl

/-- A flag that is set to what it was. -/
theorem unspentCredit_set (b : WalletBooks) {nOut : Nat} {fSpent : Bool} (hsame : wtx.isSpent nOut = fSpent) :
    b.unspentCredit { wtx with vfSpent := wtx.resizedSpent.set nOut fSpent } = b.unspentCredit wtx := by
  unfold WalletBooks.unspentCredit
  congr 1
  refine List.map_congr_left fun out hout => ?_
  have hlt : out.2 < wtx.tx.vout.length :=
    (List.getElem?_eq_some_iff.mp (List.mem_zipIdx_iff_getElem?.mp hout)).1
  have hflag : ({ wtx with vfSpent := wtx.resizedSpent.set nOut fSpent } : CWalletTx).isSpent out.2 =
      wtx.isSpent out.2 := by
    rw [isSpent_set hlt]
    split
    next heq => rw [← heq, hsame]
    next => rfl
  rw [hflag]

theorem Sound.markOutput (h : s.Sound) (fSpent : Bool) (nOut : Nat) : (s.markOutput hash fSpent nOut).Sound := by
  unfold CachedBooks.markOutput
  cases hlookup : s.books.mapWallet.lookup hash with
  | none => exact h
  | some wtx =>
    dsimp only
    split
    · by_cases hsame : wtx.isSpent nOut = fSpent
      · rw [if_pos hsame]
        exact h.put hlookup rfl fun _ => unspentCredit_set s.books hsame
      · rw [if_neg hsame]
        have hcleared : (s.setCaches hash { s.caches hash with availableCredit := none }).Sound :=
          h.setCaches fun wtx' hlookup' => { h hash wtx' hlookup' with availableCredit := standsFor_none }
        refine hcleared.put hlookup rfl fun hcached => absurd ?_ hcached
        rw [setCaches_self]
    · exact h

theorem Sound.foldl {α : Type} {step : CachedBooks → α → CachedBooks} (hstep : ∀ s a, s.Sound → (step s a).Sound)
    (l : List α) (h : s.Sound) : (l.foldl step s).Sound := by
  induction l generalizing s with
  | nil => exact h
  | cons a l ih => exact ih (hstep s a h)

theorem Sound.updateSpentInput (h : s.Sound) (txin : CTxIn) : (s.updateSpentInput txin).Sound := by
  unfold CachedBooks.updateSpentInput
  split
  · exact h
  next wtx hlookup =>
    split
    · exact h
    · split
      · exact (h.getCredit hlookup true).markOutput true _
      · exact h

/-- `WalletUpdateSpent` clears what it changes. -/
theorem Sound.walletUpdateSpent (h : s.Sound) (hash : Uint256) (tx : CTransaction) (fBlock : Bool) :
    (s.walletUpdateSpent hash tx fBlock).Sound := by
  have hinputs : (tx.vin.foldl CachedBooks.updateSpentInput s).Sound :=
    h.foldl (fun s txin hs => hs.updateSpentInput txin) tx.vin
  unfold CachedBooks.walletUpdateSpent
  dsimp only
  split
  · refine hinputs.foldl (fun s out hs => ?_) _
    split
    · exact hs.markOutput false out.2
    · exact hs
  · exact hinputs

/-! ## Transactions -/

/-- What an input is worth when the transaction it spends from is added, or is
removed. -/
theorem getDebit_of_unspending {b b' : WalletBooks} (hash : Uint256) (tx : CTransaction) {spending : CTransaction}
    (hown : b'.own = b.own)
    (hother : ∀ hash', hash' ≠ hash → b'.mapWallet.lookup hash' = b.mapWallet.lookup hash')
    (hone : (b.mapWallet.lookup hash = none ∧ ∃ wtx, b'.mapWallet.lookup hash = some wtx ∧ wtx.tx = tx) ∨
      (b'.mapWallet.lookup hash = none ∧ ∃ wtx, b.mapWallet.lookup hash = some wtx ∧ wtx.tx = tx))
    (hnone : ∀ txin ∈ spending.vin, txin.prevout.hash = hash → ∀ txout, tx.vout[txin.prevout.n]? = some txout →
      b.own.isMine txout = true → txout.nValue = 0) : b'.getDebit spending = b.getDebit spending := by
  have hworth : ∀ txin ∈ spending.vin, txin.prevout.hash = hash → ∀ txout ∈ tx.vout[txin.prevout.n]?,
      (if b.own.isMine txout then txout.nValue else 0) = 0 := by
    intro txin hin heq txout hout
    split
    next hmine => exact hnone txin hin heq txout hout hmine
    next => rfl
  unfold WalletBooks.getDebit
  congr 1
  refine List.map_congr_left fun txin hin => ?_
  unfold WalletBooks.getDebitIn WalletBooks.spends
  rw [hown]
  by_cases heq : txin.prevout.hash = hash
  · have hzero := hworth txin hin heq
    rw [heq]
    rcases hone with ⟨hbefore, wtx, hafter, rfl⟩ | ⟨hafter, wtx, hbefore, rfl⟩
    all_goals
      rw [hbefore, hafter]
      cases hout : wtx.tx.vout[txin.prevout.n]? with
      | none => simp [hout]
      | some txout => simp [hout, hzero txout hout]
  · rw [hother _ heq]

/-- **A new transaction is sound where none that is cached spends from it.** -/
theorem Sound.insert (h : s.Sound) (hnew : s.books.mapWallet.lookup hash = none)
    (hunspending : s.Unspending hash wtx.tx) : ((s.put hash wtx).markTxDirty hash).Sound := by
  intro hash' wtx' hlookup
  change (s.books.mapWallet.insert hash wtx).lookup hash' = some wtx' at hlookup
  unfold CachedBooks.markTxDirty
  by_cases heq : hash' = hash
  · subst heq
    rw [setCaches_self]
    exact TxCaches.sound_dirty _ _
  · rw [setCaches_other _ heq]
    rw [AList.lookup_insert_ne heq] at hlookup
    refine (h hash' wtx' hlookup).of_eq (fun hcached => ?_) (fun _ => rfl) (fun _ => rfl) fun _ => rfl
    refine getDebit_of_unspending hash wtx.tx rfl (fun _ hne => AList.lookup_insert_ne hne) ?_
      (hunspending hash' wtx' hlookup heq hcached)
    exact .inl ⟨hnew, wtx, AList.lookup_insert .., rfl⟩

theorem Sound.eraseFromWallet (h : s.Sound)
    (hunspending : ∀ wtx, s.books.mapWallet.lookup hash = some wtx → s.Unspending hash wtx.tx) :
    (s.eraseFromWallet hash).Sound := by
  intro hash' wtx' hlookup
  change (s.books.mapWallet.erase hash).lookup hash' = some wtx' at hlookup
  have hne : hash' ≠ hash := by
    rintro rfl
    rw [AList.lookup_erase] at hlookup
    exact nomatch hlookup
  rw [AList.lookup_erase_ne hne] at hlookup
  have hcaches : (s.eraseFromWallet hash).caches hash' = s.caches hash' := Function.update_of_ne hne ..
  rw [hcaches]
  refine (h hash' wtx' hlookup).of_eq (fun hcached => ?_) (fun _ => rfl) (fun _ => rfl) fun _ => rfl
  cases hthere : s.books.mapWallet.lookup hash with
  | none =>
    -- nothing is removed
    have hsame : ∀ hash', (s.books.mapWallet.erase hash).lookup hash' = s.books.mapWallet.lookup hash' := by
      intro hash'
      by_cases heq : hash' = hash
      · rw [heq, AList.lookup_erase, hthere]
      · exact AList.lookup_erase_ne heq
    unfold WalletBooks.getDebit WalletBooks.getDebitIn WalletBooks.spends CachedBooks.eraseFromWallet
    simp only [hsame]
  | some wtx =>
    refine getDebit_of_unspending hash wtx.tx rfl (fun _ hne => AList.lookup_erase_ne hne) ?_
      (hunspending wtx hthere hash' wtx' hlookup hne hcached)
    exact .inr ⟨AList.lookup_erase .., wtx, hthere, rfl⟩

theorem Sound.addToWallet (h : s.Sound) {wtxIn : CWalletTx} (nTimeReceived nOrderPos : Int) (fWritten : Bool)
    (hunspending : s.books.mapWallet.lookup hash = none → s.Unspending hash wtxIn.tx) :
    (s.addToWallet hash wtxIn nTimeReceived nOrderPos fWritten).Sound := by
  unfold CachedBooks.addToWallet
  cases hlookup : s.books.mapWallet.lookup hash with
  | none =>
    have hinsert : ((s.put hash { wtxIn with nTimeReceived := nTimeReceived, nOrderPos := nOrderPos }).markTxDirty
        hash).Sound := h.insert hlookup (hunspending hlookup)
    dsimp only
    split
    · exact hinsert.walletUpdateSpent _ _ _
    · exact hinsert
  | some wtx =>
    -- it is bound anew, so that nothing of it is cached
    have hmerge : ((s.put hash (CWallet.mergeTx wtxIn wtx)).markTxDirty hash).Sound := by
      have hput : (s.markTxDirty hash |>.put hash (CWallet.mergeTx wtxIn wtx)).Sound := by
        refine h.markTxDirty.put hlookup (tx_mergeTx wtxIn wtx) fun hcached => absurd ?_ hcached
        rw [CachedBooks.markTxDirty, setCaches_self]
        rfl
      exact hput
    dsimp only
    split
    · exact hmerge.walletUpdateSpent _ _ _
    · exact hmerge

/-! ## What is owned -/

theorem sum_of_same {α : Type} {v v' : α → Int} {l : List α} (h : ∀ a ∈ l, v a = v' a) :
    (l.map v).sum = (l.map v').sum :=
  congrArg List.sum (List.map_congr_left h)

theorem SameMine.value {own own' : Ownership} {txout : CTxOut} (h : SameMine own own' txout) :
    (if own'.isMine txout then txout.nValue else 0) = if own.isMine txout then txout.nValue else 0 := by
  rcases h with hsame | hzero
  · rw [hsame]
  · rw [hzero]
    split <;> split <;> rfl

/-- **What is cached is the same for the new owner where it is kept.** -/
theorem Sound.withOwn (h : s.Sound) {own' : Ownership} (hkept : s.OwnKept own') : (s.withOwn own').Sound := by
  intro hash wtx hlookup
  change s.books.mapWallet.lookup hash = some wtx at hlookup
  refine (h hash wtx hlookup).of_eq (fun hcached => ?_) (fun hcached => ?_) (fun hcached => ?_) fun hcached => ?_
  · refine sum_of_same fun txin hin => ?_
    unfold WalletBooks.getDebitIn
    change (match s.books.spends txin with
      | none => 0
      | some txout => if own'.isMine txout then txout.nValue else 0) = _
    cases hspends : s.books.spends txin with
    | none => rfl
    | some txout => exact (hkept.debit hash wtx hlookup hcached txin hin txout hspends).value
  · exact sum_of_same fun txout hout => (hkept.credit hash wtx hlookup hcached txout hout).value
  · refine sum_of_same fun out hout => ?_
    cases hspent : wtx.isSpent out.2 with
    | true => simp
    | false =>
      have hvalue := (hkept.availableCredit hash wtx hlookup hcached out hout hspent).value
      simpa [hspent, CachedBooks.withOwn] using hvalue
  · refine sum_of_same fun txout hout => ?_
    rcases hkept.change hash wtx hlookup hcached txout hout with hsame | hzero
    · change (if own'.isChange txout then txout.nValue else 0) = _
      rw [hsame]
    · rw [hzero]
      split <;> split <;> rfl

/-- Where nothing is cached any owner will do. -/
theorem Sound.withOwn_dirty (own' : Ownership) (hdirty : s.caches = fun _ => .dirty) : (s.withOwn own').Sound := by
  intro hash wtx _
  have hcaches : (s.withOwn own').caches = fun _ => .dirty := hdirty
  rw [hcaches]
  exact TxCaches.sound_dirty _ _

theorem sound_importPrivKey (s : CachedBooks) (keyID : CKeyID) (strLabel : String) :
    (s.importPrivKey keyID strLabel).Sound := by
  unfold CachedBooks.importPrivKey
  dsimp only
  split
  · exact Sound.withOwn_dirty _ rfl
  · exact Sound.withOwn_dirty _ rfl

/-! ## Runs -/

/-- **An event that meets its condition keeps the caches sound.** -/
theorem Sound.event (h : s.Sound) {e : BalanceEvent} (hkept : EventKept e s) : (event e s).Sound := by
  cases e with
  | getDebit hash => exact h.readTx fun wtx hlookup => h.getDebit hlookup
  | getCredit hash fUseCache => exact h.readTx fun wtx hlookup => h.getCredit hlookup fUseCache
  | getAvailableCredit hash fUseCache => exact h.readTx fun wtx hlookup => h.getAvailableCredit hlookup fUseCache
  | getChange hash => exact h.readTx fun wtx hlookup => h.getChange hlookup
  | addToWallet hash wtxIn nTimeReceived nOrderPos fWritten =>
    exact h.addToWallet nTimeReceived nOrderPos fWritten hkept
  | walletUpdateSpent hash tx => exact h.walletUpdateSpent hash tx false
  | eraseFromWallet hash => exact h.eraseFromWallet hkept
  | markSpent hash nOut => exact h.markOutput true nOut
  | markUnspent hash nOut => exact h.markOutput false nOut
  | markTxDirty hash => exact h.markTxDirty
  | markDirty => exact sound_markDirty s
  | addKey keyID => exact h.withOwn hkept
  | addCScript redeemScript => exact h.withOwn hkept
  | setAddressBookName address strName => exact h.withOwn hkept
  | delAddressBookName address => exact h.withOwn hkept
  | importPrivKey keyID strLabel => exact sound_importPrivKey s keyID strLabel
  | chain isFinal getDepthInMainChain isConfirmed =>
    exact fun hash wtx hlookup =>
      (h hash wtx hlookup).of_eq (fun _ => rfl) (fun _ => rfl) (fun _ => rfl) fun _ => rfl

theorem Sound.call (h : s.Sound) {c : BalanceCall} (hkept : CallKept c s) : (call c s).Sound := by
  cases c with
  | event e => exact h.event hkept
  | importWallet vKeys scan => exact sound_markDirty _

/-- The wallet when it is loaded. -/
def load (b : WalletBooks) : CachedBooks := ⟨b, fun _ => .dirty⟩

theorem sound_load (b : WalletBooks) : (load b).Sound := fun _ wtx _ => TxCaches.sound_dirty b wtx

/-- **The caches are coherent after every call of a run**, whatever the calls,
where none changes what is cached of another transaction: no transaction is
added or erased that one with a cached debit spends from, and no key, script or
label is added or removed on which a cached value depends. -/
theorem coherent_of_kept (b : WalletBooks) (calls : List BalanceCall) (hkept : Runs.Meets call CallKept calls (load b))
    (n : Nat) : (Runs.play call (calls.take n) (load b)).Coherent := by
  have hsplit := hkept
  rw [← List.take_append_drop n calls, Runs.meets_append] at hsplit
  exact (hsplit.1.keeps (fun c s (h : s.Sound) hc => h.call hc) (sound_load b)).coherent

end CachedBooks

/-! ## A stake that is known before what it spends -/

namespace Sample

/-- The wallet with the key of the stake, and no transaction. -/
def emptyBooks : WalletBooks := { stakeBooks 100 with mapWallet := ∅ }

/-- The coinstake comes first, and is asked what it takes. -/
def childFirst : List BalanceCall :=
  [.event (.addToWallet 2 (.ofTx stakingTx) 0 0 true), .event (.getDebit 2),
    .event (.addToWallet 1 (.ofTx stakedTx) 0 1 true)]

/-- The output that is staked comes first. -/
def parentFirst : List BalanceCall :=
  [.event (.addToWallet 1 (.ofTx stakedTx) 0 0 true), .event .markDirty,
    .event (.addToWallet 2 (.ofTx stakingTx) 0 1 true), .event (.getDebit 2)]

theorem kept_parentFirst : Runs.Meets CachedBooks.call CachedBooks.CallKept parentFirst (CachedBooks.load emptyBooks) :=
  ⟨fun _ _ _ _ _ hcached => absurd rfl hcached, trivial, fun _ _ _ _ _ hcached => absurd rfl hcached, trivial, trivial⟩

end Sample

namespace CachedBooks

/-- When the parent is known first the coinstake takes ten coins. -/
theorem coherent_of_kept_sample :
    (Runs.play call (Sample.parentFirst.take 4) (load Sample.emptyBooks)).Coherent :=
  coherent_of_kept Sample.emptyBooks Sample.parentFirst Sample.kept_parentFirst 4

/-- **What a transaction was found to take stays what it takes**: nothing, where
it was asked before the wallet had what it spends. -/
theorem not_coherent : ¬ ∀ (b : WalletBooks) (calls : List BalanceCall) (n : Nat),
    (Runs.play call (calls.take n) (load b)).Coherent := by
  intro hall
  have hread : ((Runs.play call (Sample.childFirst.take 3) (load Sample.emptyBooks)).books.mapWallet.lookup 2).map
      (fun wtx => (((Runs.play call (Sample.childFirst.take 3) (load Sample.emptyBooks)).getDebit 2 wtx).1,
        (((Runs.play call (Sample.childFirst.take 3) (load Sample.emptyBooks)).markTxDirty 2).getDebit 2 wtx).1)) =
      some (0, 10 * COIN) := by decide +kernel
  obtain ⟨wtx, hlookup, hpair⟩ := Option.map_eq_some_iff.mp hread
  have hdebit := (hall Sample.emptyBooks Sample.childFirst 3 2 wtx hlookup).debit
  obtain ⟨hcached, hcleared⟩ := Prod.mk.inj hpair
  rw [hcached, hcleared] at hdebit
  exact absurd hdebit (by decide)

end CachedBooks

end Pinkcoin
