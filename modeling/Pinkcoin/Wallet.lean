/-
The registered wallets, as far as the chain code notifies them: which
transactions a wallet keeps, where it last saw each of them, and which of
its outputs it takes to be spent.
-/
import Pinkcoin.Merkle

namespace Pinkcoin

/-- A wallet transaction. `hashBlock`, `vMerkleBranch` and `nIndex` say where
in a block it was seen (`nIndex` is -1 before that). -/
structure CWalletTx where
  tx : CTransaction
  hashBlock : Uint256
  vMerkleBranch : List Uint256
  nIndex : Int
  mapValue : List (String × String)
  nTimeReceived : Int
  fFromMe : Bool
  vfSpent : List Bool
  nOrderPos : Int
  deriving DecidableEq, Repr

namespace CWalletTx

def ofTx (tx : CTransaction) : CWalletTx := ⟨tx, 0, [], -1, [], 0, false, [], -1⟩

variable (wtx : CWalletTx)

/-- `SetMerkleBranch(pblock)`. -/
def setMerkleBranch (P : Params) (block : CBlock) : CWalletTx :=
  match block.vtx.findIdx? (· = wtx.tx) with
  | some nIndex => { wtx with hashBlock := block.getHash P, vMerkleBranch := block.getMerkleBranch P nIndex, nIndex := nIndex }
  | none => { wtx with hashBlock := block.getHash P, vMerkleBranch := [], nIndex := -1 }

/-- `vfSpent.resize(vout.size())`. -/
def resizedSpent : List Bool :=
  wtx.vfSpent.take wtx.tx.vout.length ++ List.replicate (wtx.tx.vout.length - wtx.vfSpent.length) false

def markSpent (nOut : Nat) : CWalletTx := { wtx with vfSpent := wtx.resizedSpent.set nOut true }
def markUnspent (nOut : Nat) : CWalletTx := { wtx with vfSpent := wtx.resizedSpent.set nOut false }
def isSpent (nOut : Nat) : Bool := (wtx.vfSpent[nOut]?).getD false

/-- `UpdateSpent`: flags set in `vfNewSpent` are set, none is cleared. -/
def updateSpent (vfNewSpent : List Bool) : CWalletTx :=
  { wtx with vfSpent := wtx.vfSpent.zipIdx.map fun (f, i) => f || (vfNewSpent[i]?).getD false }

end CWalletTx

structure CWallet where
  mapWallet : Map Uint256 CWalletTx
  keystore : CKeyStore
  nOrderPosNext : Int

namespace CWallet

variable (P : Params) (w : CWallet)

def isMine (txout : CTxOut) : Bool := P.isMineScript w.keystore txout.scriptPubKey

/-- `IsMine(const CTransaction&)`. -/
def isMineTx (tx : CTransaction) : Bool :=
  tx.vout.any fun txout => w.isMine P txout && decide (P.nMinimumInputValue ≤ txout.nValue)

/-- `GetDebit(const CTxIn&)`. -/
def getDebitIn (txin : CTxIn) : Int :=
  match w.mapWallet.lookup txin.prevout.hash with
  | none => 0
  | some prev =>
    match prev.tx.vout[txin.prevout.n]? with
    | none => 0
    | some txout => if w.isMine P txout then txout.nValue else 0

/-- `GetDebit(const CTransaction&)`. Its exception for a sum out of range
needs inputs that no transaction of a connected block has. -/
def getDebit (tx : CTransaction) : Int := (tx.vin.map (w.getDebitIn P)).sum

def isFromMe (tx : CTransaction) : Bool := decide (0 < w.getDebit P tx)

/-- Change a transaction of the wallet in place. -/
def adjust (hash : Uint256) (f : CWalletTx → CWalletTx) : CWallet :=
  match w.mapWallet.lookup hash with
  | none => w
  | some wtx => { w with mapWallet := w.mapWallet.insert hash (f wtx) }

/-- The loops of `WalletUpdateSpent`: own outputs the transaction spends are
marked spent, and when it comes with a block its own outputs are marked
unspent. -/
def walletUpdateSpent (tx : CTransaction) (fBlock : Bool) : CWallet :=
  let w' := tx.vin.foldl (fun w txin =>
    match w.mapWallet.lookup txin.prevout.hash with
    | none => w
    | some wtx =>
      match wtx.tx.vout[txin.prevout.n]? with
      | none => w
      | some txout =>
        if ¬ wtx.isSpent txin.prevout.n ∧ w.isMine P txout then
          w.adjust txin.prevout.hash (·.markSpent txin.prevout.n)
        else w) w
  if fBlock then
    tx.vout.zipIdx.foldl (fun w (txout, i) =>
      if w.isMine P txout then w.adjust (tx.getHash P) (·.markUnspent i) else w) w'
  else w'

/-- The merging of `AddToWallet` into a transaction the wallet already has. -/
def mergeTx (wtxIn wtx : CWalletTx) : CWalletTx :=
  let wtx := if wtxIn.hashBlock ≠ 0 ∧ wtxIn.hashBlock ≠ wtx.hashBlock then { wtx with hashBlock := wtxIn.hashBlock } else wtx
  let wtx :=
    if wtxIn.nIndex ≠ -1 ∧ (wtxIn.vMerkleBranch ≠ wtx.vMerkleBranch ∨ wtxIn.nIndex ≠ wtx.nIndex) then
      { wtx with vMerkleBranch := wtxIn.vMerkleBranch, nIndex := wtxIn.nIndex }
    else wtx
  let wtx := if wtxIn.fFromMe ∧ wtxIn.fFromMe ≠ wtx.fFromMe then { wtx with fFromMe := wtxIn.fFromMe } else wtx
  wtx.updateSpent wtxIn.vfSpent

/-- `AddToWallet`, at `nNow`. When the record cannot be written (`fWritten`
false) the function ends before `WalletUpdateSpent`. -/
def addToWallet (nNow : Int) (fWritten : Bool) (wtxIn : CWalletTx) : CWallet :=
  let hash := wtxIn.tx.getHash P
  match w.mapWallet.lookup hash with
  | none =>
    let wtx := { wtxIn with nTimeReceived := nNow, nOrderPos := w.nOrderPosNext }
    let w' := { w with mapWallet := w.mapWallet.insert hash wtx, nOrderPosNext := w.nOrderPosNext + 1 }
    if fWritten then w'.walletUpdateSpent P wtx.tx (wtxIn.hashBlock ≠ 0) else w'
  | some wtx =>
    let wtx' := mergeTx wtxIn wtx
    let w' := { w with mapWallet := w.mapWallet.insert hash wtx' }
    if wtx' = wtx ∨ fWritten then w'.walletUpdateSpent P wtx'.tx (wtxIn.hashBlock ≠ 0) else w'

/-- `AddToWalletIfInvolvingMe(tx, pblock, fUpdate)`. -/
def addToWalletIfInvolvingMe (nNow : Int) (fWritten : Bool) (tx : CTransaction) (pblock : Option CBlock)
    (fUpdate : Bool) : CWallet :=
  let fExisted := (w.mapWallet.lookup (tx.getHash P)).isSome
  if fExisted ∧ ¬ fUpdate then w
  else
    let (keystore, mapNarr) := P.findStealthTransactions w.keystore tx
    let w := { w with keystore := keystore }
    if fExisted ∨ w.isMineTx P tx ∨ w.isFromMe P tx then
      let wtx := { CWalletTx.ofTx tx with mapValue := mapNarr }
      let wtx := match pblock with
        | some block => wtx.setMerkleBranch P block
        | none => wtx
      w.addToWallet P nNow fWritten wtx
    else w.walletUpdateSpent P tx false

/-- `DisableTransaction`: the own inputs of a coinstake are unspent again. -/
def disableTransaction (tx : CTransaction) : CWallet :=
  if ¬ tx.isCoinStake ∨ ¬ w.isFromMe P tx then w
  else
    tx.vin.foldl (fun w txin =>
      match w.mapWallet.lookup txin.prevout.hash with
      | none => w
      | some prev =>
        match prev.tx.vout[txin.prevout.n]? with
        | none => w
        | some txout =>
          if w.isMine P txout then w.adjust txin.prevout.hash (·.markUnspent txin.prevout.n) else w) w

/-- What one wallet does when it is told of a transaction (`SyncWithWallets`). -/
def sync (nNow : Int) (fWritten : Bool) (tx : CTransaction) (pblock : Option CBlock) (fUpdate fConnect : Bool) : CWallet :=
  if fConnect then w.addToWalletIfInvolvingMe P nNow fWritten tx pblock fUpdate
  else if tx.isCoinStake ∧ w.isFromMe P tx then w.disableTransaction P tx
  else w

/-- The wallet's transactions and their spent flags, by hash. -/
def content (hash : Uint256) : Option CWalletTx := w.mapWallet.lookup hash

end CWallet

end Pinkcoin
