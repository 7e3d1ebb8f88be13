/-
Two ways to a balance: the unspent outputs, and what was received less what was
sent. They differ by the outputs that one of them does not see.
-/
import Mathlib.Algebra.BigOperators.Group.List.Basic
import Pinkcoin.Amounts

namespace Pinkcoin

namespace WalletBooks

/-! ## The balances -/

section

variable (b : WalletBooks)

/-- The sum over the transactions of the wallet. -/
def total (f : CWalletTx → Int) : Int := (b.mapWallet.entries.map fun e => f e.2).sum

/-- `GetBalance`. -/
def getBalance : Int := b.total fun wtx => if b.isTrusted wtx then b.getAvailableCredit wtx else 0

/-- What one transaction adds in `getbalance`. -/
def netOf (nMinDepth : Int) (wtx : CWalletTx) : Int :=
  let a := b.getAmounts wtx
  let nReceived :=
    if nMinDepth ≤ b.getDepthInMainChain wtx ∧ b.getBlocksToMaturity wtx = 0 then (a.listReceived.map Prod.snd).sum
    else 0
  nReceived - (a.listSent.map Prod.snd).sum - a.nFee

/-- `getbalance`, for the account `*`. -/
def getBalanceAll (nMinDepth : Int) : Int := b.total fun wtx => if b.isTrusted wtx then b.netOf nMinDepth wtx else 0

/-! ## What they do not see -/

/-- The own outputs that are marked spent. -/
def spentValue (wtx : CWalletTx) : Int :=
  (wtx.tx.vout.zipIdx.map fun out => if wtx.isSpent out.2 ∧ b.own.isMine out.1 then out.1.nValue else 0).sum

/-- An output that `getbalance` takes for the wallet's: it is not among those
sent, and is not an own output that can be spent. -/
def isUnseen (wtx : CWalletTx) (txout : CTxOut) : Bool :=
  txout.isSkipped || (b.own.isChange txout && !(b.own.isMine txout && !b.isImmature wtx))

/-- The value of these outputs in the trusted transactions that spend from the
wallet. -/
def unseen : Int :=
  b.total fun wtx => if b.isTrusted wtx ∧ b.isFromMe wtx then sumOf (b.isUnseen wtx) wtx.tx.vout else 0

/-- The value of the spent outputs that were never counted: those of
transactions that are not trusted, or not deep enough. -/
def uncounted : Int := b.total fun wtx => if b.isTrusted wtx ∧ ¬ b.isImmature wtx then 0 else b.spentValue wtx

/-- An own output of a wallet transaction. -/
def isOwn (prevout : COutPoint) : Bool := b.isMineIn ⟨prevout, [], 0⟩

/-- The outputs that the wallet's transactions spend. -/
def spentOuts : List COutPoint := b.mapWallet.entries.flatMap fun e => e.2.tx.vin.map CTxIn.prevout

/-- **The wallet knows what is spent**: an own output is marked where a
transaction of the wallet spends it, each of these is trusted, none spends what
another does, and no value is negative. -/
structure Exact : Prop where
  flags : ∀ hash wtx i txout, b.mapWallet.lookup hash = some wtx → wtx.tx.vout[i]? = some txout →
    b.own.isMine txout = true → (wtx.isSpent i = true ↔ ⟨hash, i⟩ ∈ b.spentOuts)
  trusted : ∀ hash wtx, b.mapWallet.lookup hash = some wtx → ∀ txin ∈ wtx.tx.vin, b.isMineIn txin = true →
    b.isTrusted wtx = true
  once : (b.spentOuts.filter b.isOwn).Nodup
  values : ∀ hash wtx, b.mapWallet.lookup hash = some wtx → ∀ txout ∈ wtx.tx.vout, 0 ≤ txout.nValue

end

variable {b : WalletBooks} {wtx : CWalletTx}

theorem total_add (f g : CWalletTx → Int) : (b.total fun wtx => f wtx + g wtx) = b.total f + b.total g :=
  List.sum_map_add

theorem total_congr {f g : CWalletTx → Int} (h : ∀ hash wtx, b.mapWallet.lookup hash = some wtx → f wtx = g wtx) :
    b.total f = b.total g := by
  unfold total
  congr 1
  refine List.map_congr_left fun e he => ?_
  exact h e.1 e.2 (AList.mem_lookup_iff.mpr he)

/-! ## One transaction -/

theorem depth_of_trusted (h : b.isTrusted wtx = true) : 0 ≤ b.getDepthInMainChain wtx := by
  unfold isTrusted at h
  split at h
  · exact nomatch h
  split at h
  next hdepth => omega
  split at h
  · exact nomatch h
  next hdepth => omega

/-- A transaction is mature or immature. -/
theorem mature_iff : b.getBlocksToMaturity wtx = 0 ↔ b.isImmature wtx = false := by
  unfold isImmature getBlocksToMaturity
  by_cases hgen : isGenerated wtx = true
  · rw [if_neg (not_not.mpr hgen), hgen, Bool.true_and, decide_eq_false_iff_not]
    omega
  · rw [if_pos hgen, Bool.eq_false_iff.mpr hgen]
    simp

theorem availableCredit_eq (h : b.isImmature wtx = false) :
    b.getAvailableCredit wtx = b.getCreditTx wtx.tx - b.spentValue wtx := by
  unfold getAvailableCredit getCreditTx spentValue sumOf
  rw [h, if_neg (by decide)]
  have hindex : ∀ (l : List CTxOut) (k : Nat),
      ((l.zipIdx k).map fun out => if ¬ wtx.isSpent out.2 ∧ b.own.isMine out.1 then out.1.nValue else 0).sum =
        (l.map fun txout => if b.own.isMine txout then txout.nValue else 0).sum -
          ((l.zipIdx k).map fun out => if wtx.isSpent out.2 ∧ b.own.isMine out.1 then out.1.nValue else 0).sum := by
    intro l
    induction l with
    | nil => exact fun k => rfl
    | cons txout l ih =>
      intro k
      simp only [List.zipIdx_cons, List.map_cons, List.sum_cons]
      rw [ih]
      by_cases hspent : wtx.isSpent k = true <;> by_cases hmine : b.own.isMine txout = true <;> simp [hspent, hmine]
      omega
  exact hindex wtx.tx.vout 0

/-- What is received, sent and paid as a fee, when the wallet is debited. -/
theorem sum_of_debit (fMature : Bool) (hm : fMature = !b.isImmature wtx) (vout : List CTxOut) {nDebit : Int}
    (hdebit : 0 < nDebit) :
    (if fMature then sumOf (b.isReceived nDebit) vout else 0) - sumOf (b.isSent nDebit) vout +
        sumOf (fun _ => true) vout =
      (if fMature then sumOf b.own.isMine vout else 0) + sumOf (b.isUnseen wtx) vout := by
  have hpos : decide (0 < nDebit) = true := decide_eq_true hdebit
  induction vout with
  | nil => cases fMature <;> rfl
  | cons txout vout ih =>
    simp only [sumOf_cons]
    have hone : (if fMature then if b.isReceived nDebit txout then txout.nValue else 0 else 0) -
        (if b.isSent nDebit txout then txout.nValue else 0) + txout.nValue =
        (if fMature then if b.own.isMine txout then txout.nValue else 0 else 0) +
          if b.isUnseen wtx txout then txout.nValue else 0 := by
      unfold isReceived isSent isUnseen
      rw [hpos]
      have himmature : b.isImmature wtx = !fMature := by rw [hm, Bool.not_not]
      rw [himmature]
      by_cases hskip : txout.isSkipped = true
      · rw [isMine_of_skipped hskip, hskip]
        cases fMature <;> simp
      · cases fMature <;> cases b.own.isChange txout <;> cases b.own.isMine txout <;> simp [hskip]
    cases fMature <;> simp at ih hone ⊢ <;> omega

/-- **What one trusted transaction adds to the two balances**: the difference is
what is not seen, less the debit, and what is spent of its own outputs. -/
theorem netOf_eq (htrusted : b.isTrusted wtx = true) (hdebit : 0 ≤ b.getDebit wtx.tx) :
    b.netOf 0 wtx = b.getAvailableCredit wtx + (if b.isFromMe wtx then sumOf (b.isUnseen wtx) wtx.tx.vout else 0) -
      b.getDebit wtx.tx + if b.isImmature wtx then 0 else b.spentValue wtx := by
  have hdepth := depth_of_trusted htrusted
  have hfee : (b.getAmounts wtx).nFee =
      if 0 < b.getDebit wtx.tx then b.getDebit wtx.tx - wtx.tx.getValueOut else 0 := by rw [getAmounts_eq]
  unfold netOf
  dsimp only
  rw [sum_received, sum_sent, hfee]
  have hmature : (0 ≤ b.getDepthInMainChain wtx ∧ b.getBlocksToMaturity wtx = 0) ↔ b.isImmature wtx = false := by
    rw [mature_iff]
    exact and_iff_right hdepth
  simp only [hmature]
  have havailable : b.getAvailableCredit wtx + (if b.isImmature wtx then 0 else b.spentValue wtx) =
      if b.isImmature wtx = false then b.getCreditTx wtx.tx else 0 := by
    cases himmature : b.isImmature wtx with
    | true =>
      rw [getAvailableCredit, if_pos himmature]
      rfl
    | false =>
      rw [availableCredit_eq himmature, if_neg (by decide), if_pos rfl]
      omega
  by_cases hpos : 0 < b.getDebit wtx.tx
  · have hsum := sum_of_debit _ (rfl : (!b.isImmature wtx) = _) wtx.tx.vout hpos
    have hfrom : b.isFromMe wtx = true := decide_eq_true hpos
    have hout : sumOf (fun _ => true) wtx.tx.vout = wtx.tx.getValueOut := rfl
    rw [hout] at hsum
    rw [if_pos hpos, if_pos hfrom]
    unfold getCreditTx at havailable
    cases himmature : b.isImmature wtx <;> simp [himmature] at hsum havailable ⊢ <;> omega
  · have hzero : b.getDebit wtx.tx = 0 := by omega
    have hfrom : ¬ b.isFromMe wtx = true := by
      unfold isFromMe
      rw [decide_eq_true_eq]
      exact hpos
    have hsent : sumOf (b.isSent (b.getDebit wtx.tx)) wtx.tx.vout = 0 := by
      have hnone : b.isSent (b.getDebit wtx.tx) = fun _ => false := by
        funext txout
        rw [isSent, decide_eq_false hpos]
        rfl
      rw [hnone]
      simp [sumOf]
    have hreceived : sumOf (b.isReceived (b.getDebit wtx.tx)) wtx.tx.vout = b.getCreditTx wtx.tx := by
      have hall : b.isReceived (b.getDebit wtx.tx) = b.own.isMine := by
        funext txout
        rw [isReceived, decide_eq_false hpos]
        simp
      rw [hall]
      rfl
    rw [if_neg hpos, if_neg hfrom, hsent, hreceived]
    cases himmature : b.isImmature wtx <;> simp [himmature] at havailable ⊢ <;> omega

/-! ## What is spent, and what is marked -/

/-- The value of an own output. -/
def valueOf (b : WalletBooks) (prevout : COutPoint) : Int := b.getDebitIn ⟨prevout, [], 0⟩

/-- The own outputs that are marked. -/
def markedOuts (b : WalletBooks) : List COutPoint :=
  b.mapWallet.entries.flatMap fun e =>
    (e.2.tx.vout.zipIdx.filter fun out => decide (e.2.isSpent out.2 ∧ b.own.isMine out.1)).map fun out => ⟨e.1, out.2⟩

theorem sum_map_flatMap {α β : Type} (f : α → List β) (v : β → Int) (l : List α) :
    ((l.flatMap f).map v).sum = (l.map fun a => ((f a).map v).sum).sum := by
  induction l with
  | nil => rfl
  | cons a l ih => rw [List.flatMap_cons, List.map_append, List.sum_append, ih, List.map_cons, List.sum_cons]

theorem sum_map_filter {α : Type} {p : α → Bool} {v : α → Int} (h : ∀ a, p a = false → v a = 0) (l : List α) :
    ((l.filter p).map v).sum = (l.map v).sum := by
  induction l with
  | nil => rfl
  | cons a l ih =>
    by_cases hp : p a = true
    · rw [List.filter_cons_of_pos hp, List.map_cons, List.map_cons, List.sum_cons, List.sum_cons, ih]
    · rw [List.filter_cons_of_neg hp, List.map_cons, List.sum_cons, h a (Bool.eq_false_iff.mpr hp), Int.zero_add, ih]

theorem valueOf_of_not_own {prevout : COutPoint} (h : b.isOwn prevout = false) : b.valueOf prevout = 0 := by
  unfold valueOf getDebitIn
  unfold isOwn isMineIn at h
  cases hspends : b.spends ⟨prevout, [], 0⟩ with
  | none => rfl
  | some txout =>
    rw [hspends] at h
    exact if_neg (Bool.eq_false_iff.mp h)

/-- The own output at an index of a transaction of the wallet. -/
theorem own_at {hash : Uint256} {i : Nat} {txout : CTxOut} (hlookup : b.mapWallet.lookup hash = some wtx)
    (hout : wtx.tx.vout[i]? = some txout) : b.spends ⟨⟨hash, i⟩, [], 0⟩ = some txout := by
  rw [spends, hlookup]
  exact hout

theorem isOwn_iff {prevout : COutPoint} : b.isOwn prevout = true ↔ ∃ wtx txout,
    b.mapWallet.lookup prevout.hash = some wtx ∧ wtx.tx.vout[prevout.n]? = some txout ∧ b.own.isMine txout = true := by
  unfold isOwn isMineIn spends
  rw [Option.any_eq_true]
  constructor
  · rintro ⟨txout, hspends, hmine⟩
    obtain ⟨wtx, hlookup, hout⟩ := Option.bind_eq_some_iff.mp hspends
    exact ⟨wtx, txout, hlookup, hout, hmine⟩
  · rintro ⟨wtx, txout, hlookup, hout, hmine⟩
    exact ⟨txout, Option.bind_eq_some_iff.mpr ⟨wtx, hlookup, hout⟩, hmine⟩

theorem mem_markedOuts {prevout : COutPoint} : prevout ∈ b.markedOuts ↔ ∃ wtx txout,
    b.mapWallet.lookup prevout.hash = some wtx ∧ wtx.tx.vout[prevout.n]? = some txout ∧ wtx.isSpent prevout.n = true ∧
      b.own.isMine txout = true := by
  unfold markedOuts
  rw [List.mem_flatMap]
  constructor
  · rintro ⟨e, he, hmem⟩
    obtain ⟨out, hout, rfl⟩ := List.mem_map.mp hmem
    obtain ⟨hzip, hmarked⟩ := List.mem_filter.mp hout
    obtain ⟨hspent, hmine⟩ := of_decide_eq_true hmarked
    exact ⟨e.2, out.1, AList.mem_lookup_iff.mpr he, List.mem_zipIdx_iff_getElem?.mp hzip, hspent, hmine⟩
  · rintro ⟨wtx, txout, hlookup, hout, hspent, hmine⟩
    refine ⟨⟨prevout.hash, wtx⟩, AList.mem_lookup_iff.mp hlookup, List.mem_map.mpr ⟨(txout, prevout.n), ?_, rfl⟩⟩
    exact List.mem_filter.mpr ⟨List.mem_zipIdx_iff_getElem?.mpr hout, decide_eq_true ⟨hspent, hmine⟩⟩

theorem nodup_markedOuts : b.markedOuts.Nodup := by
  unfold markedOuts
  rw [List.nodup_flatMap]
  refine ⟨fun e _ => ?_, ?_⟩
  · have hindexes : (e.2.tx.vout.zipIdx.map Prod.snd).Nodup := by
      rw [List.zipIdx_map_snd]
      exact List.nodup_range'
    have hkept := hindexes.sublist ((List.filter_sublist (l := e.2.tx.vout.zipIdx)
      (p := fun out => decide (e.2.isSpent out.2 ∧ b.own.isMine out.1))).map Prod.snd)
    have hpoint : Function.Injective fun i : Nat => (⟨e.1, i⟩ : COutPoint) := fun i j heq => congrArg COutPoint.n heq
    have hmap := hkept.map hpoint
    rw [List.map_map] at hmap
    exact hmap
  · have hkeys : b.mapWallet.entries.Pairwise fun e e' => e.1 ≠ e'.1 :=
      List.nodupKeys_iff_pairwise.mp b.mapWallet.nodupKeys
    refine hkeys.imp fun {e e'} hne prevout hmem hmem' => hne ?_
    obtain ⟨out, -, rfl⟩ := List.mem_map.mp hmem
    obtain ⟨out', -, heq⟩ := List.mem_map.mp hmem'
    exact (congrArg COutPoint.hash heq).symm

/-- What is debited is the value of the outputs that are spent. -/
theorem total_debit : (b.total fun wtx => b.getDebit wtx.tx) = ((b.spentOuts.filter b.isOwn).map b.valueOf).sum := by
  rw [sum_map_filter fun prevout h => valueOf_of_not_own h, spentOuts, sum_map_flatMap]
  unfold total getDebit
  congr 1
  refine List.map_congr_left fun e _ => ?_
  rw [List.map_map]
  rfl

theorem total_spentValue : b.total b.spentValue = (b.markedOuts.map b.valueOf).sum := by
  rw [markedOuts, sum_map_flatMap]
  unfold total
  congr 1
  refine List.map_congr_left fun e he => ?_
  have hlookup : b.mapWallet.lookup e.1 = some e.2 := AList.mem_lookup_iff.mpr he
  rw [List.map_map, spentValue]
  have hvalue : ∀ out ∈ e.2.tx.vout.zipIdx.filter fun out => decide (e.2.isSpent out.2 ∧ b.own.isMine out.1),
      (b.valueOf ∘ fun out : CTxOut × Nat => (⟨e.1, out.2⟩ : COutPoint)) out =
        if e.2.isSpent out.2 ∧ b.own.isMine out.1 then out.1.nValue else 0 := by
    intro out hout
    obtain ⟨hzip, hmarked⟩ := List.mem_filter.mp hout
    have hmark := of_decide_eq_true hmarked
    rw [if_pos hmark]
    change b.getDebitIn _ = _
    rw [getDebitIn, own_at hlookup (List.mem_zipIdx_iff_getElem?.mp hzip)]
    exact if_pos hmark.2
  rw [List.map_congr_left hvalue]
  exact (sum_map_filter (fun out hout => if_neg (of_decide_eq_false hout)) _).symm

/-- **Every coin that is debited is one that is marked**, and the other way. -/
theorem total_debit_eq (h : b.Exact) : (b.total fun wtx => b.getDebit wtx.tx) = b.total b.spentValue := by
  rw [total_debit, total_spentValue]
  refine (List.Perm.map b.valueOf ((List.perm_ext_iff_of_nodup h.once nodup_markedOuts).mpr fun prevout => ?_)).sum_eq
  rw [List.mem_filter, mem_markedOuts, isOwn_iff]
  constructor
  · rintro ⟨hspent, wtx, txout, hlookup, hout, hmine⟩
    exact ⟨wtx, txout, hlookup, hout, (h.flags _ wtx _ txout hlookup hout hmine).mpr hspent, hmine⟩
  · rintro ⟨wtx, txout, hlookup, hout, hspent, hmine⟩
    exact ⟨(h.flags _ wtx _ txout hlookup hout hmine).mp hspent, wtx, txout, hlookup, hout, hmine⟩

/-! ## The difference -/

theorem Exact.debit_of_untrusted (h : b.Exact) {hash : Uint256} (hlookup : b.mapWallet.lookup hash = some wtx)
    (htrusted : ¬ b.isTrusted wtx = true) : b.getDebit wtx.tx = 0 := by
  refine List.sum_eq_zero fun n hn => ?_
  obtain ⟨txin, hin, rfl⟩ := List.mem_map.mp hn
  have hother : b.isOwn txin.prevout = false :=
    Bool.eq_false_iff.mpr fun hmine => htrusted (h.trusted hash wtx hlookup txin hin hmine)
  exact valueOf_of_not_own hother

/-- **`getbalance` is `GetBalance`, and what is not seen, less what was not
counted.** -/
theorem getBalanceAll_eq (h : b.Exact) : b.getBalanceAll 0 = b.getBalance + b.unseen - b.uncounted := by
  have hone : ∀ hash wtx, b.mapWallet.lookup hash = some wtx →
      (if b.isTrusted wtx then b.netOf 0 wtx else 0) + (b.getDebit wtx.tx +
        if b.isTrusted wtx ∧ ¬ b.isImmature wtx then 0 else b.spentValue wtx) =
      (if b.isTrusted wtx then b.getAvailableCredit wtx else 0) +
        ((if b.isTrusted wtx ∧ b.isFromMe wtx then sumOf (b.isUnseen wtx) wtx.tx.vout else 0) + b.spentValue wtx) := by
    intro hash wtx hlookup
    by_cases htrusted : b.isTrusted wtx = true
    · rw [if_pos htrusted, if_pos htrusted, netOf_eq htrusted (getDebit_nonneg h.values wtx.tx)]
      simp only [htrusted, true_and]
      cases b.isImmature wtx <;> simp <;> omega
    · rw [if_neg htrusted, if_neg htrusted, h.debit_of_untrusted hlookup htrusted]
      simp [htrusted]
  have hsum := total_congr hone
  rw [total_add, total_add, total_add, total_add, total_debit_eq h] at hsum
  unfold getBalanceAll getBalance unseen uncounted
  have hmarked : (b.total fun wtx => b.spentValue wtx) = b.total b.spentValue := rfl
  omega

/-- **The two balances agree exactly where what is not seen is worth what was
not counted**: where the trusted transactions that spend from the wallet have
no outputs that are skipped, and no change that is not an own output that can
be spent, and no output is spent of a transaction that is not trusted or not
deep enough; or else where these sums are the same. -/
theorem getBalance_eq_iff (h : b.Exact) : b.getBalance = b.getBalanceAll 0 ↔ b.unseen = b.uncounted := by
  rw [getBalanceAll_eq h]
  omega

end WalletBooks

/-! ## A stake whose reward goes to change -/

namespace Sample

def stakeKey : CKeyID := List.Vector.replicate 20 1

/-- The output that is staked, of ten coins. -/
def stakedTx : CTransaction := ⟨1, 1000, [⟨⟨7, 0⟩, [], UINT_MAX⟩], [⟨10 * COIN, payToKeyID stakeKey⟩], 0⟩

/-- The coinstake pays eleven coins to the same key. -/
def stakingTx : CTransaction :=
  ⟨1, 2000, [⟨⟨1, 0⟩, [], UINT_MAX⟩], [⟨0, []⟩, ⟨11 * COIN, payToKeyID stakeKey⟩], 0⟩

/-- The wallet, with the coinstake so deep. The key is not in the address
book. -/
def stakeBooks (nDepth : Int) : WalletBooks where
  own := ⟨fun _ => List.Vector.replicate 20 0, fun id => decide (id = stakeKey), fun _ => none, fun _ => none, 2⟩
  mapWallet := ((∅ : Map Uint256 CWalletTx).insert 1 { CWalletTx.ofTx stakedTx with vfSpent := [true] }).insert 2
    (.ofTx stakingTx)
  nCoinbaseMaturity := 20
  fConfChange := false
  isFinal _ := true
  getDepthInMainChain wtx := if wtx.tx = stakingTx then nDepth else 100
  isConfirmed _ := true

theorem lookup_stakeBooks {nDepth : Int} {hash : Uint256} {wtx : CWalletTx}
    (h : (stakeBooks nDepth).mapWallet.lookup hash = some wtx) :
    hash = 1 ∧ wtx = { CWalletTx.ofTx stakedTx with vfSpent := [true] } ∨ hash = 2 ∧ wtx = .ofTx stakingTx := by
  unfold stakeBooks at h
  by_cases htwo : hash = 2
  · subst htwo
    rw [AList.lookup_insert] at h
    exact .inr ⟨rfl, (Option.some.inj h).symm⟩
  · rw [AList.lookup_insert_ne htwo] at h
    by_cases hone : hash = 1
    · subst hone
      rw [AList.lookup_insert] at h
      exact .inl ⟨rfl, (Option.some.inj h).symm⟩
    · rw [AList.lookup_insert_ne hone, AList.lookup_empty] at h
      exact nomatch h

theorem spentOuts_stakeBooks (nDepth : Int) : (stakeBooks nDepth).spentOuts = [⟨1, 0⟩, ⟨7, 0⟩] := by
  rfl

theorem exact_stakeBooks {nDepth : Int} (h : 1 ≤ nDepth) : (stakeBooks nDepth).Exact where
  flags hash wtx i txout hlookup hout hmine := by
    rw [spentOuts_stakeBooks]
    rcases lookup_stakeBooks hlookup with ⟨rfl, rfl⟩ | ⟨rfl, rfl⟩
    · match i, hout with
      | 0, _ => exact iff_of_true rfl List.mem_cons_self
    · refine iff_of_false (fun hspent => ?_) (by simp)
      simp [CWalletTx.isSpent, CWalletTx.ofTx] at hspent
  trusted hash wtx hlookup txin hin hmine := by
    rcases lookup_stakeBooks hlookup with ⟨rfl, rfl⟩ | ⟨rfl, rfl⟩
    · rfl
    · have hdepth : (stakeBooks nDepth).getDepthInMainChain (.ofTx stakingTx) = nDepth := by
        simp [stakeBooks, CWalletTx.ofTx]
      have hfinal : ¬ ¬ (stakeBooks nDepth).isFinal (.ofTx stakingTx) = true := not_not_intro rfl
      rw [WalletBooks.isTrusted, if_neg hfinal, hdepth, if_pos h]
  once := by
    rw [spentOuts_stakeBooks]
    exact List.Nodup.filter _ (by decide)
  values hash wtx hlookup txout hout := by
    rcases lookup_stakeBooks hlookup with ⟨rfl, rfl⟩ | ⟨rfl, rfl⟩
    · rw [List.mem_singleton.mp hout]
      decide
    · rcases List.mem_cons.mp hout with rfl | hout
      · decide
      · rw [List.mem_singleton.mp hout]
        decide

end Sample

namespace WalletBooks

/-- When the coinstake is deep enough its reward is seen on both ways. -/
theorem getBalance_eq_iff_sample : (Sample.stakeBooks 100).getBalance = (Sample.stakeBooks 100).getBalanceAll 0 :=
  (getBalance_eq_iff (Sample.exact_stakeBooks (by decide))).mpr (by decide +kernel)

/-- **An immature reward counts as change**: it is in the one balance, and the
other has nothing. -/
theorem not_getBalance_eq : ¬ ∀ b : WalletBooks, b.Exact → b.getBalance = b.getBalanceAll 0 := by
  intro hall
  have hequal := hall (Sample.stakeBooks 5) (Sample.exact_stakeBooks (by decide))
  have hnone : (Sample.stakeBooks 5).getBalance = 0 := by decide +kernel
  have hsome : (Sample.stakeBooks 5).getBalanceAll 0 = 11 * COIN := by decide +kernel
  rw [hnone, hsome] at hequal
  exact absurd hequal (by decide)

end WalletBooks

end Pinkcoin
