/-
`listtransactions`: the history of the wallet in pages. The entries are
gathered from the newest transaction back, until there are as many as the two
numbers of the call add up to; a part of them is cut out and turned around.
The numbers are `int`s, and so is the number of entries they are compared
with.
-/
import Mathlib.Data.List.Sort
import Mathlib.Data.List.Flatten
import Pinkcoin.History

namespace Pinkcoin

/-! ## The history -/

/-- `CAccountingEntry`, as far as it is shown. -/
structure CAccountingentry where
  strAccount : String
  nCreditDebit : Int
  nTime : Int
  strOtherAccount : String
  strComment : String
  nOrderPos : Int
  deriving DecidableEq

/-- A transaction of the wallet, with its place and the account it is from. -/
structure HistoryTx where
  wtx : CWalletTx
  strFromAccount : String
  nOrderPos : Int

/-- A row of the list. -/
inductive HistoryEntry
  | tx (entry : TransactionEntry)
  | move (account : String) (time amount : Int) (otheraccount comment : String)
  deriving DecidableEq

/-- `TxPair`: one of the two. -/
inductive HistoryItem
  | tx (pwtx : HistoryTx)
  | entry (pacentry : CAccountingentry)

def HistoryItem.nOrderPos : HistoryItem → Int
  | tx pwtx => pwtx.nOrderPos
  | entry pacentry => pacentry.nOrderPos

/-- The wallet, with its transactions in the order of their hashes, and the
accounting entries of its database. -/
structure HistoryWallet where
  books : WalletBooks
  mapWallet : List HistoryTx
  acentries : List CAccountingentry

/-- `AcentryToJSON`. -/
def acentryToJSON (acentry : CAccountingentry) (strAccount : String) : List HistoryEntry :=
  if strAccount = "*" ∨ acentry.strAccount = strAccount then
    [.move acentry.strAccount acentry.nTime acentry.nCreditDebit acentry.strOtherAccount acentry.strComment]
  else []

namespace HistoryWallet

variable (w : HistoryWallet) (strAccount : String)

def listAccountCreditDebit : List CAccountingentry :=
  w.acentries.filter fun acentry => strAccount = "*" ∨ acentry.strAccount = strAccount

/-- `OrderedTxItems`. Items of one position stay in the order they are
inserted in. -/
def orderedTxItems : List HistoryItem :=
  (w.mapWallet.map HistoryItem.tx ++ (w.listAccountCreditDebit strAccount).map HistoryItem.entry).insertionSort
    fun a b => a.nOrderPos ≤ b.nOrderPos

/-- What an item adds to the list. -/
def entriesOf : HistoryItem → List HistoryEntry
  | .tx pwtx => (w.books.listTransactions pwtx.wtx pwtx.strFromAccount strAccount 0).map .tx
  | .entry pacentry => acentryToJSON pacentry strAccount

/-- The items, newest first. -/
def newestFirst : List HistoryItem := (w.orderedTxItems strAccount).reverse

/-- **The complete list** of the entries of an account, newest first. -/
def historyOf : List HistoryEntry := (w.newestFirst strAccount).flatMap (w.entriesOf strAccount)

end HistoryWallet

/-! ## The call -/

inductive ListError
  | invalidParameter (message : String)
  /-- The sum of two `int`s is none. -/
  | overflow
  /-- An iterator leaves the list. -/
  | outOfRange
  deriving DecidableEq

/-- A size, as an `int`. -/
def asInt (n : Int) : Int := n.bmod (2 ^ 32)

def addInt (a b : Int) : Except ListError Int :=
  if -2 ^ 31 ≤ a + b ∧ a + b < 2 ^ 31 then pure (a + b) else throw .overflow

section Pages

variable {Item E : Type}

/-- The loop, from the newest item back. -/
def gatherEntries (entries : Item → List E) (nCount nFrom : Int) : List Item → List E → Except ListError (List E)
  | [], ret => pure ret
  | it :: rest, ret => do
    let ret := ret ++ entries it
    let limit ← addInt nCount nFrom
    if limit ≤ asInt ret.length then pure ret else gatherEntries entries nCount nFrom rest ret

/-- `std::advance` from the start of the list. -/
def advance (ret : List E) (n : Int) : Except ListError Nat :=
  if 0 ≤ n ∧ n ≤ ret.length then pure n.toNat else throw .outOfRange

/-- What follows the loop: the numbers are made to fit, and the list is cut. -/
def cut (nCount nFrom : Int) (ret : List E) : Except ListError (List E) := do
  let nFrom := if asInt ret.length < nFrom then asInt ret.length else nFrom
  let limit ← addInt nFrom nCount
  let nCount := if asInt ret.length < limit then asInt (ret.length - nFrom) else nCount
  let first ← advance ret nFrom
  let limit ← addInt nFrom nCount
  let last ← advance ret limit
  let ret := ret.take last
  if ret.length < first then throw .outOfRange
  pure (ret.drop first).reverse

/-- The entries at the positions of a page. -/
def page (nCount nFrom : Int) (history : List E) : List E := (history.drop nFrom.toNat).take nCount.toNat

end Pages

/-- `listtransactions`. -/
def HistoryWallet.listtransactions (w : HistoryWallet) (strAccount : String) (nCount nFrom : Int) :
    Except ListError (List HistoryEntry) := do
  if nCount < 0 then throw (.invalidParameter "Negative count")
  if nFrom < 0 then throw (.invalidParameter "Negative from")
  let ret ← gatherEntries (w.entriesOf strAccount) nCount nFrom (w.newestFirst strAccount) []
  cut nCount nFrom ret

/-! ## When a page can be had -/

section Pages

variable {Item E : Type}

/-- How many entries the first items have together. -/
def sizeOfFirst (entries : Item → List E) (items : List Item) (j : Nat) : Int :=
  (((items.take j).map fun it => (entries it).length).sum : Nat)

/-- **The numbers fit.** There is nothing to look at, or the sum of the numbers
is an `int`, and: the size of the list is one, or it comes to the sum, as an
`int`, at some item, or no entries are asked for and it is not negative. -/
def PageFits (entries : Item → List E) (nCount nFrom : Int) (items : List Item) : Prop :=
  items = [] ∨ nCount + nFrom < 2 ^ 31 ∧
    (sizeOfFirst entries items items.length < 2 ^ 31 ∨
      (∃ j < items.length, nCount + nFrom ≤ asInt (sizeOfFirst entries items (j + 1))) ∨
      nCount = 0 ∧ 0 ≤ asInt (sizeOfFirst entries items items.length))

variable {entries : Item → List E} {nCount nFrom : Int} {items : List Item} {ret : List E}

/-- Consecutive pages have every entry once. -/
theorem page_append (history : List E) {nCount' : Int} (hfrom : 0 ≤ nFrom) (hcount : 0 ≤ nCount)
    (hcount' : 0 ≤ nCount') :
    page nCount nFrom history ++ page nCount' (nFrom + nCount) history = page (nCount + nCount') nFrom history := by
  rw [page, page, page, Int.toNat_add hfrom hcount, Int.toNat_add hcount hcount', List.take_add, List.drop_drop]

/-! ## Sizes -/

theorem asInt_spec (n : Int) : ∃ k, n = asInt n + 2 ^ 32 * k ∧ -2 ^ 31 ≤ asInt n ∧ asInt n < 2 ^ 31 := by
  have hlow := Int.le_bmod (x := n) (m := 2 ^ 32) (by decide)
  have hhigh := Int.bmod_lt (x := n) (m := 2 ^ 32) (by decide)
  have hdvd : ((2 ^ 32 : Nat) : Int) ∣ n - asInt n := Int.dvd_self_sub_bmod
  obtain ⟨k, hk⟩ := hdvd
  refine ⟨k, ?_, ?_, ?_⟩
  · have hpow : ((2 ^ 32 : Nat) : Int) = 2 ^ 32 := rfl
    rw [← hpow, ← hk]
    omega
  · exact hlow
  · exact hhigh

theorem asInt_of_lt {n : Int} (hlow : 0 ≤ n) (hhigh : n < 2 ^ 31) : asInt n = n :=
  Int.bmod_eq_of_le (by omega) (by omega)

theorem asInt_le {n : Int} (h : 0 ≤ n) : asInt n ≤ n := by
  obtain ⟨k, hk, hlow, hhigh⟩ := asInt_spec n
  omega

theorem length_firstEntries (entries : Item → List E) (items : List Item) (j : Nat) :
    (((items.take j).flatMap entries).length : Int) = sizeOfFirst entries items j := by
  rw [List.length_flatMap]
  rfl

theorem sizeOfFirst_cons (it : Item) (items : List Item) (j : Nat) :
    sizeOfFirst entries (it :: items) (j + 1) = (entries it).length + sizeOfFirst entries items j := by
  simp [sizeOfFirst]

theorem addInt_eq {a b : Int} (hlow : -2 ^ 31 ≤ a + b) (hhigh : a + b < 2 ^ 31) : addInt a b = .ok (a + b) :=
  if_pos ⟨hlow, hhigh⟩

/-! ## The loop -/

theorem gatherEntries_overflow (hsum : 2 ^ 31 ≤ nCount + nFrom) (hitems : items ≠ []) :
    gatherEntries entries nCount nFrom items ret = .error .overflow := by
  obtain ⟨it, rest, rfl⟩ := List.exists_cons_of_ne_nil hitems
  have hover : addInt nCount nFrom = .error .overflow := if_neg (by omega)
  simp only [gatherEntries, hover]
  rfl

/-- **Where the loop stops**: after the first items whose entries come to the
sum, or at the end. -/
theorem gatherEntries_spec (entries : Item → List E) (hlow : 0 ≤ nCount + nFrom) (hhigh : nCount + nFrom < 2 ^ 31)
    (items : List Item) (ret : List E) :
    (∃ j < items.length,
        gatherEntries entries nCount nFrom items ret = .ok (ret ++ (items.take (j + 1)).flatMap entries) ∧
        nCount + nFrom ≤ asInt (ret.length + sizeOfFirst entries items (j + 1))) ∨
      gatherEntries entries nCount nFrom items ret = .ok (ret ++ items.flatMap entries) ∧
        ∀ j < items.length, ¬ nCount + nFrom ≤ asInt (ret.length + sizeOfFirst entries items (j + 1)) := by
  induction items generalizing ret with
  | nil => exact .inr ⟨by simp [gatherEntries, pure, Except.pure], by simp⟩
  | cons it rest ih =>
    have hlen : ((ret ++ entries it).length : Int) = ret.length + (entries it).length := by simp
    have hsize : ∀ j, (ret.length : Int) + sizeOfFirst entries (it :: rest) (j + 1) =
        (ret ++ entries it).length + sizeOfFirst entries rest j := fun j => by
      rw [sizeOfFirst_cons, hlen]
      omega
    have hzero : sizeOfFirst entries rest 0 = 0 := by simp [sizeOfFirst]
    have hstep : gatherEntries entries nCount nFrom (it :: rest) ret =
        if nCount + nFrom ≤ asInt (ret ++ entries it).length then .ok (ret ++ entries it)
        else gatherEntries entries nCount nFrom rest (ret ++ entries it) := by
      simp only [gatherEntries, addInt_eq (by omega : -2 ^ 31 ≤ nCount + nFrom) hhigh, bind, Except.bind, pure,
        Except.pure]
    by_cases hstop : nCount + nFrom ≤ asInt (ret ++ entries it).length
    · refine .inl ⟨0, by simp, ?_, ?_⟩
      · rw [hstep, if_pos hstop]
        simp
      · rw [hsize 0, hzero, Int.add_zero]
        exact hstop
    · rw [hstep, if_neg hstop]
      rcases ih (ret ++ entries it) with ⟨j, hj, hgather, hreach⟩ | ⟨hgather, hnever⟩
      · refine .inl ⟨j + 1, by simpa using hj, ?_, ?_⟩
        · rw [hgather]
          simp
        · rw [hsize (j + 1)]
          exact hreach
      · refine .inr ⟨?_, fun j hj => ?_⟩
        · rw [hgather]
          simp
        · rw [hsize j]
          cases j with
          | zero =>
            rw [hzero, Int.add_zero]
            exact hstop
          | succ j => exact hnever j (by simpa using hj)

/-! ## The cut -/

/-- The cut, when both ends are in the list. -/
theorem cut_eq {first count : Int} (hfirst : (if asInt ret.length < nFrom then asInt ret.length else nFrom) = first)
    (hcount : (if asInt ret.length < first + nCount then asInt (ret.length - first) else nCount) = count)
    (hlow : 0 ≤ first) (hcount0 : 0 ≤ count) (hin : first + count ≤ ret.length) (hsum : first + nCount < 2 ^ 31)
    (hsum' : first + count < 2 ^ 31) (hn : 0 ≤ nCount) :
    cut nCount nFrom ret = .ok ((ret.drop first.toNat).take count.toNat).reverse := by
  have hadvance : ∀ n : Int, 0 ≤ n → n ≤ ret.length → advance ret n = .ok n.toNat := fun n h h' => if_pos ⟨h, h'⟩
  have hshort : ¬ (ret.take (first + count).toNat).length < first.toNat := by
    rw [List.length_take]
    omega
  have hcutout : (ret.take (first + count).toNat).drop first.toNat = (ret.drop first.toNat).take count.toNat := by
    rw [List.drop_take, Int.toNat_add hlow hcount0, Nat.add_sub_cancel_left]
  simp only [cut, hfirst, addInt_eq (by omega : -2 ^ 31 ≤ first + nCount) hsum, bind, Except.bind, hcount,
    hadvance first hlow (by omega), addInt_eq (by omega : -2 ^ 31 ≤ first + count) hsum',
    hadvance (first + count) (by omega) hin, if_neg hshort, hcutout]
  rfl

/-- **The cut is the page**, when the list reaches as far as it is taken to
reach. -/
theorem cut_page (hcount : 0 ≤ nCount) (hfrom : 0 ≤ nFrom) (hsum : nCount + nFrom < 2 ^ 31)
    (h : nCount + nFrom ≤ asInt ret.length ∨ (ret.length : Int) < 2 ^ 31 ∨ nCount = 0 ∧ 0 ≤ asInt ret.length) :
    cut nCount nFrom ret = .ok (page nCount nFrom ret).reverse := by
  have hle := asInt_le (Int.natCast_nonneg ret.length)
  rcases h with hreach | hshort | ⟨rfl, hnonneg⟩
  · exact cut_eq (if_neg (by omega)) (if_neg (by omega)) hfrom hcount (by omega) (by omega) (by omega) hcount
  · have hsize : asInt ret.length = ret.length := asInt_of_lt (by omega) hshort
    by_cases hbeyond : (ret.length : Int) < nFrom
    · have hnone : (if asInt ret.length < (ret.length : Int) + nCount then asInt (ret.length - ret.length)
          else nCount) = 0 := by
        split
        · rw [Int.sub_self]
          rfl
        · omega
      have hcut : cut nCount nFrom ret = .ok ((ret.drop (ret.length : Int).toNat).take (0 : Int).toNat).reverse :=
        cut_eq (by rw [hsize, if_pos hbeyond]) hnone (by omega) (by omega) (by omega) (by omega) (by omega) hcount
      rw [hcut, page, List.drop_eq_nil_of_le (by omega : ret.length ≤ nFrom.toNat)]
      simp
    · by_cases hfull : (ret.length : Int) < nFrom + nCount
      · have hrest : asInt (ret.length - nFrom) = ret.length - nFrom := asInt_of_lt (by omega) (by omega)
        rw [cut_eq (if_neg (by omega)) (if_pos (by omega)) hfrom (by omega) (by omega) (by omega) (by omega) hcount,
          hrest, page, List.take_of_length_le (by rw [List.length_drop]; omega),
          List.take_of_length_le (by rw [List.length_drop]; omega)]
      · exact cut_eq (if_neg (by omega)) (if_neg (by omega)) hfrom hcount (by omega) (by omega) (by omega) hcount
  · have hempty : page 0 nFrom ret = [] := by simp [page]
    rw [hempty]
    by_cases hbeyond : asInt ret.length < nFrom
    · rw [cut_eq (if_pos hbeyond) (if_neg (by omega)) hnonneg (by omega) (by omega) (by omega) (by omega) hcount]
      simp
    · rw [cut_eq (if_neg hbeyond) (if_neg (by omega)) hfrom (by omega) (by omega) (by omega) (by omega) hcount]
      simp

/-- It is not, when the size is no `int` and the one it is taken for is too
small. -/
theorem cut_ne_page (hcount : 0 ≤ nCount) (hfrom : 0 ≤ nFrom) (hsum : nCount + nFrom < 2 ^ 31)
    (hreach : ¬ nCount + nFrom ≤ asInt ret.length) (hlong : ¬ (ret.length : Int) < 2 ^ 31)
    (hsome : ¬ (nCount = 0 ∧ 0 ≤ asInt ret.length)) :
    cut nCount nFrom ret ≠ .ok (page nCount nFrom ret).reverse := by
  obtain ⟨k, hk, hlow, hhigh⟩ := asInt_spec ret.length
  have hpage : (page nCount nFrom ret).length = nCount.toNat := by
    rw [page, List.length_take, List.length_drop]
    omega
  by_cases hneg : asInt ret.length < 0
  · -- the first iterator is before the list
    have hout : advance ret (asInt ret.length) = .error .outOfRange := if_neg (by omega)
    simp only [cut, if_pos (by omega : asInt ret.length < nFrom), bind, Except.bind,
      addInt_eq (by omega : -2 ^ 31 ≤ asInt ret.length + nCount) (by omega), hout]
    exact nofun
  · have hpos : 0 < nCount := by omega
    have hshorter : ∀ {first count : Int},
        cut nCount nFrom ret = .ok ((ret.drop first.toNat).take count.toNat).reverse →
        count < nCount → 0 ≤ count → cut nCount nFrom ret ≠ .ok (page nCount nFrom ret).reverse := by
      intro first count hcut hless h0 heq
      rw [hcut] at heq
      have hlen := congrArg List.length (List.reverse_injective (Except.ok.inj heq))
      rw [hpage, List.length_take] at hlen
      omega
    by_cases hbeyond : asInt ret.length < nFrom
    · have hrest : asInt (ret.length - asInt ret.length) = 0 := by
        have hmul : (ret.length : Int) - asInt ret.length = ((2 ^ 32 : Nat) : Int) * k := by
          have hpow : ((2 ^ 32 : Nat) : Int) = 2 ^ 32 := rfl
          omega
        rw [hmul]
        exact Int.mul_bmod_right _ _
      exact hshorter (cut_eq (if_pos hbeyond) (if_pos (by omega)) (by omega) (by omega) (by omega) (by omega)
        (by omega) hcount) (by omega) (by omega)
    · have hrest : asInt (ret.length - nFrom) = asInt ret.length - nFrom := by
        obtain ⟨j, hj, hlow', hhigh'⟩ := asInt_spec (ret.length - nFrom)
        omega
      exact hshorter (cut_eq (if_neg hbeyond) (if_pos (by omega)) hfrom (by omega) (by omega) (by omega) (by omega)
        hcount) (by omega) (by omega)

/-- The cut of nothing. -/
theorem cut_nil (hcount : 0 ≤ nCount) (hcount' : nCount < 2 ^ 31) (hfrom : 0 ≤ nFrom) :
    cut nCount nFrom ([] : List E) = .ok [] := by
  have hzero : asInt (([] : List E).length : Int) = 0 := by simp [asInt]
  have hfirst : (if asInt (([] : List E).length : Int) < nFrom then asInt (([] : List E).length : Int)
      else nFrom) = 0 := by
    rw [hzero]
    split <;> omega
  have hlast : (if asInt (([] : List E).length : Int) < 0 + nCount then asInt ((([] : List E).length : Int) - 0)
      else nCount) = 0 := by
    rw [Int.sub_zero, hzero]
    split <;> omega
  rw [cut_eq hfirst hlast (by omega) (by omega) (by simp) (by omega) (by omega) hcount]
  rfl

/-- A page of a longer list, when the first part reaches beyond it. -/
theorem page_prefix {rest : List E} (hcount : 0 ≤ nCount) (hfrom : 0 ≤ nFrom)
    (hreach : nCount + nFrom ≤ ret.length) : page nCount nFrom (ret ++ rest) = page nCount nFrom ret := by
  rw [page, page, List.drop_append_of_le_length (by omega), List.take_append_of_le_length]
  rw [List.length_drop]
  omega

/-- **The loop and the cut give the page** exactly where the numbers fit. -/
theorem gatherEntries_cut_iff (hcount : 0 ≤ nCount) (hcount' : nCount < 2 ^ 31) (hfrom : 0 ≤ nFrom) :
    (gatherEntries entries nCount nFrom items [] >>= cut nCount nFrom) =
        .ok (page nCount nFrom (items.flatMap entries)).reverse ↔ PageFits entries nCount nFrom items := by
  by_cases hempty : items = []
  · subst hempty
    refine iff_of_true ?_ (.inl rfl)
    have hpage : page nCount nFrom (([] : List Item).flatMap entries) = [] := by simp [page]
    rw [hpage]
    exact cut_nil hcount hcount' hfrom
  by_cases hsum : nCount + nFrom < 2 ^ 31
  · rcases gatherEntries_spec entries (by omega) hsum items [] with
      ⟨j, hj, hgather, hreach⟩ | ⟨hgather, hnever⟩
    · refine iff_of_true ?_ (.inr ⟨hsum, .inr (.inl ⟨j, hj, by simpa using hreach⟩)⟩)
      have hlen := length_firstEntries entries items (j + 1)
      rw [List.length_nil, Int.natCast_zero, Int.zero_add, ← hlen] at hreach
      have hsplit : items.flatMap entries =
          (items.take (j + 1)).flatMap entries ++ (items.drop (j + 1)).flatMap entries := by
        rw [← List.flatMap_append, List.take_append_drop]
      have hle := asInt_le (Int.natCast_nonneg ((items.take (j + 1)).flatMap entries).length)
      rw [hgather, hsplit, page_prefix hcount hfrom (by omega), List.nil_append]
      exact cut_page hcount hfrom hsum (.inl hreach)
    · have hlen := length_firstEntries entries items items.length
      rw [List.take_length] at hlen
      have hlast : ¬ nCount + nFrom ≤ asInt (items.flatMap entries).length := by
        have hpos : 0 < items.length := List.length_pos_iff.mpr hempty
        have hend := hnever (items.length - 1) (by omega)
        rw [List.length_nil, Int.natCast_zero, Int.zero_add, Nat.sub_add_cancel hpos] at hend
        rwa [hlen]
      rw [hgather, List.nil_append]
      constructor
      · intro hcut
        by_contra hnot
        refine cut_ne_page hcount hfrom hsum hlast (fun hshort => hnot (.inr ⟨hsum, .inl ?_⟩))
          (fun hnone => hnot (.inr ⟨hsum, .inr (.inr ?_)⟩)) hcut
        · rwa [← hlen]
        · rwa [← hlen]
      · rintro (hnone | ⟨-, hshort | ⟨j, hj, hreach⟩ | hnone⟩)
        · exact absurd hnone hempty
        · exact cut_page hcount hfrom hsum (.inr (.inl (by rwa [hlen])))
        · exact absurd hreach (by simpa using hnever j hj)
        · exact cut_page hcount hfrom hsum (.inr (.inr (by rwa [hlen])))
  · refine iff_of_false ?_ ?_
    · rw [gatherEntries_overflow (by omega) hempty]
      exact nofun
    · rintro (hnone | ⟨hless, -⟩)
      · exact hempty hnone
      · exact hsum hless

end Pages

/-- **When a page of the history is right:** when its two numbers fit. And the
pages, one after the other, have every entry once. -/
theorem listtransactions_iff (w : HistoryWallet) (strAccount : String) {nCount nFrom : Int}
    (hcount : 0 ≤ nCount ∧ nCount < 2 ^ 31) (hfrom : 0 ≤ nFrom ∧ nFrom < 2 ^ 31) :
    (w.listtransactions strAccount nCount nFrom = .ok (page nCount nFrom (w.historyOf strAccount)).reverse ↔
        PageFits (w.entriesOf strAccount) nCount nFrom (w.newestFirst strAccount)) ∧
      ∀ nCount', 0 ≤ nCount' → page nCount nFrom (w.historyOf strAccount) ++
          page nCount' (nFrom + nCount) (w.historyOf strAccount) =
        page (nCount + nCount') nFrom (w.historyOf strAccount) := by
  refine ⟨?_, fun nCount' hcount' => page_append _ hfrom.1 hcount.1 hcount'⟩
  have hcall : w.listtransactions strAccount nCount nFrom =
      (gatherEntries (w.entriesOf strAccount) nCount nFrom (w.newestFirst strAccount) [] >>= cut nCount nFrom) := by
    rw [HistoryWallet.listtransactions, if_neg (by omega), if_neg (by omega)]
  rw [hcall]
  exact gatherEntries_cut_iff hcount.1 hcount.2 hfrom.1

namespace Sample

/-- A wallet with two moves between its accounts. -/
def moves : HistoryWallet where
  books := stakeBooks 100
  mapWallet := []
  acentries := [⟨"", -5, 1000, "a", "", 0⟩, ⟨"a", 5, 1000, "", "", 1⟩]

end Sample

/-- With a page of one entry, from the second on. -/
theorem listtransactions_iff_sample :
    (Sample.moves.listtransactions "*" 1 1 = .ok (page 1 1 (Sample.moves.historyOf "*")).reverse ↔
      PageFits (Sample.moves.entriesOf "*") 1 1 (Sample.moves.newestFirst "*")) ∧
    ∀ nCount', 0 ≤ nCount' →
      page 1 1 (Sample.moves.historyOf "*") ++ page nCount' (1 + 1) (Sample.moves.historyOf "*") =
        page (1 + nCount') 1 (Sample.moves.historyOf "*") :=
  listtransactions_iff Sample.moves "*" (by decide) (by decide)

/-- All entries but the newest cannot be asked for. -/
theorem not_listtransactions : ¬ ∀ (w : HistoryWallet) (strAccount : String) (nCount nFrom : Int),
    0 ≤ nCount ∧ nCount < 2 ^ 31 → 0 ≤ nFrom ∧ nFrom < 2 ^ 31 →
      w.listtransactions strAccount nCount nFrom = .ok (page nCount nFrom (w.historyOf strAccount)).reverse := by
  intro h
  have hover : Sample.moves.listtransactions "*" 2147483647 1 = .error .overflow := rfl
  have hpage := h Sample.moves "*" 2147483647 1 (by decide) (by decide)
  rw [hover] at hpage
  cases hpage

end Pinkcoin
