/-
`LockedPageManagerBase`: a count for every page of memory that must not be
swapped, of the ranges in force on it. Addresses and sizes are `size_t`, of 64
bits, which wrap around. A call loops over the pages of its range, with fuel;
the locker is the list of the calls it has got.
-/
import Pinkcoin.Lib.Pass
import Pinkcoin.Lib.Runs
import Pinkcoin.Types

namespace Pinkcoin

open Runs

/-! ## The manager -/

/-- A call of the locker. -/
inductive LockerCall
  | lock (addr len : BitVec 64)
  | unlock (addr len : BitVec 64)
  deriving DecidableEq

namespace LockerCall

def addr : LockerCall → BitVec 64
  | .lock addr _ => addr
  | .unlock addr _ => addr

def isLock : LockerCall → Bool
  | .lock _ _ => true
  | .unlock _ _ => false

end LockerCall

inductive PageError
  | assertion
  /-- The loop has not ended. -/
  | running
  deriving DecidableEq

/-- `LockedPageManagerBase`. -/
structure LockedPageManager where
  pageSize : BitVec 64
  pageMask : BitVec 64
  histogram : Map (BitVec 64) Int
  locker : List LockerCall

namespace LockedPageManager

/-- A number stored in an `int`. -/
def int32 (n : Int) : Int := n.bmod (2 ^ 32)

/-- `LockedPageManagerBase(page_size)`. -/
def new (pageSize : BitVec 64) : Except PageError LockedPageManager :=
  if pageSize &&& (pageSize - 1) = 0 then .ok ⟨pageSize, ~~~(pageSize - 1), ∅, []⟩ else .error .assertion

/-- The body of the loop of `LockRange`. -/
def lockPage (m : LockedPageManager) (page : BitVec 64) : Except PageError LockedPageManager :=
  match m.histogram.lookup page with
  | none => .ok { m with locker := m.locker ++ [.lock page m.pageSize], histogram := m.histogram.insert page 1 }
  | some n => .ok { m with histogram := m.histogram.insert page (int32 (n + 1)) }

/-- The body of the loop of `UnlockRange`. -/
def unlockPage (m : LockedPageManager) (page : BitVec 64) : Except PageError LockedPageManager :=
  match m.histogram.lookup page with
  | none => .error .assertion
  | some n =>
    if int32 (n - 1) = 0 then
      .ok { m with locker := m.locker ++ [.unlock page m.pageSize], histogram := m.histogram.erase page }
    else .ok { m with histogram := m.histogram.insert page (int32 (n - 1)) }

/-- The body of such a loop. -/
abbrev PageBody := LockedPageManager → BitVec 64 → Except PageError LockedPageManager

/-- `for (page = start_page; page <= end_page; page += page_size)`. -/
def overPages (body : PageBody) (pageSize endPage : BitVec 64) :
    Nat → BitVec 64 → LockedPageManager → Except PageError LockedPageManager
  | 0, _, _ => .error .running
  | fuel + 1, page, m =>
    if page ≤ endPage then do
      let m ← body m page
      overPages body pageSize endPage fuel (page + pageSize) m
    else pure m

/-- The pages of a range, one after the other. -/
def overRange (body : PageBody) (fuel : Nat) (p size : BitVec 64) (m : LockedPageManager) :
    Except PageError LockedPageManager :=
  if size = 0 then pure m
  else
    let startPage := p &&& m.pageMask
    let endPage := (p + size - 1) &&& m.pageMask
    overPages body m.pageSize endPage fuel startPage m

/-- `LockRange`. -/
def lockRange (fuel : Nat) (p size : BitVec 64) (m : LockedPageManager) : Except PageError LockedPageManager :=
  overRange lockPage fuel p size m

/-- `UnlockRange`. -/
def unlockRange (fuel : Nat) (p size : BitVec 64) (m : LockedPageManager) : Except PageError LockedPageManager :=
  overRange unlockPage fuel p size m

/-- `GetLockedPageCount`. -/
def getLockedPageCount (m : LockedPageManager) : Nat := m.histogram.keys.length

end LockedPageManager

/-! ## Runs -/

/-- A range of memory. -/
structure MemRange where
  p : BitVec 64
  size : BitVec 64
  deriving DecidableEq

inductive PageCall
  | lockRange (r : MemRange)
  | unlockRange (r : MemRange)

namespace PageCall

open LockedPageManager

def run (fuel : Nat) : PageCall → LockedPageManager → Except PageError LockedPageManager
  | .lockRange r, m => LockedPageManager.lockRange fuel r.p r.size m
  | .unlockRange r, m => LockedPageManager.unlockRange fuel r.p r.size m

/-- The calls of a run. -/
def runAll (fuel : Nat) (calls : List PageCall) (m : LockedPageManager) : Except PageError LockedPageManager :=
  calls.foldlM (fun m c => c.run fuel m) m

/-- The ranges in force after a call. -/
def inForce : PageCall → List MemRange → List MemRange
  | .lockRange r, held => r :: held
  | .unlockRange r, held => held.erase r

end PageCall

/-- A byte of the range lies in the page at `x`. -/
def MemRange.Touches (pageSize : Nat) (x : BitVec 64) (r : MemRange) : Prop :=
  pageSize ∣ x.toNat ∧ 0 < r.size.toNat ∧ r.p.toNat < x.toNat + pageSize ∧ x.toNat < r.p.toNat + r.size.toNat

instance (pageSize : Nat) (x : BitVec 64) : DecidablePred (MemRange.Touches pageSize x) := fun _ =>
  inferInstanceAs (Decidable (_ ∧ _ ∧ _ ∧ _))

/-- How many ranges in force touch the page at `x`. -/
def rangesOn (pageSize : Nat) (held : List MemRange) (x : BitVec 64) : Nat :=
  held.countP (MemRange.Touches pageSize x ·)

/-- What a page with `n` ranges on it has in the histogram. -/
def entryFor (n : Nat) : Option Int := if n = 0 then none else some n

/-- The call of the locker that a change of the count from `n` to `n'` makes. -/
def turn (pageSize x : BitVec 64) (n n' : Nat) : List LockerCall :=
  if n = 0 ∧ n' ≠ 0 then [.lock x pageSize] else if n ≠ 0 ∧ n' = 0 then [.unlock x pageSize] else []

/-- The calls of the locker for the page at `x`: one at each change of its
count between 0 and 1. -/
def turns (pageSize x : BitVec 64) : List PageCall → List MemRange → List LockerCall
  | [], _ => []
  | c :: calls, held =>
    turn pageSize x (rangesOn pageSize.toNat held x) (rangesOn pageSize.toNat (c.inForce held) x) ++
      turns pageSize x calls (c.inForce held)

/-- Whether the locker has the page at `x` locked. -/
def isLocked (locker : List LockerCall) (x : BitVec 64) : Bool :=
  (locker.filter (·.addr = x)).foldl (fun _ c => c.isLock) false

/-- A range that ends before the last page of the address space. -/
def MemRange.Fits (pageSize : Nat) (r : MemRange) : Prop := r.size = 0 ∨ r.p.toNat + r.size.toNat ≤ 2 ^ 64 - pageSize

/-- A call that the manager can count: a range locked ends before the last
page of the address space, and none of its pages has as many ranges as an
`int` holds; a range unlocked is in force. -/
def PageCall.Countable (pageSize : Nat) : PageCall → List MemRange → Prop
  | .lockRange r, held => r.Fits pageSize ∧ ∀ x, r.Touches pageSize x → rangesOn pageSize held x < 2 ^ 31 - 1
  | .unlockRange r, held => r ∈ held

/-! ## The pages of a range -/

section Pages

variable {pageSize : BitVec 64} {k : Nat}

theorem toNat_pageSize_sub (hsize : pageSize.toNat = 2 ^ k) : (pageSize - 1).toNat = 2 ^ k - 1 := by
  have hpos : 0 < 2 ^ k := Nat.two_pow_pos k
  have hlt := pageSize.isLt
  rw [BitVec.toNat_sub]
  have hone : (1 : BitVec 64).toNat = 1 := rfl
  omega

theorem new_eq (hsize : pageSize.toNat = 2 ^ k) :
    LockedPageManager.new pageSize = .ok ⟨pageSize, ~~~(pageSize - 1), ∅, []⟩ := by
  rw [LockedPageManager.new, if_pos]
  refine BitVec.eq_of_toNat_eq ?_
  rw [BitVec.toNat_and, toNat_pageSize_sub hsize, hsize, Nat.and_two_pow_sub_one_eq_mod, Nat.mod_self]
  rfl

/-- The mask takes an address to the start of its page. -/
theorem toNat_and_mask (hsize : pageSize.toNat = 2 ^ k) (x : BitVec 64) :
    (x &&& ~~~(pageSize - 1)).toNat = x.toNat / pageSize.toNat * pageSize.toNat := by
  rw [hsize]
  refine Nat.eq_of_testBit_eq fun i => ?_
  rw [Nat.testBit_mul_two_pow, Nat.testBit_div_two_pow, BitVec.testBit_toNat, BitVec.getLsbD_and, BitVec.getLsbD_not,
    ← BitVec.testBit_toNat (pageSize - 1), toNat_pageSize_sub hsize, Nat.testBit_two_pow_sub_one, BitVec.testBit_toNat]
  by_cases hi : i < k
  · simp [hi, Nat.not_le.mpr hi]
  · have hle := Nat.not_lt.mp hi
    by_cases hwide : i < 64
    · simp [hi, hle, hwide]
    · have hout : x.getLsbD i = false := BitVec.getLsbD_of_ge x i (Nat.not_lt.mp hwide)
      simp [hle, hout]

/-- The addresses of `n` pages from page number `a` on. -/
def pagesFrom (P a n : Nat) : List (BitVec 64) := (List.range' a n).map fun i => BitVec.ofNat 64 (i * P)

theorem mem_pagesFrom {P a n : Nat} (hP : 0 < P) (hfit : (a + n) * P ≤ 2 ^ 64) {x : BitVec 64} :
    x ∈ pagesFrom P a n ↔ P ∣ x.toNat ∧ a * P ≤ x.toNat ∧ x.toNat < (a + n) * P := by
  simp only [pagesFrom, List.mem_map, List.mem_range'_1]
  constructor
  · rintro ⟨i, ⟨hle, hlt⟩, rfl⟩
    have hmul : i * P < (a + n) * P := Nat.mul_lt_mul_of_pos_right hlt hP
    have hat : (BitVec.ofNat 64 (i * P)).toNat = i * P := by
      rw [BitVec.toNat_ofNat, Nat.mod_eq_of_lt (Nat.lt_of_lt_of_le hmul hfit)]
    rw [hat]
    exact ⟨Nat.dvd_mul_left P i, Nat.mul_le_mul_right P hle, hmul⟩
  · rintro ⟨⟨i, hi⟩, hle, hlt⟩
    rw [Nat.mul_comm] at hi
    rw [hi] at hle hlt
    refine ⟨i, ⟨Nat.le_of_mul_le_mul_right hle hP, Nat.lt_of_mul_lt_mul_right hlt⟩, ?_⟩
    rw [← hi, BitVec.ofNat_toNat, BitVec.setWidth_eq]

theorem nodup_pagesFrom {P a n : Nat} (hP : 0 < P) (hfit : (a + n) * P ≤ 2 ^ 64) : (pagesFrom P a n).Nodup := by
  refine List.Nodup.map_on (fun i hi j hj heq => ?_) List.nodup_range'
  have hlt : ∀ {i : Nat}, i ∈ List.range' a n → i * P < 2 ^ 64 := fun hi =>
    Nat.lt_of_lt_of_le (Nat.mul_lt_mul_of_pos_right (List.mem_range'_1.mp hi).2 hP) hfit
  have hnat := congrArg BitVec.toNat heq
  rw [BitVec.toNat_ofNat, BitVec.toNat_ofNat, Nat.mod_eq_of_lt (hlt hi), Nat.mod_eq_of_lt (hlt hj)] at hnat
  exact Nat.eq_of_mul_eq_mul_right hP hnat

/-- **The loop ends** after the last page, where the next address does not
wrap around. -/
theorem overPages_eq {f : LockedPageManager.PageBody} {endPage : BitVec 64} {e : Nat}
    (hP : 0 < pageSize.toNat) (hend : endPage.toNat = e * pageSize.toNat) (hfit : (e + 1) * pageSize.toNat < 2 ^ 64)
    {n a : Nat} (hn : a + n = e + 1) {page : BitVec 64} (hpage : page.toNat = a * pageSize.toNat) {fuel : Nat}
    (hfuel : n < fuel) (m : LockedPageManager) :
    LockedPageManager.overPages f pageSize endPage fuel page m = (pagesFrom pageSize.toNat a n).foldlM f m := by
  induction n generalizing a page fuel m with
  | zero =>
    obtain ⟨fuel, rfl⟩ := Nat.exists_eq_add_one_of_ne_zero (Nat.ne_of_gt hfuel)
    have hpast : ¬ page ≤ endPage := by
      rw [BitVec.le_def, hpage, hend, Nat.not_le]
      exact Nat.mul_lt_mul_of_pos_right (by omega) hP
    rw [LockedPageManager.overPages, if_neg hpast]
    rfl
  | succ n ih =>
    obtain ⟨fuel, rfl⟩ := Nat.exists_eq_add_one_of_ne_zero (Nat.ne_of_gt (Nat.lt_of_le_of_lt (Nat.zero_le _) hfuel))
    have hle : page ≤ endPage := by
      rw [BitVec.le_def, hpage, hend]
      exact Nat.mul_le_mul_right _ (by omega)
    have hnext : (page + pageSize).toNat = (a + 1) * pageSize.toNat := by
      have hbound : (a + 1) * pageSize.toNat ≤ (e + 1) * pageSize.toNat := Nat.mul_le_mul_right _ (by omega)
      rw [BitVec.toNat_add, hpage, ← Nat.succ_mul, Nat.mod_eq_of_lt (Nat.lt_of_le_of_lt hbound hfit)]
    have hfirst : pagesFrom pageSize.toNat a (n + 1) = page :: pagesFrom pageSize.toNat (a + 1) n := by
      rw [pagesFrom, List.range'_succ, List.map_cons, ← hpage, BitVec.ofNat_toNat, BitVec.setWidth_eq]
      rfl
    rw [LockedPageManager.overPages, if_pos hle, hfirst, List.foldlM_cons]
    exact congrArg (f m page >>= ·) (funext fun m' => ih (by omega) hnext (by omega) m')

/-- The pages that the loop visits are those the range touches. -/
theorem overRange_eq {f : LockedPageManager.PageBody} {r : MemRange} (hsize : pageSize.toNat = 2 ^ k)
    (hr : r.Fits pageSize.toNat) {fuel : Nat} (hfuel : 2 ^ 64 < fuel) {m : LockedPageManager}
    (hm : m.pageSize = pageSize ∧ m.pageMask = ~~~(pageSize - 1)) :
    ∃ pages : List (BitVec 64), pages.Nodup ∧ (∀ x, x ∈ pages ↔ r.Touches pageSize.toNat x) ∧
      LockedPageManager.overRange f fuel r.p r.size m = pages.foldlM f m := by
  have hP : 0 < pageSize.toNat := hsize ▸ Nat.two_pow_pos k
  have hwide := pageSize.isLt
  by_cases hzero : r.size = 0
  · refine ⟨[], List.nodup_nil, fun x => ?_, ?_⟩
    · simp [MemRange.Touches, hzero]
    · rw [LockedPageManager.overRange, if_pos hzero]
      rfl
  · have hpos : 0 < r.size.toNat := by
      refine Nat.pos_of_ne_zero fun h => hzero (BitVec.eq_of_toNat_eq ?_)
      rw [h]
      rfl
    have hle := hr.resolve_left hzero
    have hlast : (r.p + r.size - 1).toNat = r.p.toNat + r.size.toNat - 1 := by
      rw [BitVec.toNat_sub, BitVec.toNat_add]
      have hone : (1 : BitVec 64).toNat = 1 := rfl
      omega
    have hstart := toNat_and_mask hsize r.p
    have hend := toNat_and_mask hsize (r.p + r.size - 1)
    rw [hlast] at hend
    generalize ha : r.p.toNat / pageSize.toNat = a at *
    generalize he : (r.p.toNat + r.size.toNat - 1) / pageSize.toNat = e at *
    have hae : a ≤ e := by
      rw [← ha, ← he]
      exact Nat.div_le_div_right (by omega)
    have hfit : (e + 1) * pageSize.toNat < 2 ^ 64 := by
      have hmul : e * pageSize.toNat ≤ r.p.toNat + r.size.toNat - 1 := by
        rw [← he]
        exact Nat.div_mul_le_self _ _
      rw [Nat.succ_mul]
      omega
    have hsum : a + (e + 1 - a) = e + 1 := by omega
    have hpages : (a + (e + 1 - a)) * pageSize.toNat ≤ 2 ^ 64 := by
      rw [hsum]
      exact Nat.le_of_lt hfit
    refine ⟨pagesFrom pageSize.toNat a (e + 1 - a), ?_, fun x => ?_, ?_⟩
    · exact nodup_pagesFrom hP hpages
    · rw [mem_pagesFrom hP hpages, hsum, MemRange.Touches]
      refine and_congr_right fun ⟨y, hy⟩ => ?_
      rw [Nat.mul_comm] at hy
      rw [hy, ← Nat.succ_mul, and_iff_right hpos]
      refine and_congr ?_ ?_
      · rw [Nat.mul_le_mul_right_iff hP, ← ha, ← Nat.div_lt_iff_lt_mul hP, Nat.lt_succ_iff]
      · rw [Nat.mul_lt_mul_right hP, ← he, Nat.lt_succ_iff, Nat.le_div_iff_mul_le hP]
        omega
    · rw [LockedPageManager.overRange, if_neg hzero, hm.1, hm.2]
      refine overPages_eq hP hend hfit hsum hstart ?_ m
      have hlt : e + 1 ≤ (e + 1) * pageSize.toNat := Nat.le_mul_of_pos_right _ hP
      omega

/-! ## What is seen of a page -/

/-- The entry of the histogram, and the calls that the locker has got. -/
def pageView (m : LockedPageManager) (x : BitVec 64) : Option Int × List LockerCall :=
  (m.histogram.lookup x, m.locker.filter (·.addr = x))

/-- What `LockRange` does to a page. -/
def lockView (pageSize x : BitVec 64) : Option Int × List LockerCall → Option Int × List LockerCall
  | (none, locker) => (some 1, locker ++ [.lock x pageSize])
  | (some n, locker) => (some (LockedPageManager.int32 (n + 1)), locker)

/-- What `UnlockRange` does to a page that is in the histogram. -/
def unlockView (pageSize x : BitVec 64) : Option Int × List LockerCall → Option Int × List LockerCall
  | (none, locker) => (none, locker)
  | (some n, locker) =>
    if LockedPageManager.int32 (n - 1) = 0 then (none, locker ++ [.unlock x pageSize])
    else (some (LockedPageManager.int32 (n - 1)), locker)

/-- The size and the mask stay. -/
def Sized (pageSize : BitVec 64) (m : LockedPageManager) : Prop :=
  m.pageSize = pageSize ∧ m.pageMask = ~~~(pageSize - 1)

variable {m : LockedPageManager}

theorem filter_other {locker : List LockerCall} {c : LockerCall} {x : BitVec 64} (h : x ≠ c.addr) :
    (locker ++ [c]).filter (·.addr = x) = locker.filter (·.addr = x) := by
  rw [List.filter_append, List.filter_cons_of_neg (by simpa using Ne.symm h), List.filter_nil, List.append_nil]

theorem filter_self {locker : List LockerCall} {c : LockerCall} {x : BitVec 64} (h : c.addr = x) :
    (locker ++ [c]).filter (·.addr = x) = locker.filter (·.addr = x) ++ [c] := by
  rw [List.filter_append, List.filter_cons_of_pos (by simpa using h), List.filter_nil]

theorem lockPage_none {page : BitVec 64} (h : m.histogram.lookup page = none) : m.lockPage page =
    .ok { m with locker := m.locker ++ [.lock page m.pageSize], histogram := m.histogram.insert page 1 } := by
  rw [LockedPageManager.lockPage, h]

theorem lockPage_some {page : BitVec 64} {n : Int} (h : m.histogram.lookup page = some n) :
    m.lockPage page = .ok { m with histogram := m.histogram.insert page (LockedPageManager.int32 (n + 1)) } := by
  rw [LockedPageManager.lockPage, h]

theorem unlockPage_last {page : BitVec 64} {n : Int} (h : m.histogram.lookup page = some n)
    (hzero : LockedPageManager.int32 (n - 1) = 0) : m.unlockPage page =
      .ok { m with locker := m.locker ++ [.unlock page m.pageSize], histogram := m.histogram.erase page } := by
  rw [LockedPageManager.unlockPage, h]
  exact if_pos hzero

theorem unlockPage_more {page : BitVec 64} {n : Int} (h : m.histogram.lookup page = some n)
    (hmore : LockedPageManager.int32 (n - 1) ≠ 0) :
    m.unlockPage page = .ok { m with histogram := m.histogram.insert page (LockedPageManager.int32 (n - 1)) } := by
  rw [LockedPageManager.unlockPage, h]
  exact if_neg hmore

theorem lockPage_spec (hm : Sized pageSize m) (page : BitVec 64) : ∃ m', m.lockPage page = .ok m' ∧ Sized pageSize m' ∧
    ∀ x, pageView m' x = if x = page then lockView pageSize page (pageView m page) else pageView m x := by
  obtain ⟨rfl, hmask⟩ := hm
  cases hlookup : m.histogram.lookup page with
  | none =>
    refine ⟨_, lockPage_none hlookup, ⟨rfl, hmask⟩, fun x => ?_⟩
    simp only [pageView, hlookup, lockView]
    by_cases hx : x = page
    · subst hx
      rw [if_pos rfl, AList.lookup_insert]
      exact congrArg (Prod.mk _) (filter_self rfl)
    · rw [if_neg hx, AList.lookup_insert_ne hx, filter_other hx]
  | some n =>
    refine ⟨_, lockPage_some hlookup, ⟨rfl, hmask⟩, fun x => ?_⟩
    simp only [pageView, hlookup, lockView]
    by_cases hx : x = page
    · subst hx
      rw [if_pos rfl, AList.lookup_insert]
    · rw [if_neg hx, AList.lookup_insert_ne hx]

theorem unlockPage_spec (hm : Sized pageSize m) {page : BitVec 64} (hpage : (pageView m page).1.isSome) :
    ∃ m', m.unlockPage page = .ok m' ∧ Sized pageSize m' ∧
      ∀ x, pageView m' x = if x = page then unlockView pageSize page (pageView m page) else pageView m x := by
  obtain ⟨rfl, hmask⟩ := hm
  obtain ⟨n, hlookup⟩ : ∃ n, m.histogram.lookup page = some n := Option.isSome_iff_exists.mp hpage
  by_cases hzero : LockedPageManager.int32 (n - 1) = 0
  · refine ⟨_, unlockPage_last hlookup hzero, ⟨rfl, hmask⟩, fun x => ?_⟩
    simp only [pageView, hlookup, unlockView, if_pos hzero]
    by_cases hx : x = page
    · subst hx
      rw [if_pos rfl, AList.lookup_erase]
      exact congrArg (Prod.mk _) (filter_self rfl)
    · rw [if_neg hx, AList.lookup_erase_ne hx, filter_other hx]
  · refine ⟨_, unlockPage_more hlookup hzero, ⟨rfl, hmask⟩, fun x => ?_⟩
    simp only [pageView, hlookup, unlockView, if_neg hzero]
    by_cases hx : x = page
    · subst hx
      rw [if_pos rfl, AList.lookup_insert]
    · rw [if_neg hx, AList.lookup_insert_ne hx]

/-! ## What a call counts -/

theorem int32_eq {n : Int} (hlow : 0 ≤ n) (hhigh : n < 2 ^ 31) : LockedPageManager.int32 n = n := by
  rw [LockedPageManager.int32]
  exact Int.bmod_eq_of_le (by omega) (by omega)

theorem lockView_stored {n : Nat} (hn : n < 2 ^ 31 - 1) (x : BitVec 64) (locker : List LockerCall) :
    lockView pageSize x (entryFor n, locker) = (entryFor (n + 1), locker ++ turn pageSize x n (n + 1)) := by
  cases n with
  | zero => rfl
  | succ n =>
    have hint : LockedPageManager.int32 (((n + 1 : Nat) : Int) + 1) = ((n + 1 + 1 : Nat) : Int) := by
      rw [int32_eq (by omega) (by omega)]
      rfl
    have hturn : turn pageSize x (n + 1) (n + 1 + 1) = [] := by simp [turn]
    change (some (LockedPageManager.int32 (((n + 1 : Nat) : Int) + 1)), locker) = _
    rw [hint, hturn, List.append_nil]
    rfl

theorem unlockView_stored {n : Nat} (hn : n < 2 ^ 31) (x : BitVec 64) (locker : List LockerCall) :
    unlockView pageSize x (entryFor (n + 1), locker) = (entryFor n, locker ++ turn pageSize x (n + 1) n) := by
  have hint : LockedPageManager.int32 (((n + 1 : Nat) : Int) - 1) = n := by
    rw [int32_eq (by omega) (by omega)]
    omega
  change (if LockedPageManager.int32 (((n + 1 : Nat) : Int) - 1) = 0 then (none, locker ++ [.unlock x pageSize])
    else (some (LockedPageManager.int32 (((n + 1 : Nat) : Int) - 1)), locker)) = _
  rw [hint]
  cases n with
  | zero => rfl
  | succ n =>
    have hturn : turn pageSize x (n + 1 + 1) (n + 1) = [] := by simp [turn]
    rw [if_neg (by omega), hturn, List.append_nil]
    rfl

theorem turn_self (x : BitVec 64) (n : Nat) : turn pageSize x n n = [] := by
  rw [turn, if_neg (fun h => h.2 h.1), if_neg (fun h => h.1 h.2)]

/-- The histogram is that of the ranges in force, none of which is counted
beyond an `int` and all of which fit. -/
structure PagesCounted (pageSize : BitVec 64) (held : List MemRange) (m : LockedPageManager) : Prop where
  sized : Sized pageSize m
  stored : ∀ x, m.histogram.lookup x = entryFor (rangesOn pageSize.toNat held x)
  few : ∀ x, rangesOn pageSize.toNat held x < 2 ^ 31
  fits : ∀ r ∈ held, r.Fits pageSize.toNat

/-- **One call**: every page has the count of the ranges then in force, and
the locker gets its calls. -/
theorem PagesCounted.run {held : List MemRange} (h : PagesCounted pageSize held m) (hsize : pageSize.toNat = 2 ^ k)
    {c : PageCall} (hc : c.Countable pageSize.toNat held) {fuel : Nat} (hfuel : 2 ^ 64 < fuel) :
    ∃ m', c.run fuel m = .ok m' ∧ PagesCounted pageSize (c.inForce held) m' ∧
      ∀ x, m'.locker.filter (·.addr = x) = m.locker.filter (·.addr = x) ++
        turn pageSize x (rangesOn pageSize.toNat held x) (rangesOn pageSize.toNat (c.inForce held) x) := by
  have hview : ∀ x, pageView m x = (entryFor (rangesOn pageSize.toNat held x), m.locker.filter (·.addr = x)) := fun x =>
    Prod.ext (h.stored x) rfl
  cases c with
  | lockRange r =>
    obtain ⟨hfits, hroom⟩ := hc
    obtain ⟨pages, hnodup, hpages, heq⟩ := overRange_eq (f := LockedPageManager.lockPage) hsize hfits hfuel h.sized
    obtain ⟨m', hrun, hsized, hafter⟩ := Pass.foldlM_each (R := fun _ _ => True)
      (fun s page hs _ => lockPage_spec hs page) hnodup h.sized fun _ _ => trivial
    have hnow : ∀ x, rangesOn pageSize.toNat (r :: held) x =
        rangesOn pageSize.toNat held x + if r.Touches pageSize.toNat x then 1 else 0 := fun x => by
      rw [rangesOn, List.countP_cons]
      simp [rangesOn]
    have hstep : ∀ x, pageView m' x = (entryFor (rangesOn pageSize.toNat (r :: held) x), m.locker.filter (·.addr = x) ++
        turn pageSize x (rangesOn pageSize.toNat held x) (rangesOn pageSize.toNat (r :: held) x)) := fun x => by
      rw [hafter, hnow, hview]
      by_cases hx : r.Touches pageSize.toNat x
      · rw [if_pos ((hpages x).mpr hx), if_pos hx, lockView_stored (hroom x hx)]
      · rw [if_neg fun hmem => hx ((hpages x).mp hmem), if_neg hx, Nat.add_zero, turn_self, List.append_nil]
    refine ⟨m', heq.trans hrun, ⟨hsized, fun x => congrArg Prod.fst (hstep x), fun x => ?_, fun q hq => ?_⟩,
      fun x => congrArg Prod.snd (hstep x)⟩
    · change rangesOn pageSize.toNat (r :: held) x < 2 ^ 31
      have hfew := h.few x
      rw [hnow]
      split
      next hx =>
        have := hroom x hx
        omega
      next => exact hfew
    · rcases List.mem_cons.mp hq with rfl | hq
      · exact hfits
      · exact h.fits q hq
  | unlockRange r =>
    have hr : r ∈ held := hc
    obtain ⟨pages, hnodup, hpages, heq⟩ :=
      overRange_eq (f := LockedPageManager.unlockPage) hsize (h.fits r hr) hfuel h.sized
    have hnow : ∀ x, rangesOn pageSize.toNat held x =
        rangesOn pageSize.toNat (held.erase r) x + if r.Touches pageSize.toNat x then 1 else 0 := fun x => by
      have hperm := (List.perm_cons_erase hr).countP_eq (MemRange.Touches pageSize.toNat x ·)
      rw [List.countP_cons] at hperm
      rw [rangesOn, hperm]
      simp [rangesOn]
    have hready : ∀ page ∈ pages, (pageView m page).1.isSome := fun page hpage => by
      have hcount := hnow page
      rw [if_pos ((hpages page).mp hpage)] at hcount
      rw [hview, hcount]
      rfl
    obtain ⟨m', hrun, hsized, hafter⟩ := Pass.foldlM_each (R := fun _ v => v.1.isSome)
      (fun s page hs hpage => unlockPage_spec hs hpage) hnodup h.sized hready
    have hstep : ∀ x, pageView m' x = (entryFor (rangesOn pageSize.toNat (held.erase r) x),
        m.locker.filter (·.addr = x) ++ turn pageSize x (rangesOn pageSize.toNat held x) (rangesOn pageSize.toNat (held.erase r) x)) := fun x => by
      have hfew := h.few x
      rw [hafter, hview]
      by_cases hx : r.Touches pageSize.toNat x
      · have hcount := hnow x
        rw [if_pos hx] at hcount
        rw [if_pos ((hpages x).mpr hx), hcount, unlockView_stored (by omega)]
      · have hcount := hnow x
        rw [if_neg hx, Nat.add_zero] at hcount
        rw [if_neg fun hmem => hx ((hpages x).mp hmem), hcount, turn_self, List.append_nil]
    refine ⟨m', heq.trans hrun, ⟨hsized, fun x => congrArg Prod.fst (hstep x), fun x => ?_, fun q hq => ?_⟩,
      fun x => congrArg Prod.snd (hstep x)⟩
    · change rangesOn pageSize.toNat (held.erase r) x < 2 ^ 31
      have hfew := h.few x
      have hcount := hnow x
      omega
    · exact h.fits q (List.mem_of_mem_erase hq)

/-- **Calls one after the other.** -/
theorem PagesCounted.runAll {held : List MemRange} (h : PagesCounted pageSize held m) (hsize : pageSize.toNat = 2 ^ k)
    {calls : List PageCall} (hcalls : Meets PageCall.inForce (PageCall.Countable pageSize.toNat) calls held)
    {fuel : Nat} (hfuel : 2 ^ 64 < fuel) :
    ∃ m', PageCall.runAll fuel calls m = .ok m' ∧ PagesCounted pageSize (play PageCall.inForce calls held) m' ∧
      ∀ x, m'.locker.filter (·.addr = x) = m.locker.filter (·.addr = x) ++ turns pageSize x calls held := by
  induction calls generalizing held m with
  | nil => exact ⟨m, rfl, h, fun x => (List.append_nil _).symm⟩
  | cons c calls ih =>
    obtain ⟨t, hrun, hcounts, hlocker⟩ := h.run hsize hcalls.1 hfuel
    obtain ⟨m', hrest, hcounts', hlocker'⟩ := ih hcounts hcalls.2
    refine ⟨m', ?_, hcounts', fun x => ?_⟩
    · rw [PageCall.runAll, List.foldlM_cons, hrun]
      exact hrest
    · rw [hlocker', hlocker, List.append_assoc, turns]

theorem counts_new : PagesCounted pageSize [] ⟨pageSize, ~~~(pageSize - 1), ∅, []⟩ where
  sized := ⟨rfl, rfl⟩
  stored _ := rfl
  few _ := Nat.two_pow_pos 31
  fits := nofun

/-! ## What the locker has locked -/

/-- The calls at the changes of a count lock the page while it is not 0. -/
theorem foldl_turns {x : BitVec 64} {calls : List PageCall} {held : List MemRange} {locked : Bool}
    (hlocked : locked = decide (rangesOn pageSize.toNat held x ≠ 0)) :
    (turns pageSize x calls held).foldl (fun _ c => c.isLock) locked =
      decide (rangesOn pageSize.toNat (play PageCall.inForce calls held) x ≠ 0) := by
  induction calls generalizing held locked with
  | nil => exact hlocked
  | cons c calls ih =>
    rw [turns, List.foldl_append]
    refine ih ?_
    subst hlocked
    rw [turn]
    by_cases hbefore : rangesOn pageSize.toNat held x = 0
    · by_cases hafter : rangesOn pageSize.toNat (c.inForce held) x = 0
      · simp [hbefore, hafter]
      · simp [hbefore, hafter, LockerCall.isLock]
    · by_cases hafter : rangesOn pageSize.toNat (c.inForce held) x = 0
      · simp [hbefore, hafter, LockerCall.isLock]
      · simp [hbefore, hafter]

theorem PagesCounted.empty (h : PagesCounted pageSize [] m) : m.getLockedPageCount = 0 := by
  refine List.length_eq_zero_iff.mpr (List.eq_nil_iff_forall_not_mem.mpr fun x hx => ?_)
  obtain ⟨n, hn⟩ := Option.isSome_iff_exists.mp (AList.lookup_isSome.mpr (AList.mem_keys.mpr hx))
  rw [h.stored] at hn
  exact nomatch hn

/-- **The counts are exact** in every run whose calls can be counted: every
call returns and no assertion fails; a page is locked while a range in force
touches it; the histogram has the number of these ranges; the locker is called
where the number changes between 0 and 1; and with the last range the last
page goes. -/
theorem locked_pages_exact (pageSize : BitVec 64) (k : Nat) (hsize : pageSize.toNat = 2 ^ k) (calls : List PageCall)
    (hcalls : Meets PageCall.inForce (PageCall.Countable pageSize.toNat) calls []) (fuel : Nat)
    (hfuel : 2 ^ 64 < fuel) :
    ∃ m₀ m, LockedPageManager.new pageSize = .ok m₀ ∧ PageCall.runAll fuel calls m₀ = .ok m ∧
      (∀ x, isLocked m.locker x = true ↔ ∃ r ∈ play PageCall.inForce calls [], r.Touches pageSize.toNat x) ∧
      (∀ x, m.histogram.lookup x = entryFor (rangesOn pageSize.toNat (play PageCall.inForce calls []) x)) ∧
      (∀ x, m.locker.filter (·.addr = x) = turns pageSize x calls []) ∧
      (play PageCall.inForce calls [] = [] → m.getLockedPageCount = 0) := by
  obtain ⟨m, hrun, hcounts, hlocker⟩ := counts_new.runAll hsize hcalls hfuel
  refine ⟨_, m, new_eq hsize, hrun, fun x => ?_, hcounts.stored, fun x => ?_, fun hnone => ?_⟩
  · have hfold := @foldl_turns pageSize x calls [] false rfl
    rw [isLocked, hlocker, List.filter_nil, List.nil_append, hfold, decide_eq_true_eq, ← Nat.pos_iff_ne_zero, rangesOn,
      List.countP_pos_iff]
    simp
  · rw [hlocker, List.filter_nil, List.nil_append]
  · rw [hnone] at hcounts
    exact hcounts.empty

end Pages

/-- Two ranges over a boundary, and one of them unlocked. -/
theorem locked_pages_exact_sample : ∃ m₀ m, LockedPageManager.new 4096 = .ok m₀ ∧
    PageCall.runAll (2 ^ 64 + 1) [.lockRange ⟨4090, 10⟩, .lockRange ⟨8191, 1⟩, .unlockRange ⟨4090, 10⟩] m₀ = .ok m ∧
      m.histogram.lookup 4096 = some 1 := by
  have hcalls : Meets PageCall.inForce (PageCall.Countable 4096)
      [.lockRange ⟨4090, 10⟩, .lockRange ⟨8191, 1⟩, .unlockRange ⟨4090, 10⟩] [] := by
    have hmem : (⟨4090, 10⟩ : MemRange) ∈ [⟨8191, 1⟩, (⟨4090, 10⟩ : MemRange)] := by decide
    refine ⟨⟨.inr (by decide), fun x _ => ?_⟩, ⟨.inr (by decide), fun x _ => ?_⟩, hmem, trivial⟩
    · exact Nat.lt_of_le_of_lt List.countP_le_length (by decide)
    · exact Nat.lt_of_le_of_lt List.countP_le_length (by decide)
  obtain ⟨m₀, m, hnew, hrun, -, hstored, -⟩ := locked_pages_exact 4096 12 rfl _ hcalls (2 ^ 64 + 1) (Nat.lt_succ_self _)
  refine ⟨m₀, m, hnew, hrun, ?_⟩
  rw [hstored]
  decide

/-- A byte of the last page: after this page the loop goes on with the first. -/
theorem not_locked_pages_exact : ¬ ∀ (pageSize : BitVec 64) (k : Nat), pageSize.toNat = 2 ^ k → ∀ calls : List PageCall,
    Meets PageCall.inForce (fun c held => ∀ r, c = .unlockRange r → r ∈ held) calls [] →
      ∃ (fuel : Nat) (m₀ m : LockedPageManager), LockedPageManager.new pageSize = .ok m₀ ∧
        PageCall.runAll fuel calls m₀ = .ok m := by
  intro h
  have hmeets : Meets PageCall.inForce (fun c held => ∀ r, c = .unlockRange r → r ∈ held)
      [.lockRange ⟨BitVec.ofNat 64 (2 ^ 64 - 4096), 1⟩] [] := ⟨fun _ hr => PageCall.noConfusion hr, trivial⟩
  obtain ⟨fuel, m₀, m, hnew, hrun⟩ := h 4096 12 rfl _ hmeets
  -- every page is at or before the last one, so the loop never ends
  have hloop : ∀ (fuel : Nat) (page : BitVec 64) (m : LockedPageManager), 4096 ∣ page.toNat →
      LockedPageManager.overPages LockedPageManager.lockPage 4096 (BitVec.ofNat 64 (2 ^ 64 - 4096)) fuel page m =
        .error .running := by
    intro fuel
    induction fuel with
    | zero => exact fun _ _ _ => rfl
    | succ fuel ih =>
      intro page m hpage
      have hlt := page.isLt
      have hle : page ≤ BitVec.ofNat 64 (2 ^ 64 - 4096) := by
        rw [BitVec.le_def]
        change page.toNat ≤ 2 ^ 64 - 4096
        omega
      have hnext : 4096 ∣ (page + 4096).toNat := by
        rw [BitVec.toNat_add]
        change 4096 ∣ (page.toNat + 4096) % 2 ^ 64
        omega
      rw [LockedPageManager.overPages, if_pos hle]
      cases hlookup : m.histogram.lookup page with
      | none =>
        rw [lockPage_none hlookup]
        exact ih _ _ hnext
      | some n =>
        rw [lockPage_some hlookup]
        exact ih _ _ hnext
  rw [new_eq (k := 12) rfl] at hnew
  obtain rfl := Except.ok.inj hnew
  have hstart : (4096 : Nat) ∣ (BitVec.ofNat 64 (2 ^ 64 - 4096) &&& ~~~(4096 - 1) : BitVec 64).toNat := by decide
  have hend : (BitVec.ofNat 64 (2 ^ 64 - 4096) + 1 - 1) &&& ~~~(4096 - 1) =
      (BitVec.ofNat 64 (2 ^ 64 - 4096) : BitVec 64) := by decide
  have hcall : LockedPageManager.lockRange fuel (BitVec.ofNat 64 (2 ^ 64 - 4096)) 1
      ⟨4096, ~~~(4096 - 1), ∅, []⟩ = .error .running := by
    rw [LockedPageManager.lockRange, LockedPageManager.overRange, if_neg (by decide)]
    simp only [hend]
    exact hloop fuel _ _ hstart
  have hall : PageCall.runAll fuel [.lockRange ⟨BitVec.ofNat 64 (2 ^ 64 - 4096), 1⟩] ⟨4096, ~~~(4096 - 1), ∅, []⟩ =
      .error .running := by
    rw [PageCall.runAll, List.foldlM_cons]
    change (LockedPageManager.lockRange fuel (BitVec.ofNat 64 (2 ^ 64 - 4096)) 1 _ >>= _) = _
    rw [hcall]
    rfl
  exact nomatch hall.symm.trans hrun

end Pinkcoin
