/-
The birthday of a wallet, `nTimeFirstKey`: scans skip the blocks that are more
than two hours older. It is lowered by the calls that make or import keys, and
folded over the records of the wallet file when it is loaded. Zero is "no
limit" in it, and "unknown" in the creation time of a key. The wallet is taken
as far as its keys go; the file does what it is told.
-/
import Pinkcoin.Lib.Runs
import Pinkcoin.Smsg.Address
import Pinkcoin.Types
import Mathlib.Data.List.Induction

namespace Pinkcoin

open Runs

/-! ## The wallet and its file -/

/-- A record of the wallet file that has to do with keys. -/
inductive KeyRecord
  | key (k : CKeyID)
  | wkey (k : CKeyID)
  | ckey (k : CKeyID)
  | keymeta (k : CKeyID) (nCreateTime : Int)
  | pool (nIndex : Int) (k : CKeyID) (nTime : Int)
  deriving DecidableEq

structure KeyWallet where
  /-- The ids in `mapKeys` and `mapCryptedKeys`. -/
  keys : List CKeyID
  mapKeyMetadata : Map CKeyID Int
  nTimeFirstKey : Int
  fUseCrypto : Bool
  file : List KeyRecord

namespace KeyWallet

/-- `CWallet()`, for a file. -/
def start (file : List KeyRecord) : KeyWallet := ⟨[], ∅, 0, false, file⟩

/-- `mapKeyMetadata[k].nCreateTime`, which makes an entry where there is none. -/
def createTime (w : KeyWallet) (k : CKeyID) : Int := (w.mapKeyMetadata.lookup k).getD 0

def isMeta (k : CKeyID) : KeyRecord → Bool
  | .keymeta k' _ => k = k'
  | _ => false

/-- `WriteKey`. It does not replace a "key" record. -/
def writeKey (k : CKeyID) (nCreateTime : Int) (file : List KeyRecord) : List KeyRecord :=
  let file := .keymeta k nCreateTime :: file.filter (!isMeta k ·)
  if .key k ∈ file then file else .key k :: file

/-- `WriteCryptedKey`. -/
def writeCryptedKey (k : CKeyID) (nCreateTime : Int) (file : List KeyRecord) : List KeyRecord :=
  let file := .keymeta k nCreateTime :: file.filter (!isMeta k ·)
  .ckey k :: file.filter fun r => r ≠ .ckey k ∧ r ≠ .key k ∧ r ≠ .wkey k

/-- `AddKey`, or `AddCryptedKey` without a secret. -/
def addKey (w : KeyWallet) (k : CKeyID) : KeyWallet :=
  { w with
    keys := w.keys.insert k
    mapKeyMetadata := w.mapKeyMetadata.insert k (w.createTime k)
    file := if w.fUseCrypto then writeCryptedKey k (w.createTime k) w.file else writeKey k (w.createTime k) w.file }

/-- `GenerateNewKey`. -/
def generateNewKey (w : KeyWallet) (k : CKeyID) (nCreationTime : Int) : KeyWallet :=
  addKey
    { w with
      mapKeyMetadata := w.mapKeyMetadata.insert k nCreationTime
      nTimeFirstKey := if w.nTimeFirstKey = 0 ∨ nCreationTime < w.nTimeFirstKey then nCreationTime
        else w.nTimeFirstKey } k

/-- `importprivkey`. -/
def importprivkey (w : KeyWallet) (k : CKeyID) : KeyWallet :=
  if k ∈ w.keys then w
  else { addKey { w with mapKeyMetadata := w.mapKeyMetadata.insert k 1 } k with nTimeFirstKey := 1 }

/-- One line of `importwallet`. -/
def importLine : KeyWallet × Int → CKeyID × Int → KeyWallet × Int
  | (w, nTimeBegin), (k, nTime) =>
    if k ∈ w.keys then (w, nTimeBegin)
    else
      let w := w.addKey k
      ({ w with mapKeyMetadata := w.mapKeyMetadata.insert k nTime }, min nTimeBegin nTime)

/-- `importwallet`: the keys of the dump with their times, and the time of the
best block. -/
def importwallet (w : KeyWallet) (lines : List (CKeyID × Int)) (bestTime : Int) : KeyWallet :=
  let (w, nTimeBegin) := lines.foldl importLine (w, bestTime)
  if w.nTimeFirstKey = 0 ∨ nTimeBegin < w.nTimeFirstKey then { w with nTimeFirstKey := nTimeBegin } else w

/-- `EncryptKeys`: every key goes to the file again. -/
def encryptWallet (w : KeyWallet) : KeyWallet :=
  if w.fUseCrypto then w else w.keys.foldl addKey { w with fUseCrypto := true }

/-! ## Loading -/

/-- `CWalletScanState`. -/
structure WalletScanState where
  nKeys : Nat
  nCKeys : Nat
  nKeyMeta : Nat

/-- `LoadKeyMetadata`. -/
def loadKeyMetadata (w : KeyWallet) (k : CKeyID) (nCreateTime : Int) : KeyWallet :=
  { w with
    nTimeFirstKey := if nCreateTime ≠ 0 ∧ (w.nTimeFirstKey = 0 ∨ nCreateTime < w.nTimeFirstKey) then nCreateTime
      else w.nTimeFirstKey
    mapKeyMetadata := w.mapKeyMetadata.insert k nCreateTime }

/-- `ReadKeyValue`. -/
def readKeyValue : KeyWallet × WalletScanState → KeyRecord → KeyWallet × WalletScanState
  | (w, wss), .key k => ({ w with keys := w.keys.insert k }, { wss with nKeys := wss.nKeys + 1 })
  | (w, wss), .wkey k => ({ w with keys := w.keys.insert k }, wss)
  | (w, wss), .ckey k =>
    ({ w with keys := w.keys.insert k, fUseCrypto := true }, { wss with nCKeys := wss.nCKeys + 1 })
  | (w, wss), .keymeta k nCreateTime =>
    let w := w.loadKeyMetadata k nCreateTime
    -- the same minimum once more, with no regard for an unknown time
    let w := if w.nTimeFirstKey = 0 ∨ nCreateTime < w.nTimeFirstKey then { w with nTimeFirstKey := nCreateTime } else w
    (w, { wss with nKeyMeta := wss.nKeyMeta + 1 })
  | (w, wss), .pool _ k nTime =>
    (if (w.mapKeyMetadata.lookup k).isSome then w else { w with mapKeyMetadata := w.mapKeyMetadata.insert k nTime },
      wss)

/-- `LoadWallet`: a new wallet, and the records in the order of the cursor. -/
def loadWallet (file records : List KeyRecord) : KeyWallet :=
  let (w, wss) := records.foldl readKeyValue (start file, ⟨0, 0, 0⟩)
  -- nTimeFirstKey is only reliable if all keys have metadata
  if wss.nKeys + wss.nCKeys ≠ wss.nKeyMeta then { w with nTimeFirstKey := 1 } else w

/-! ## Scanning -/

/-- The loop of `ScanForWalletTransactions` from the first of some blocks: what
is read. -/
def scanForWalletTransactions {B : Type} (nTimeFirstKey : Int) (nTime : B → UInt32) : List B → List B
  | [] => []
  | pindex :: rest =>
    if nTimeFirstKey ≠ 0 ∧ (nTime pindex).toNat < nTimeFirstKey - 7200 then
      scanForWalletTransactions nTimeFirstKey nTime rest
    else pindex :: scanForWalletTransactions nTimeFirstKey nTime rest

/-! ## Runs -/

inductive Op
  | generate (k : CKeyID) (nCreationTime : Int)
  | importKey (k : CKeyID)
  | importWallet (lines : List (CKeyID × Int)) (bestTime : Int)
  /-- A stealth payment adds its key, with or without its secret. -/
  | stealth (k : CKeyID)
  | encrypt
  | writePool (nIndex : Int) (k : CKeyID) (nTime : Int)
  | erasePool (nIndex : Int)
  /-- The program starts again; the cursor gives the records in this order. -/
  | load (records : List KeyRecord)

def isPool (nIndex : Int) : KeyRecord → Bool
  | .pool n _ _ => n = nIndex
  | _ => false

def run : Op → KeyWallet → KeyWallet
  | .generate k nCreationTime, w => w.generateNewKey k nCreationTime
  | .importKey k, w => w.importprivkey k
  | .importWallet lines bestTime, w => w.importwallet lines bestTime
  | .stealth k, w => w.addKey k
  | .encrypt, w => w.encryptWallet
  | .writePool n k nTime, w => { w with file := .pool n k nTime :: w.file.filter (!isPool n ·) }
  | .erasePool n, w => { w with file := w.file.filter (!isPool n ·) }
  | .load records, w => loadWallet w.file records

/-- A key of the wallet with a creation time that is known. -/
def Known (w : KeyWallet) (k : CKeyID) (t : Int) : Prop := k ∈ w.keys ∧ w.mapKeyMetadata.lookup k = some t ∧ t ≠ 0

/-- **The birthday hides no key** whose creation time is known. -/
def Early (w : KeyWallet) : Prop := w.nTimeFirstKey = 0 ∨ ∀ k t, w.Known k t → w.nTimeFirstKey ≤ t

/-- With a key of unknown creation time there is no limit. -/
def Unlimited (w : KeyWallet) : Prop :=
  (∃ k ∈ w.keys, w.mapKeyMetadata.lookup k = none ∨ w.mapKeyMetadata.lookup k = some 0) →
    w.nTimeFirstKey = 0 ∨ w.nTimeFirstKey = 1

/-! ## The calls that keep it -/

/-- The lines of a dump whose keys are new. -/
def newLines : List CKeyID → List (CKeyID × Int) → List (CKeyID × Int)
  | _, [] => []
  | keys, (k, nTime) :: lines =>
    if k ∈ keys then newLines keys lines else (k, nTime) :: newLines (keys.insert k) lines

/-- The earliest of the times of these lines and that of the best block. -/
def dumpBegin (keys : List CKeyID) (lines : List (CKeyID × Int)) (bestTime : Int) : Int :=
  (newLines keys lines).foldl (fun nTimeBegin line => min nTimeBegin line.2) bestTime

/-- The times of the "keymeta" records, in order. -/
def metaTimes (records : List KeyRecord) : List Int :=
  records.filterMap fun
    | .keymeta _ t => some t
    | _ => none

/-- Those after the last that is unknown. -/
def sinceUnknown (times : List Int) : List Int := times.foldl (fun since t => if t = 0 then [] else since ++ [t]) []

/-- The id that a record has a key for. -/
def keyOf : KeyRecord → Option CKeyID
  | .key k => some k
  | .wkey k => some k
  | .ckey k => some k
  | _ => none

/-- The time in a record. -/
def timeOf : KeyRecord → Option Int
  | .keymeta _ t => some t
  | .pool _ _ t => some t
  | _ => none

def isKey : KeyRecord → Bool
  | .key _ => true
  | .ckey _ => true
  | _ => false

/-- Records that can be loaded. Either all is known: the "key" and "ckey"
records are as many as the "keymeta" records, none of these has the time 0, and
every key has one. Or no time is negative, and these numbers differ, or no time
comes after the last unknown one, or the time 1 does. -/
def Loadable (records : List KeyRecord) : Prop :=
  records.countP isKey = (metaTimes records).length ∧ 0 ∉ metaTimes records ∧
      (∀ r ∈ records, ∀ k ∈ keyOf r, ∃ t, .keymeta k t ∈ records) ∨
    (∀ r ∈ records, ∀ t ∈ timeOf r, 0 ≤ t) ∧ (records.countP isKey ≠ (metaTimes records).length ∨
      sinceUnknown (metaTimes records) = [] ∨ 1 ∈ sinceUnknown (metaTimes records))

/-- A call that hides no key. -/
def Harmless : Op → KeyWallet → Prop
  | .generate k t, w => w.nTimeFirstKey ≠ 0 ∨ t = 0 ∨ ∀ k' t', k' ≠ k → w.Known k' t' → t ≤ t'
  | .importKey k, w => k ∈ w.keys ∨ ∀ k' t', w.Known k' t' → 1 ≤ t'
  | .importWallet lines bestTime, w => w.nTimeFirstKey ≠ 0 ∨ dumpBegin w.keys lines bestTime = 0 ∨
      ∀ k t, w.Known k t → dumpBegin w.keys lines bestTime ≤ t
  | .stealth k, w => k ∈ w.keys ∨ w.createTime k = 0 ∨ w.nTimeFirstKey = 0 ∨ w.nTimeFirstKey ≤ w.createTime k
  | .encrypt, _ => True
  | .writePool _ _ _, _ => True
  | .erasePool _, _ => True
  | .load records, w => records.Perm w.file ∧ Loadable records

variable {w : KeyWallet} {k k' : CKeyID} {t : Int}

theorem known_of_createTime (hk : k ∈ w.keys) (ht : w.createTime k ≠ 0) : w.Known k (w.createTime k) := by
  refine ⟨hk, ?_, ht⟩
  rw [KeyWallet.createTime] at ht ⊢
  cases hlookup : w.mapKeyMetadata.lookup k with
  | none =>
    rw [hlookup] at ht
    exact absurd rfl ht
  | some t => rfl

/-- An entry of the metadata is changed, and its key may be new. -/
theorem known_insert {v : KeyWallet} (hkeys : v.keys = w.keys.insert k)
    (hmeta : v.mapKeyMetadata = w.mapKeyMetadata.insert k t) {t' : Int} (h : v.Known k' t') :
    k' = k ∧ t' = t ∨ k' ≠ k ∧ w.Known k' t' := by
  obtain ⟨hmem, hlookup, hne⟩ := h
  rw [hmeta] at hlookup
  by_cases hk : k' = k
  · subst hk
    rw [AList.lookup_insert] at hlookup
    exact .inl ⟨rfl, (Option.some.inj hlookup).symm⟩
  · rw [AList.lookup_insert_ne hk] at hlookup
    rw [hkeys, List.mem_insert_iff] at hmem
    exact .inr ⟨hk, hmem.resolve_left hk, hlookup, hne⟩

theorem Early.addKey (h : w.Early)
    (hk : k ∈ w.keys ∨ w.createTime k = 0 ∨ w.nTimeFirstKey = 0 ∨ w.nTimeFirstKey ≤ w.createTime k) :
    (w.addKey k).Early := by
  by_cases hlimit : w.nTimeFirstKey = 0
  · exact .inl hlimit
  · have hall := h.resolve_left hlimit
    refine .inr fun k' t' hknown => ?_
    change w.nTimeFirstKey ≤ t'
    rcases known_insert rfl rfl hknown with ⟨rfl, rfl⟩ | ⟨-, hbefore⟩
    · rcases hk with hmem | hnone | hzero | hle
      · exact hall k' _ (known_of_createTime hmem hknown.2.2)
      · exact absurd hnone hknown.2.2
      · exact absurd hzero hlimit
      · exact hle
    · exact hall k' t' hbefore

theorem Early.generateNewKey (h : w.Early)
    (ht : w.nTimeFirstKey ≠ 0 ∨ t = 0 ∨ ∀ k' t', k' ≠ k → w.Known k' t' → t ≤ t') : (w.generateNewKey k t).Early := by
  let w' : KeyWallet :=
    { w with
      mapKeyMetadata := w.mapKeyMetadata.insert k t
      nTimeFirstKey := if w.nTimeFirstKey = 0 ∨ t < w.nTimeFirstKey then t else w.nTimeFirstKey }
  have hnew : w'.createTime k = t := by
    simp [w', createTime]
  by_cases hzero : w'.nTimeFirstKey = 0
  · exact .inl hzero
  · refine .inr fun k' t' hknown => ?_
    change w'.nTimeFirstKey ≤ t'
    rcases known_insert (w := w') (k := k) rfl rfl hknown with ⟨rfl, rfl⟩ | ⟨hne, hmem, hlookup, hsome⟩
    · rw [hnew]
      change ite _ _ _ ≤ _
      split
      next => exact Int.le_refl _
      next hnot => omega
    · have hbefore : w.Known k' t' := by
        have hlookup' : (w.mapKeyMetadata.insert k t).lookup k' = some t' := hlookup
        rw [AList.lookup_insert_ne hne] at hlookup'
        exact ⟨hmem, hlookup', hsome⟩
      change ite (w.nTimeFirstKey = 0 ∨ t < w.nTimeFirstKey) t w.nTimeFirstKey ≤ t'
      by_cases hlimit : w.nTimeFirstKey = 0
      · rw [if_pos (.inl hlimit)]
        rcases ht with hsome | htzero | hearly
        · exact absurd hlimit hsome
        · refine absurd ?_ hzero
          change ite (w.nTimeFirstKey = 0 ∨ t < w.nTimeFirstKey) t w.nTimeFirstKey = 0
          rw [if_pos (.inl hlimit), htzero]
        · exact hearly k' t' hne hbefore
      · have hle := h.resolve_left hlimit k' t' hbefore
        split
        next hless => omega
        next => exact hle

theorem Early.importprivkey (h : w.Early) (hk : k ∈ w.keys ∨ ∀ k' t', w.Known k' t' → 1 ≤ t') :
    (w.importprivkey k).Early := by
  rw [KeyWallet.importprivkey]
  split
  next => exact h
  next hnew =>
    refine .inr fun k' t' hknown => ?_
    change 1 ≤ t'
    let w' : KeyWallet := { w with mapKeyMetadata := w.mapKeyMetadata.insert k 1 }
    have hone : w'.createTime k = 1 := by simp [w', createTime]
    rcases known_insert (w := w') (k := k) rfl rfl hknown with ⟨rfl, rfl⟩ | ⟨hne, hmem, hlookup, hsome⟩
    · exact Int.le_of_eq hone.symm
    · have hlookup' : (w.mapKeyMetadata.insert k 1).lookup k' = some t' := hlookup
      rw [AList.lookup_insert_ne hne] at hlookup'
      exact hk.resolve_left hnew k' t' ⟨hmem, hlookup', hsome⟩

theorem foldl_min_le (lines : List (CKeyID × Int)) (n : Int) :
    lines.foldl (fun nTimeBegin line => min nTimeBegin line.2) n ≤ n := by
  induction lines generalizing n with
  | nil => exact Int.le_refl n
  | cons line lines ih => exact Int.le_trans (ih _) (Int.min_le_left n line.2)

/-- The lines of a dump: the birthday stays, and a key that is known after
them was known, or is no older than the begin of the dump. -/
theorem importLines (lines : List (CKeyID × Int)) (w : KeyWallet) (nTimeBegin : Int) :
    (lines.foldl importLine (w, nTimeBegin)).1.nTimeFirstKey = w.nTimeFirstKey ∧
      (lines.foldl importLine (w, nTimeBegin)).2 = dumpBegin w.keys lines nTimeBegin ∧
      ∀ k t, (lines.foldl importLine (w, nTimeBegin)).1.Known k t →
        w.Known k t ∨ dumpBegin w.keys lines nTimeBegin ≤ t := by
  induction lines generalizing w nTimeBegin with
  | nil => exact ⟨rfl, rfl, fun k t h => .inl h⟩
  | cons line lines ih =>
    obtain ⟨k, t⟩ := line
    rw [List.foldl_cons, importLine, dumpBegin, newLines]
    by_cases hk : k ∈ w.keys
    · rw [if_pos hk, if_pos hk]
      exact ih w nTimeBegin
    · rw [if_neg hk, if_neg hk]
      obtain ⟨hfirst, hbegin, hknown⟩ := ih { w.addKey k with mapKeyMetadata := (w.addKey k).mapKeyMetadata.insert k t }
        (min nTimeBegin t)
      refine ⟨hfirst, hbegin, fun k' t' h => ?_⟩
      rcases hknown k' t' h with hbefore | hle
      · have hkeys : (w.addKey k).keys = (w.addKey k).keys.insert k := (List.insert_of_mem List.mem_insert_self).symm
        rcases known_insert (v := { w.addKey k with mapKeyMetadata := (w.addKey k).mapKeyMetadata.insert k t }) hkeys
          rfl hbefore with ⟨rfl, rfl⟩ | ⟨hne, hold⟩
        · exact .inr (Int.le_trans (foldl_min_le (newLines (w.keys.insert k') lines) (min nTimeBegin t'))
            (Int.min_le_right _ _))
        · rcases known_insert rfl rfl hold with ⟨heq, -⟩ | ⟨-, holder⟩
          · exact absurd heq hne
          · exact .inl holder
      · exact .inr hle

theorem Early.importwallet (h : w.Early) {lines : List (CKeyID × Int)} {bestTime : Int}
    (hlines : w.nTimeFirstKey ≠ 0 ∨ dumpBegin w.keys lines bestTime = 0 ∨
      ∀ k t, w.Known k t → dumpBegin w.keys lines bestTime ≤ t) : (w.importwallet lines bestTime).Early := by
  obtain ⟨hfirst, hbegin, hknown⟩ := importLines lines w bestTime
  rw [KeyWallet.importwallet]
  generalize lines.foldl importLine (w, bestTime) = after at hfirst hbegin hknown
  obtain ⟨w', nTimeBegin⟩ := after
  simp only at hfirst hbegin hknown ⊢
  subst hbegin
  rw [hfirst]
  by_cases hlimit : w.nTimeFirstKey = 0
  · rw [if_pos (.inl hlimit)]
    by_cases hzero : dumpBegin w.keys lines bestTime = 0
    · exact .inl hzero
    · refine .inr fun k t hk => ?_
      change dumpBegin w.keys lines bestTime ≤ t
      rcases hknown k t hk with hbefore | hle
      · exact (hlines.resolve_left (not_not_intro hlimit)).resolve_left hzero k t hbefore
      · exact hle
  · have hall := h.resolve_left hlimit
    split
    next hless =>
      refine .inr fun k t hk => ?_
      change dumpBegin w.keys lines bestTime ≤ t
      rcases hknown k t hk with hbefore | hle
      · have := hall k t hbefore
        omega
      · exact hle
    next hnot =>
      refine .inr fun k t hk => ?_
      rw [hfirst]
      rcases hknown k t hk with hbefore | hle
      · exact hall k t hbefore
      · omega

theorem Early.encryptWallet (h : w.Early) : w.encryptWallet.Early := by
  rw [KeyWallet.encryptWallet]
  split
  next => exact h
  next =>
    have hfold : ∀ (l : List CKeyID) (v : KeyWallet), (∀ k ∈ l, k ∈ v.keys) → v.Early →
        (l.foldl KeyWallet.addKey v).Early := by
      intro l
      induction l with
      | nil => exact fun v _ hv => hv
      | cons k l ih =>
        intro v hl hv
        refine ih (v.addKey k) (fun j hj => ?_) (hv.addKey (.inl (hl k List.mem_cons_self)))
        exact List.mem_insert_of_mem (hl j (List.mem_cons_of_mem _ hj))
    exact hfold w.keys _ (fun k hk => hk) h

/-! ## What is loaded -/

/-- What the two minima make of the birthday. -/
def minima (nTimeFirstKey t : Int) : Int :=
  let first := if t ≠ 0 ∧ (nTimeFirstKey = 0 ∨ t < nTimeFirstKey) then t else nTimeFirstKey
  if first = 0 ∨ t < first then t else first

theorem minima_zero {n : Int} (h : 0 ≤ n) : minima n 0 = 0 := by
  simp only [minima, ne_eq, not_true_eq_false, false_and, if_false]
  split <;> omega

theorem minima_known {t : Int} (ht : t ≠ 0) (n : Int) : minima n t = if n = 0 ∨ t < n then t else n := by
  simp only [minima, ne_eq, ht, not_false_eq_true, true_and]
  by_cases hless : n = 0 ∨ t < n
  · rw [if_pos hless, if_neg (by omega)]
  · rw [if_neg hless, if_neg hless]

theorem sinceUnknown_append (times : List Int) (t : Int) :
    sinceUnknown (times ++ [t]) = if t = 0 then [] else sinceUnknown times ++ [t] := by
  rw [sinceUnknown, List.foldl_append]
  rfl

theorem sinceUnknown_eq {times : List Int} (h : 0 ∉ times) : sinceUnknown times = times := by
  induction times using List.reverseRecOn with
  | nil => rfl
  | append_singleton times t ih =>
    rw [List.mem_append, List.mem_singleton, not_or] at h
    rw [sinceUnknown_append, if_neg (Ne.symm h.2), ih h.1]

/-- An unknown time takes the limit away, and those after it set it anew. -/
theorem minima_spec {times : List Int} (h : (∀ t ∈ times, 0 ≤ t) ∨ 0 ∉ times) :
    ((∀ t ∈ times, 0 ≤ t) → 0 ≤ times.foldl minima 0) ∧ (times.foldl minima 0 = 0 ↔ sinceUnknown times = []) ∧
      ∀ t ∈ sinceUnknown times, times.foldl minima 0 ≤ t := by
  induction times using List.reverseRecOn with
  | nil => exact ⟨fun _ => Int.le_refl 0, iff_of_true rfl rfl, nofun⟩
  | append_singleton times t ih =>
    obtain ⟨hnonneg, hnone, hleast⟩ := ih <| h.imp (fun hall u hu => hall u (List.mem_append_left _ hu))
      fun hnot hmem => hnot (List.mem_append_left _ hmem)
    have hfold : (times ++ [t]).foldl minima 0 = minima (times.foldl minima 0) t := List.foldl_append
    have hbefore : (∀ u ∈ times ++ [t], 0 ≤ u) → 0 ≤ times.foldl minima 0 := fun hall =>
      hnonneg fun u hu => hall u (List.mem_append_left _ hu)
    rw [sinceUnknown_append, hfold]
    generalize times.foldl minima 0 = n at *
    by_cases hzero : t = 0
    · subst hzero
      have hall : ∀ u ∈ times ++ [0], 0 ≤ u :=
        h.resolve_right (not_not_intro (List.mem_append_right _ List.mem_cons_self))
      rw [if_pos rfl, minima_zero (hbefore hall)]
      exact ⟨fun _ => Int.le_refl 0, iff_of_true rfl rfl, nofun⟩
    · have hne : sinceUnknown times ++ [t] ≠ [] := List.append_ne_nil_of_right_ne_nil _ (List.cons_ne_nil t [])
      rw [if_neg hzero, minima_known hzero]
      by_cases hless : n = 0 ∨ t < n
      · rw [if_pos hless]
        refine ⟨fun hall => hall t (List.mem_append_right _ List.mem_cons_self), iff_of_false hzero hne, fun u hu => ?_⟩
        rcases List.mem_append.mp hu with hu | hu
        · rcases hless with hn | hlt
          · rw [hnone.mp hn] at hu
            exact nomatch hu
          · have := hleast u hu
            omega
        · exact Int.le_of_eq (List.mem_singleton.mp hu).symm
      · rw [if_neg hless]
        refine ⟨hbefore, iff_of_false (fun hn => hless (.inl hn)) hne, fun u hu => ?_⟩
        rcases List.mem_append.mp hu with hu | hu
        · exact hleast u hu
        · rw [List.mem_singleton.mp hu]
          omega

/-- The wallet after some records. -/
structure Read (records : List KeyRecord) (w : KeyWallet) (wss : WalletScanState) : Prop where
  first : w.nTimeFirstKey = (metaTimes records).foldl minima 0
  count : wss.nKeys + wss.nCKeys = records.countP isKey
  metas : wss.nKeyMeta = (metaTimes records).length
  keys : ∀ k, k ∈ w.keys ↔ ∃ r ∈ records, keyOf r = some k
  /-- A time is that of a record. -/
  time : ∀ k t, w.mapKeyMetadata.lookup k = some t → ∃ r ∈ records, timeOf r = some t
  /-- Where there is a "keymeta" record, the time is that of one. -/
  known : ∀ k t, .keymeta k t ∈ records → ∃ u, w.mapKeyMetadata.lookup k = some u ∧ .keymeta k u ∈ records

theorem metaTimes_append (records : List KeyRecord) (r : KeyRecord) :
    metaTimes (records ++ [r]) = metaTimes records ++ metaTimes [r] := List.filterMap_append

/-- A record without a time. -/
theorem Read.plain {records : List KeyRecord} {wss wss' : WalletScanState} {w' : KeyWallet} (h : Read records w wss)
    {r : KeyRecord} (hr : timeOf r = none) (hmeta : metaTimes [r] = []) (hfirst : w'.nTimeFirstKey = w.nTimeFirstKey)
    (hsame : w'.mapKeyMetadata = w.mapKeyMetadata) (hmetas : wss'.nKeyMeta = wss.nKeyMeta)
    (hcount : wss'.nKeys + wss'.nCKeys = wss.nKeys + wss.nCKeys + if isKey r then 1 else 0)
    (hkeys : ∀ k, k ∈ w'.keys ↔ k ∈ w.keys ∨ keyOf r = some k) : Read (records ++ [r]) w' wss' where
  first := by rw [hfirst, h.first, metaTimes_append, hmeta, List.append_nil]
  count := by
    rw [hcount, h.count, List.countP_append, List.countP_singleton]
  metas := by rw [hmetas, h.metas, metaTimes_append, hmeta, List.append_nil]
  keys k := by
    rw [hkeys, h.keys]
    simp [or_and_right, exists_or]
  time k t hlookup := by
    rw [hsame] at hlookup
    obtain ⟨q, hq, ht⟩ := h.time k t hlookup
    exact ⟨q, List.mem_append_left _ hq, ht⟩
  known k t hmem := by
    rw [hsame]
    rcases List.mem_append.mp hmem with hmem | hmem
    · obtain ⟨u, hlookup, hu⟩ := h.known k t hmem
      exact ⟨u, hlookup, List.mem_append_left _ hu⟩
    · rw [← List.mem_singleton.mp hmem] at hr
      exact nomatch hr

theorem Read.record {records : List KeyRecord} {wss : WalletScanState} (h : Read records w wss) (r : KeyRecord) :
    Read (records ++ [r]) (readKeyValue (w, wss) r).1 (readKeyValue (w, wss) r).2 := by
  have hinsert : ∀ k k' : CKeyID, k' ∈ w.keys.insert k ↔ k' ∈ w.keys ∨ some k = some k' := fun k k' => by
    rw [List.mem_insert_iff, Option.some.injEq, or_comm, eq_comm]
  cases r with
  | key k => exact h.plain rfl rfl rfl rfl rfl (Nat.add_right_comm _ _ _) (hinsert k)
  | wkey k => exact h.plain rfl rfl rfl rfl rfl rfl (hinsert k)
  | ckey k => exact h.plain rfl rfl rfl rfl rfl rfl (hinsert k)
  | keymeta k t =>
    have hstep : (readKeyValue (w, wss) (.keymeta k t)).1.nTimeFirstKey = minima w.nTimeFirstKey t ∧
        (readKeyValue (w, wss) (.keymeta k t)).1.keys = w.keys ∧
        (readKeyValue (w, wss) (.keymeta k t)).1.mapKeyMetadata = w.mapKeyMetadata.insert k t := by
      have hminima : minima w.nTimeFirstKey t =
          if (w.loadKeyMetadata k t).nTimeFirstKey = 0 ∨ t < (w.loadKeyMetadata k t).nTimeFirstKey then t
          else (w.loadKeyMetadata k t).nTimeFirstKey := rfl
      rw [hminima, readKeyValue]
      by_cases hless : (w.loadKeyMetadata k t).nTimeFirstKey = 0 ∨ t < (w.loadKeyMetadata k t).nTimeFirstKey
      · simp only [if_pos hless]
        exact ⟨trivial, rfl, rfl⟩
      · simp only [if_neg hless]
        exact ⟨trivial, rfl, rfl⟩
    obtain ⟨hfirst, hkeys, hmeta⟩ := hstep
    refine ⟨?_, ?_, ?_, fun j => ?_, fun j u hlookup => ?_, fun j u hmem => ?_⟩
    · rw [hfirst, h.first, metaTimes_append, List.foldl_append]
      rfl
    · rw [List.countP_append]
      exact h.count
    · rw [metaTimes_append, List.length_append]
      exact congrArg (· + 1) h.metas
    · rw [hkeys, h.keys]
      simp [keyOf, or_and_right, exists_or]
    · rw [hmeta] at hlookup
      by_cases hj : j = k
      · subst hj
        rw [AList.lookup_insert] at hlookup
        exact ⟨_, List.mem_append_right _ List.mem_cons_self, hlookup⟩
      · rw [AList.lookup_insert_ne hj] at hlookup
        obtain ⟨q, hq, ht⟩ := h.time j u hlookup
        exact ⟨q, List.mem_append_left _ hq, ht⟩
    · rw [hmeta]
      by_cases hj : j = k
      · subst hj
        exact ⟨t, AList.lookup_insert _, List.mem_append_right _ List.mem_cons_self⟩
      · rw [AList.lookup_insert_ne hj]
        rcases List.mem_append.mp hmem with hmem | hmem
        · obtain ⟨v, hlookup, hv⟩ := h.known j u hmem
          exact ⟨v, hlookup, List.mem_append_left _ hv⟩
        · have heq := List.mem_singleton.mp hmem
          exact absurd (KeyRecord.keymeta.inj heq).1 hj
  | pool n k t =>
    have hstep : (readKeyValue (w, wss) (.pool n k t)).1.nTimeFirstKey = w.nTimeFirstKey ∧
        (readKeyValue (w, wss) (.pool n k t)).1.keys = w.keys := by
      simp only [readKeyValue]
      split <;> exact ⟨rfl, rfl⟩
    have hmeta : ∀ j, (readKeyValue (w, wss) (.pool n k t)).1.mapKeyMetadata.lookup j =
        if j = k ∧ w.mapKeyMetadata.lookup k = none then some t else w.mapKeyMetadata.lookup j := fun j => by
      simp only [readKeyValue]
      cases hlookup : w.mapKeyMetadata.lookup k with
      | some u => simp
      | none =>
        by_cases hj : j = k
        · subst hj
          simp
        · simp [hj]
    obtain ⟨hfirst, hkeys⟩ := hstep
    refine ⟨?_, ?_, ?_, fun j => ?_, fun j u hlookup => ?_, fun j u hmem => ?_⟩
    · rw [hfirst, h.first, metaTimes_append]
      simp [metaTimes]
    · rw [List.countP_append]
      exact h.count
    · rw [metaTimes_append, List.length_append]
      exact h.metas
    · rw [hkeys, h.keys]
      simp [keyOf, or_and_right, exists_or]
    · rw [hmeta] at hlookup
      split at hlookup
      next => exact ⟨_, List.mem_append_right _ List.mem_cons_self, hlookup⟩
      next =>
        obtain ⟨q, hq, ht⟩ := h.time j u hlookup
        exact ⟨q, List.mem_append_left _ hq, ht⟩
    · rcases List.mem_append.mp hmem with hmem | hmem
      · obtain ⟨v, hlookup, hv⟩ := h.known j u hmem
        refine ⟨v, ?_, List.mem_append_left _ hv⟩
        rw [hmeta, if_neg, hlookup]
        rintro ⟨rfl, hnone⟩
        exact nomatch hnone.symm.trans hlookup
      · exact nomatch List.mem_singleton.mp hmem

theorem read_all (file records : List KeyRecord) :
    Read records (records.foldl readKeyValue (start file, ⟨0, 0, 0⟩)).1
      (records.foldl readKeyValue (start file, ⟨0, 0, 0⟩)).2 := by
  induction records using List.reverseRecOn with
  | nil => exact ⟨rfl, rfl, rfl, fun k => by simp [start], nofun, nofun⟩
  | append_singleton records r ih =>
    rw [List.foldl_append]
    exact ih.record r

theorem mem_metaTimes {records : List KeyRecord} {t : Int} : t ∈ metaTimes records ↔ ∃ k, .keymeta k t ∈ records := by
  rw [metaTimes, List.mem_filterMap]
  constructor
  · rintro ⟨r, hr, ht⟩
    cases r with
    | keymeta k u => exact ⟨k, Option.some.inj ht ▸ hr⟩
    | _ => exact nomatch ht
  · rintro ⟨k, hk⟩
    exact ⟨_, hk, rfl⟩

/-- Every key has a record with a time that is known. -/
theorem Read.whole {records : List KeyRecord} {wss : WalletScanState} (h : Read records w wss)
    (hzero : 0 ∉ metaTimes records) (hmeta : ∀ r ∈ records, ∀ k ∈ keyOf r, ∃ t, .keymeta k t ∈ records) {k : CKeyID}
    (hk : k ∈ w.keys) : ∃ t, w.mapKeyMetadata.lookup k = some t ∧ t ≠ 0 ∧ w.nTimeFirstKey ≤ t := by
  obtain ⟨r, hr, hkey⟩ := (h.keys k).mp hk
  obtain ⟨u, hu⟩ := hmeta r hr k hkey
  obtain ⟨t, hlookup, ht⟩ := h.known k u hu
  have hmem : t ∈ metaTimes records := mem_metaTimes.mpr ⟨k, ht⟩
  obtain ⟨-, -, hleast⟩ := minima_spec (.inr hzero)
  rw [sinceUnknown_eq hzero] at hleast
  exact ⟨t, hlookup, fun hnone => hzero (hnone ▸ hmem), h.first ▸ hleast t hmem⟩

/-- Where no time is negative, a birthday of 0 or 1 hides nothing. -/
theorem Read.small {records : List KeyRecord} {wss : WalletScanState} (h : Read records w wss)
    (htimes : ∀ r ∈ records, ∀ t ∈ timeOf r, 0 ≤ t) {first : Int} (hfirst : first = 0 ∨ first = 1) :
    Early { w with nTimeFirstKey := first } ∧ Unlimited { w with nTimeFirstKey := first } := by
  refine ⟨hfirst.imp id fun hone k t hknown => ?_, fun _ => hfirst⟩
  obtain ⟨r, hr, ht⟩ := h.time k t hknown.2.1
  have hnonneg := htimes r hr t ht
  have hne := hknown.2.2
  change first ≤ t
  omega

/-- **What can be loaded hides no key.** -/
theorem loadWallet_early {file records : List KeyRecord} (h : Loadable records) :
    (loadWallet file records).Early ∧ (loadWallet file records).Unlimited := by
  have hread := read_all file records
  rw [loadWallet]
  generalize records.foldl readKeyValue (start file, ⟨0, 0, 0⟩) = after at hread
  obtain ⟨w, wss⟩ := after
  simp only at hread ⊢
  rw [hread.count, hread.metas]
  rcases h with ⟨hcount, hzero, hmeta⟩ | ⟨htimes, hreliable⟩
  · rw [if_neg (not_not_intro hcount)]
    refine ⟨.inr fun k t hknown => ?_, fun ⟨k, hk, hnone⟩ => ?_⟩
    · obtain ⟨u, hlookup, -, hle⟩ := hread.whole hzero hmeta hknown.1
      rw [hknown.2.1] at hlookup
      exact Option.some.inj hlookup ▸ hle
    · obtain ⟨u, hlookup, hne, -⟩ := hread.whole hzero hmeta hk
      rw [hlookup] at hnone
      rcases hnone with hnone | hnone
      · exact nomatch hnone
      · exact absurd (Option.some.inj hnone) hne
  · by_cases hcount : records.countP isKey = (metaTimes records).length
    · rw [if_neg (not_not_intro hcount)]
      have hmetas : ∀ t ∈ metaTimes records, 0 ≤ t := fun t ht => by
        obtain ⟨k, hk⟩ := mem_metaTimes.mp ht
        exact htimes _ hk t rfl
      obtain ⟨hnonneg, hnone, hleast⟩ := minima_spec (.inl hmetas)
      refine @Read.small w _ _ hread htimes w.nTimeFirstKey ?_
      rw [hread.first]
      rcases hreliable with hdiffer | hempty | hone
      · exact absurd hcount hdiffer
      · exact .inl (hnone.mpr hempty)
      · have hle := hleast 1 hone
        have hge := hnonneg hmetas
        omega
    · rw [if_pos hcount]
      exact hread.small htimes (.inr rfl)

/-! ## Runs that hide no key -/

theorem Early.run {op : Op} (h : w.Early) (hop : Harmless op w) : (run op w).Early := by
  cases op with
  | generate k t => exact h.generateNewKey hop
  | importKey k => exact h.importprivkey hop
  | importWallet lines bestTime => exact h.importwallet hop
  | stealth k => exact h.addKey hop
  | encrypt => exact h.encryptWallet
  | writePool n k t => exact h
  | erasePool n => exact h
  | load records => exact (loadWallet_early hop.2).1

/-- A block that is skipped is more than two hours older than the birthday. -/
theorem older_of_skipped {B : Type} {nTimeFirstKey : Int} {nTime : B → UInt32} {chain : List B} {pindex : B}
    (hmem : pindex ∈ chain) (hskip : pindex ∉ scanForWalletTransactions nTimeFirstKey nTime chain) :
    nTimeFirstKey ≠ 0 ∧ (nTime pindex).toNat < nTimeFirstKey - 7200 := by
  induction chain with
  | nil => exact nomatch hmem
  | cons first rest ih =>
    rw [scanForWalletTransactions] at hskip
    rcases List.mem_cons.mp hmem with rfl | hrest
    · by_cases hold : nTimeFirstKey ≠ 0 ∧ (nTime pindex).toNat < nTimeFirstKey - 7200
      · exact hold
      · rw [if_neg hold] at hskip
        exact absurd List.mem_cons_self hskip
    · split at hskip
      next => exact ih hrest hskip
      next => exact ih hrest fun hread => hskip (List.mem_cons_of_mem _ hread)

/-- The birthday of a wallet does what it is for. -/
structure HidesNone (w : KeyWallet) : Prop where
  early : w.Early
  skips : ∀ {B : Type} (nTime : B → UInt32) (chain : List B), ∀ pindex ∈ chain,
    pindex ∉ scanForWalletTransactions w.nTimeFirstKey nTime chain →
      ∀ k t, w.Known k t → (nTime pindex).toNat + 7200 < t

theorem Early.hidesNone (h : w.Early) : w.HidesNone where
  early := h
  skips nTime chain pindex hmem hskip k t hknown := by
    obtain ⟨hlimit, hold⟩ := older_of_skipped hmem hskip
    have := h.resolve_left hlimit k t hknown
    omega

/-- **The birthday of a wallet hides no payment**, in a run whose calls are
harmless: in every state it is 0 or no later than any key of known time, so that
a scan skips only blocks that are older by more than two hours; and right after
the wallet was loaded it is 0 or 1 if some key has no known time. -/
theorem birthday_hides_none (file : List KeyRecord) (ops : List Op) (h : Meets run Harmless ops (start file))
    (n : Nat) :
    (play run (ops.take n) (start file)).HidesNone ∧
      ∀ before records, ops.take n = before ++ [.load records] → (play run (ops.take n) (start file)).Unlimited := by
  have hprefix : Meets run Harmless (ops.take n) (start file) := by
    rw [← List.take_append_drop n ops] at h
    exact (meets_append.mp h).1
  have hearly : (play run (ops.take n) (start file)).Early :=
    Meets.keeps (fun op w (hw : w.Early) hop => hw.run hop) (.inl rfl) hprefix
  refine ⟨hearly.hidesNone, fun before records heq => ?_⟩
  rw [heq] at hprefix ⊢
  rw [play_append]
  exact (loadWallet_early (meets_append.mp hprefix).2.1.2).2

namespace Sample

def key (n : UInt8) : CKeyID := List.Vector.replicate 20 n

/-- A key is made, a stealth payment arrives, and another key is made. -/
def ops : List Op := [.generate (key 1) 1000, .stealth (key 2), .generate (key 3) 3000]

/-- What is in the file then, in an order of the cursor. -/
def records : List KeyRecord :=
  [.key (key 1), .key (key 2), .key (key 3), .keymeta (key 1) 1000, .keymeta (key 2) 0, .keymeta (key 3) 3000]

/-- The same, with the unknown time last. -/
def records' : List KeyRecord :=
  [.key (key 1), .key (key 2), .key (key 3), .keymeta (key 1) 1000, .keymeta (key 3) 3000, .keymeta (key 2) 0]

end Sample

/-- Read in the other order, these records hide nothing. -/
theorem birthday_hides_none_sample : HidesNone (play run (Sample.ops ++ [.load Sample.records']) (start [])) := by
  have hmeets : Meets run Harmless (Sample.ops ++ [.load Sample.records']) (start []) := by
    refine meets_append.mpr ⟨⟨.inr (.inr nofun), .inr (.inl rfl), .inl (by decide +kernel), trivial⟩,
      ⟨?_, .inr ⟨?_, ?_⟩⟩, trivial⟩
    · decide +kernel
    · decide +kernel
    · exact .inr (.inl (by decide +kernel))
  exact (birthday_hides_none [] (Sample.ops ++ [.load Sample.records']) hmeets 4).1

/-- **An unknown time that is not the last one read hides the older keys**: the
wallet is loaded with the birthday 3000, though it has a key of the time 1000. -/
theorem not_birthday_hides_none : ¬ ∀ ops : List Op,
    Meets run (fun op w => ∀ records, op = .load records → records.Perm w.file) ops (start []) →
      (play run ops (start [])).Early := by
  intro hall
  have hmeets : Meets run (fun op w => ∀ records, op = .load records → records.Perm w.file)
      (Sample.ops ++ [.load Sample.records]) (start []) := by
    refine meets_append.mpr ⟨⟨nofun, nofun, nofun, trivial⟩, ?_, trivial⟩
    rintro records heq
    cases heq
    decide +kernel
  have hfirst : (play run (Sample.ops ++ [.load Sample.records]) (start [])).nTimeFirstKey = 3000 := by decide +kernel
  have hknown : (play run (Sample.ops ++ [.load Sample.records]) (start [])).Known (Sample.key 1) 1000 := by
    unfold Known
    decide +kernel
  rcases hall _ hmeets with hzero | hle
  · exact absurd (hfirst.symm.trans hzero) (by decide)
  · have := hle _ _ hknown
    rw [hfirst] at this
    omega

end KeyWallet

end Pinkcoin
