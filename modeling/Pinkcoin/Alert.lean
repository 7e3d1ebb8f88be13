/-
Alerts: signed messages to every node, kept in `mapAlerts` until they expire
or a later one cancels them. The alert with the largest number is the last
word, sent when the signing key is known to be compromised. `ProcessAlert`
lets a newcomer remove what it cancels before it looks whether the newcomer
itself is cancelled, and any alert may name the last one.
-/
import Pinkcoin.Wire
import Pinkcoin.Lib.Runs

namespace Pinkcoin

open StateError (endState rejectIf)
open CDataStream (read)

/-! ## Alerts -/

/-- `std::numeric_limits<int>::max()`. -/
def maxInt : Int := 2 ^ 31 - 1

/-- The fields of an alert. Of the two sets only the members are asked for. -/
structure CUnsignedAlert where
  nVersion : Int
  nRelayUntil : Int
  nExpiration : Int
  nID : Int
  nCancel : Int
  setCancel : List Int
  nMinVer : Int
  nMaxVer : Int
  setSubVer : List (List UInt8)
  nPriority : Int
  strComment : List UInt8
  strStatusBar : List UInt8
  strReserved : List UInt8
  deriving DecidableEq

/-- `Unserialize` of a string: one read of its bytes. -/
def unserializeString : StreamM (List UInt8) := do
  let nSize ← readCompactSize
  read nSize

def CUnsignedAlert.serialize (alert : CUnsignedAlert) : List UInt8 :=
  writeInt 4 alert.nVersion ++ (writeInt 8 alert.nRelayUntil ++ (writeInt 8 alert.nExpiration ++ (writeInt 4 alert.nID ++
    (writeInt 4 alert.nCancel ++ (serializeVector (writeInt 4) alert.setCancel ++ (writeInt 4 alert.nMinVer ++
    (writeInt 4 alert.nMaxVer ++ (serializeVector serializeBytes alert.setSubVer ++ (writeInt 4 alert.nPriority ++
    (serializeBytes alert.strComment ++ (serializeBytes alert.strStatusBar ++ serializeBytes alert.strReserved)))))))))))

def CUnsignedAlert.unserialize : StreamM CUnsignedAlert := do
  let nVersion ← readInt 4
  let nRelayUntil ← readInt 8
  let nExpiration ← readInt 8
  let nID ← readInt 4
  let nCancel ← readInt 4
  let setCancel ← unserializeVector (readInt 4)
  let nMinVer ← readInt 4
  let nMaxVer ← readInt 4
  let setSubVer ← unserializeVector unserializeString
  let nPriority ← readInt 4
  let strComment ← unserializeString
  let strStatusBar ← unserializeString
  let strReserved ← unserializeString
  pure ⟨nVersion, nRelayUntil, nExpiration, nID, nCancel, setCancel, nMinVer, nMaxVer, setSubVer, nPriority,
    strComment, strStatusBar, strReserved⟩

/-- An alert as it is sent: the bytes of its fields, and a signature. -/
structure CAlert extends CUnsignedAlert where
  vchMsg : List UInt8
  vchSig : List UInt8
  deriving DecidableEq

/-- The hash function, and whether the alert key verifies a signature. -/
structure AlertKey where
  Hash : List UInt8 → Uint256
  Verify : Uint256 → List UInt8 → Bool

namespace CAlert

/-- `GetHash`. -/
def getHash (K : AlertKey) (alert : CAlert) : Uint256 := K.Hash alert.vchMsg

/-- `IsInEffect`, at the adjusted time `now`. -/
def isInEffect (now : Int) (alert : CAlert) : Prop := now < alert.nExpiration

instance (now : Int) (alert : CAlert) : Decidable (alert.isInEffect now) := inferInstanceAs (Decidable (_ < _))

/-- `Cancels`. -/
def cancels (now : Int) (self alert : CAlert) : Prop :=
  self.isInEffect now ∧ (alert.nID ≤ self.nCancel ∨ alert.nID ∈ self.setCancel)

instance (now : Int) (self alert : CAlert) : Decidable (self.cancels now alert) := inferInstanceAs (Decidable (_ ∧ _))

def finalStatus : List UInt8 :=
  "URGENT: Alert key compromised, upgrade required".toList.map fun c => UInt8.ofNat c.toNat

/-- The only form in which the alert with the largest number is accepted. -/
def finalForm (alert : CAlert) : Prop :=
  alert.nExpiration = maxInt ∧ alert.nCancel = maxInt - 1 ∧ alert.nMinVer = 0 ∧ alert.nMaxVer = maxInt ∧
    alert.setSubVer = [] ∧ alert.nPriority = maxInt ∧ alert.strStatusBar = finalStatus

instance (alert : CAlert) : Decidable alert.finalForm := inferInstanceAs (Decidable (_ ∧ _))

end CAlert

/-! ## ProcessAlert -/

/-- The entries of a map that pass a test. -/
def Map.retain {K V : Type} (m : Map K V) (keep : V → Bool) : Map K V :=
  ⟨m.entries.filter fun e => keep e.2, List.NodupKeys.sublist List.filter_sublist m.nodupKeys⟩

theorem Map.mem_retain {K V : Type} {m : Map K V} {keep : V → Bool} {e : Sigma fun _ : K => V} :
    e ∈ (m.retain keep).entries ↔ e ∈ m.entries ∧ keep e.2 := List.mem_filter

/-- A message `alert`, and the adjusted time at which it is processed. -/
structure Arrival where
  now : Int
  vchMsg : List UInt8
  vchSig : List UInt8
  deriving DecidableEq

abbrev MapAlerts := Map Uint256 CAlert

namespace Arrival

variable (K : AlertKey)

/-- `CheckSignature`: after the signature the fields are read off the signed
bytes, which throws where they end early. -/
def checkSignature (c : Arrival) : Except String (Option CAlert) :=
  if K.Verify (K.Hash c.vchMsg) c.vchSig then
    match CUnsignedAlert.unserialize ⟨c.vchMsg, 0⟩ with
    | .ok fields _ => .ok (some { fields with vchMsg := c.vchMsg, vchSig := c.vchSig })
    | .error what _ => .error what
  else .ok none

/-- `ProcessAlert`, without the notices it sends. -/
def processAlert (c : Arrival) : EStateM String MapAlerts Bool := fun mapAlerts =>
  match c.checkSignature K with
  | .error what => .error what mapAlerts
  | .ok none => .ok false mapAlerts
  | .ok (some alert) =>
    if ¬ alert.isInEffect c.now then .ok false mapAlerts
    else if alert.nID = maxInt ∧ ¬ alert.finalForm then .ok false mapAlerts
    else
      -- cancel previous alerts, and drop the expired ones
      let mapAlerts := mapAlerts.retain fun old => ¬ alert.cancels c.now old ∧ old.isInEffect c.now
      -- check if this alert has been cancelled
      if ∃ item ∈ mapAlerts.entries, item.2.cancels c.now alert then .ok false mapAlerts
      else if (mapAlerts.lookup (alert.getHash K)).isSome then .ok true mapAlerts
      else .ok true (mapAlerts.insert (alert.getHash K) alert)

/-- The alert of a message that passes the checks made before `mapAlerts` is
looked at: signed, in effect, and the last word only in its one form. -/
def admitted (c : Arrival) : Option CAlert :=
  match c.checkSignature K with
  | .ok (some alert) => if alert.isInEffect c.now ∧ (alert.nID = maxInt → alert.finalForm) then some alert else none
  | _ => none

variable {K} {c f : Arrival} {a b : CAlert} {m : MapAlerts} {h : Uint256}

/-- What the loop over `mapAlerts` leaves when `a` comes in. -/
def cleared (c : Arrival) (a : CAlert) (m : MapAlerts) : MapAlerts :=
  m.retain fun old => ¬ a.cancels c.now old ∧ old.isInEffect c.now

theorem mem_cleared {e : Sigma fun _ : Uint256 => CAlert} :
    e ∈ (c.cleared a m).entries ↔ e ∈ m.entries ∧ ¬ a.cancels c.now e.2 ∧ e.2.isInEffect c.now := by
  rw [cleared, Map.mem_retain]
  simp

/-- A message that is not admitted changes nothing and is not accepted. -/
theorem processAlert_of_not_admitted (hnone : c.admitted K = none) :
    endState (c.processAlert K m) = m ∧ ∀ m', c.processAlert K m ≠ .ok true m' := by
  unfold admitted at hnone
  unfold processAlert
  cases hcheck : c.checkSignature K with
  | error what => simp
  | ok r =>
    cases r with
    | none => simp
    | some alert =>
      simp only [hcheck, ite_eq_right_iff, reduceCtorEq, imp_false] at hnone
      by_cases heffect : alert.isInEffect c.now
      · have hform : alert.nID = maxInt ∧ ¬ alert.finalForm := by
          by_contra hcon
          exact hnone ⟨heffect, fun hid => by by_contra hnot; exact hcon ⟨hid, hnot⟩⟩
        simp [heffect, hform]
      · simp [heffect]

/-- An admitted message clears the map, and then is cancelled or kept. -/
theorem processAlert_of_admitted (hsome : c.admitted K = some a) :
    c.processAlert K m =
      if ∃ item ∈ (c.cleared a m).entries, item.2.cancels c.now a then .ok false (c.cleared a m)
      else if ((c.cleared a m).lookup (a.getHash K)).isSome then .ok true (c.cleared a m)
      else .ok true ((c.cleared a m).insert (a.getHash K) a) := by
  unfold admitted at hsome
  cases hcheck : c.checkSignature K with
  | error what => simp [hcheck] at hsome
  | ok r =>
    cases r with
    | none => simp [hcheck] at hsome
    | some alert =>
      simp only [hcheck, Option.ite_none_right_eq_some, Option.some.injEq] at hsome
      obtain ⟨⟨heffect, hform⟩, rfl⟩ := hsome
      have hpass : ¬ (alert.nID = maxInt ∧ ¬ alert.finalForm) := fun hcon => hcon.2 (hform hcon.1)
      rw [processAlert, hcheck]
      simp only [heffect, not_true_eq_false, if_false, hpass]
      rfl

end Arrival

namespace Arrival

variable {K : AlertKey} {c f : Arrival} {a g : CAlert} {m : MapAlerts}

/-! ## What an admitted alert is -/

/-- The fields are those the signed bytes read as. -/
def ReadsBack (a : CAlert) : Prop := ∃ s, CUnsignedAlert.unserialize ⟨a.vchMsg, 0⟩ = .ok a.toCUnsignedAlert s

/-- A message that was admitted: what it reads as, and the checks it passed. -/
structure Admits (K : AlertKey) (c : Arrival) (a : CAlert) : Prop where
  vchMsg : a.vchMsg = c.vchMsg
  reads : ReadsBack a
  inEffect : a.isInEffect c.now
  form : a.nID = maxInt → a.finalForm

theorem admits_of_admitted (hsome : c.admitted K = some a) : c.Admits K a := by
  unfold admitted checkSignature at hsome
  by_cases hverify : K.Verify (K.Hash c.vchMsg) c.vchSig
  · simp only [hverify, if_true] at hsome
    cases hread : CUnsignedAlert.unserialize ⟨c.vchMsg, 0⟩ with
    | error what s => simp [hread] at hsome
    | ok fields s =>
      simp only [hread, Option.ite_none_right_eq_some, Option.some.injEq] at hsome
      obtain ⟨⟨heffect, hform⟩, rfl⟩ := hsome
      exact ⟨rfl, ⟨s, hread⟩, heffect, hform⟩
  · simp [hverify] at hsome

theorem ReadsBack.fields (ha : ReadsBack a) (hg : ReadsBack g) (h : a.vchMsg = g.vchMsg) :
    a.toCUnsignedAlert = g.toCUnsignedAlert := by
  obtain ⟨s, hs⟩ := ha
  obtain ⟨t, ht⟩ := hg
  rw [h] at hs
  exact (EStateM.Result.ok.inj (hs.symm.trans ht)).1

theorem readInt_le {s s' : CDataStream} {n : Int} (h : readInt 4 s = .ok n s') : n ≤ maxInt := by
  unfold readInt at h
  obtain ⟨b, t, -, hn⟩ := StateError.bind_ok.mp h
  obtain ⟨rfl, -⟩ := StateError.pure_ok.mp hn
  have hlt := Int.bmod_lt (x := (CScript.leNat b : Int)) (m := 256 ^ 4) (by decide)
  have hmax : ((256 ^ 4 + 1 : Nat) : Int) / 2 = maxInt + 1 := by decide
  exact Int.lt_add_one_iff.mp (hmax ▸ hlt)

theorem ReadsBack.nID_le (ha : ReadsBack a) : a.nID ≤ maxInt := by
  obtain ⟨s, hs⟩ := ha
  unfold CUnsignedAlert.unserialize at hs
  obtain ⟨_, _, -, hs⟩ := StateError.bind_ok.mp hs
  obtain ⟨_, _, -, hs⟩ := StateError.bind_ok.mp hs
  obtain ⟨_, _, -, hs⟩ := StateError.bind_ok.mp hs
  obtain ⟨nID, _, hid, hs⟩ := StateError.bind_ok.mp hs
  have hfield : a.nID = nID := by
    simp only [StateError.bind_ok, StateError.pure_ok] at hs
    obtain ⟨_, _, -, _, _, -, _, _, -, _, _, -, _, _, -, _, _, -, _, _, -, _, _, -, _, _, -, hfields, -⟩ := hs
    exact congrArg CUnsignedAlert.nID hfields.symm
  rw [hfield]
  exact readInt_le hid

end Arrival

/-! ## Runs -/

/-- The alerts that are kept, and the messages that were accepted. -/
structure AlertState where
  mapAlerts : MapAlerts
  accepted : List Arrival

/-- A node without alerts. -/
def AlertState.empty : AlertState := ⟨∅, []⟩

/-- A message `alert` comes in. -/
def Arrival.receive (K : AlertKey) (c : Arrival) (s : AlertState) : AlertState :=
  match c.processAlert K s.mapAlerts with
  | .ok true mapAlerts => ⟨mapAlerts, s.accepted ++ [c]⟩
  | .ok false mapAlerts | .error _ mapAlerts => { s with mapAlerts }

/-- The message is the last word, in its one form. -/
def Arrival.Final (K : AlertKey) (c : Arrival) : Prop := ∃ a ∈ c.admitted K, a.nID = maxInt ∧ a.finalForm

/-- The alert of the message `f` is kept, and no message was accepted that
is not the last word itself. -/
structure Stays (K : AlertKey) (f : Arrival) (s : AlertState) : Prop where
  kept : ∃ g ∈ s.mapAlerts.lookup (K.Hash f.vchMsg), g.vchMsg = f.vchMsg
  last : ∀ c ∈ s.accepted, c.Final K

/-- A message that takes the last word away is admitted when that one has
expired, or cancels it. -/
def Arrival.Harmless (K : AlertKey) (f c : Arrival) : Prop :=
  ∀ a ∈ c.admitted K, ∀ g ∈ f.admitted K, g.isInEffect c.now ∧ (a.cancels c.now g → c.vchMsg = f.vchMsg)

/-- Each alert is kept under the hash of its bytes, with the fields they
read as. -/
structure Filed (K : AlertKey) (m : MapAlerts) : Prop where
  key : ∀ e ∈ m.entries, e.1 = e.2.getHash K
  reads : ∀ e ∈ m.entries, Arrival.ReadsBack e.2

/-- The last word `g` is kept, and no other alert that is kept cancels it. -/
structure Guarded (K : AlertKey) (f : Arrival) (g : CAlert) (s : AlertState) : Prop where
  stays : Stays K f s
  filed : Filed K s.mapAlerts
  others : ∀ e ∈ s.mapAlerts.entries, e.2.vchMsg ≠ f.vchMsg → ¬ (g.nID ≤ e.2.nCancel ∨ g.nID ∈ e.2.setCancel)

section Runs

variable {K : AlertKey} {c f : Arrival} {a g : CAlert} {m : MapAlerts} {s : AlertState}

open Arrival

theorem receive_of_not_admitted (hnone : c.admitted K = none) : c.receive K s = s := by
  obtain ⟨hend, hnot⟩ := processAlert_of_not_admitted (m := s.mapAlerts) hnone
  unfold receive
  cases hrun : c.processAlert K s.mapAlerts with
  | error what m => simp_all
  | ok b m =>
    cases b with
    | true => exact absurd hrun (hnot m)
    | false => simp_all

/-- What an admitted message leads to: it is cancelled, it is known under its
hash, or it is kept. -/
theorem receive_cases (hsome : c.admitted K = some a) :
    ((∃ item ∈ (c.cleared a s.mapAlerts).entries, item.2.cancels c.now a) ∧
      c.receive K s = ⟨c.cleared a s.mapAlerts, s.accepted⟩) ∨
    ((∀ item ∈ (c.cleared a s.mapAlerts).entries, ¬ item.2.cancels c.now a) ∧
      ((∃ old ∈ (c.cleared a s.mapAlerts).lookup (a.getHash K),
          c.receive K s = ⟨c.cleared a s.mapAlerts, s.accepted ++ [c]⟩) ∨
        (c.cleared a s.mapAlerts).lookup (a.getHash K) = none ∧
          c.receive K s = ⟨(c.cleared a s.mapAlerts).insert (a.getHash K) a, s.accepted ++ [c]⟩)) := by
  unfold receive
  rw [processAlert_of_admitted hsome]
  by_cases hcancelled : ∃ item ∈ (c.cleared a s.mapAlerts).entries, item.2.cancels c.now a
  · rw [if_pos hcancelled]
    exact .inl ⟨hcancelled, rfl⟩
  · rw [if_neg hcancelled]
    have hfree : ∀ item ∈ (c.cleared a s.mapAlerts).entries, ¬ item.2.cancels c.now a := fun item hitem hc =>
      hcancelled ⟨item, hitem, hc⟩
    cases hold : (c.cleared a s.mapAlerts).lookup (a.getHash K) with
    | some old => exact .inr ⟨hfree, .inl ⟨old, rfl, rfl⟩⟩
    | none => exact .inr ⟨hfree, .inr ⟨rfl, rfl⟩⟩

/-- What is kept after an admitted message: alerts that were not cleared, and
the message's own. -/
theorem mem_receive (hsome : c.admitted K = some a) {e : Sigma fun _ : Uint256 => CAlert}
    (he : e ∈ (c.receive K s).mapAlerts.entries) :
    e ∈ (c.cleared a s.mapAlerts).entries ∨
      e = ⟨a.getHash K, a⟩ ∧ ∀ item ∈ (c.cleared a s.mapAlerts).entries, ¬ item.2.cancels c.now a := by
  rcases receive_cases (s := s) hsome with ⟨-, hrun⟩ | ⟨hfree, ⟨old, -, hrun⟩ | ⟨hnew, hrun⟩⟩
  · rw [hrun] at he
    exact .inl he
  · rw [hrun] at he
    exact .inl he
  · rw [hrun] at he
    rw [AList.entries_insert_of_notMem (AList.lookup_eq_none.mp hnew)] at he
    rcases List.mem_cons.mp he with rfl | he
    · exact .inr ⟨rfl, hfree⟩
    · exact .inl he

theorem filed_empty : Filed K (∅ : MapAlerts) := ⟨fun _ h => (nomatch h), fun _ h => (nomatch h)⟩

theorem filed_cleared (h : Filed K m) : Filed K (c.cleared a m) :=
  ⟨fun e he => h.key e (mem_cleared.mp he).1, fun e he => h.reads e (mem_cleared.mp he).1⟩

theorem filed_receive (h : Filed K s.mapAlerts) : Filed K (c.receive K s).mapAlerts := by
  cases hadm : c.admitted K with
  | none => rwa [receive_of_not_admitted hadm]
  | some a =>
    have hclear := filed_cleared (c := c) (a := a) h
    constructor
    · intro e he
      rcases mem_receive hadm he with he | ⟨rfl, -⟩
      · exact hclear.key e he
      · rfl
    · intro e he
      rcases mem_receive hadm he with he | ⟨rfl, -⟩
      · exact hclear.reads e he
      · exact (admits_of_admitted hadm).reads

/-! ## The last word after one message -/

/-- Two alerts with the same fields. -/
structure Alike (e g : CAlert) : Prop where
  fields : e.toCUnsignedAlert = g.toCUnsignedAlert

theorem Alike.inEffect {e : CAlert} (h : Alike e g) (now : Int) : e.isInEffect now ↔ g.isInEffect now := by
  unfold CAlert.isInEffect
  rw [h.fields]

theorem Alike.nID {e : CAlert} (h : Alike e g) : e.nID = g.nID := by rw [h.fields]

theorem Alike.cancels {e : CAlert} (h : Alike e g) (now : Int) (a : CAlert) : a.cancels now e ↔ a.cancels now g := by
  unfold CAlert.cancels
  rw [h.nID]

theorem Alike.cancels_self {e : CAlert} (h : Alike e g) (now : Int) (a : CAlert) : e.cancels now a ↔ g.cancels now a := by
  unfold CAlert.cancels
  rw [h.inEffect, h.fields]

/-- What has the bytes of the last word has its fields. -/
theorem alike_of_vchMsg (hf : f.admitted K = some g) {e : CAlert} (he : ReadsBack e) (hmsg : e.vchMsg = f.vchMsg) : Alike e g := by
  have hg := admits_of_admitted hf
  exact ⟨he.fields hg.reads (hmsg.trans hg.vchMsg.symm)⟩

theorem Guarded.entry (h : Guarded K f g s) :
    ∃ e, ⟨K.Hash f.vchMsg, e⟩ ∈ s.mapAlerts.entries ∧ e.vchMsg = f.vchMsg := by
  obtain ⟨e, he, hmsg⟩ := h.stays.kept
  exact ⟨e, AList.mem_lookup_iff.mp he, hmsg⟩

/-- **If the last word is still there, the message was harmless.** -/
theorem harmless_of_stays (hf : f.admitted K = some g) (hg : Guarded K f g s) (h : Stays K f (c.receive K s)) :
    f.Harmless K c := by
  intro a ha g' hg'
  obtain rfl : g = g' := Option.some.inj (hf.symm.trans hg')
  obtain ⟨e, he, hmsg⟩ := h.kept
  have hreads := (filed_receive (c := c) hg.filed).reads _ (AList.mem_lookup_iff.mp he)
  have halike : Alike e g := alike_of_vchMsg hf hreads hmsg
  rcases mem_receive ha (AList.mem_lookup_iff.mp he) with hclear | ⟨hown, -⟩
  · obtain ⟨-, hnot, heffect⟩ := mem_cleared.mp hclear
    exact ⟨(halike.inEffect _).mp heffect, fun hcancels => absurd ((halike.cancels _ _).mpr hcancels) hnot⟩
  · have hadm := admits_of_admitted ha
    obtain rfl : e = a := eq_of_heq (Sigma.mk.inj hown).2
    exact ⟨(halike.inEffect _).mp hadm.inEffect, fun _ => hadm.vchMsg.symm.trans hmsg⟩

/-- The other alerts still do not cancel the last word: the newcomer does
not, unless it is the last word. -/
theorem others_receive (hf : f.admitted K = some g) (hg : Guarded K f g s) (hharm : f.Harmless K c) (ha : c.admitted K = some a) :
    ∀ e ∈ (c.receive K s).mapAlerts.entries, e.2.vchMsg ≠ f.vchMsg →
      ¬ (g.nID ≤ e.2.nCancel ∨ g.nID ∈ e.2.setCancel) := by
  have hadm := admits_of_admitted ha
  intro e he hne
  rcases mem_receive ha he with hclear | ⟨rfl, -⟩
  · exact hg.others e (mem_cleared.mp hclear).1 hne
  · intro hcancels
    exact hne (hadm.vchMsg.trans ((hharm a ha g hf).2 ⟨hadm.inEffect, hcancels⟩))

/-- The last word comes in again and cancels its own entry: nothing that is
left cancels it, so it is put back. -/
theorem stays_of_cancels (hf : f.admitted K = some g) (hid : g.nID = maxInt) (hg : Guarded K f g s)
    (ha : c.admitted K = some a) (hcancels : a.cancels c.now g) (hmsg : c.vchMsg = f.vchMsg) : Stays K f (c.receive K s) := by
  have hadm := admits_of_admitted ha
  have hsame : a.vchMsg = f.vchMsg := hadm.vchMsg.trans hmsg
  have halike : Alike a g := alike_of_vchMsg hf hadm.reads hsame
  have hkey : a.getHash K = K.Hash f.vchMsg := by rw [CAlert.getHash, hsame]
  have hfree : ∀ item ∈ (c.cleared a s.mapAlerts).entries, ¬ item.2.cancels c.now a := by
    intro item hitem hcon
    obtain ⟨hmem, hnot, -⟩ := mem_cleared.mp hitem
    by_cases hitemMsg : item.2.vchMsg = f.vchMsg
    · have hitemAlike := alike_of_vchMsg hf (hg.filed.reads item hmem) hitemMsg
      exact hnot ((hitemAlike.cancels _ _).mpr hcancels)
    · obtain ⟨-, hnames⟩ := hcon
      rw [halike.nID] at hnames
      exact hg.others item hmem hitemMsg hnames
  have hlast : c.Final K := ⟨a, ha, halike.nID.trans hid, hadm.form (halike.nID.trans hid)⟩
  rcases receive_cases (s := s) ha with ⟨⟨item, hitem, hcon⟩, -⟩ | ⟨-, ⟨old, hold, hrun⟩ | ⟨-, hrun⟩⟩
  · exact absurd hcon (hfree item hitem)
  · -- the old entry was cleared, and there is one entry for a hash
    obtain ⟨hmem, hnot, -⟩ := mem_cleared.mp (AList.mem_lookup_iff.mp hold)
    obtain ⟨e, he, hemsg⟩ := hg.entry
    rw [hkey] at hmem
    have heq : old = e := Option.some.inj ((AList.mem_lookup_iff.mpr hmem).symm.trans (AList.mem_lookup_iff.mpr he))
    have heAlike := alike_of_vchMsg hf (hg.filed.reads _ he) hemsg
    rw [heq] at hnot
    exact absurd ((heAlike.cancels _ _).mpr hcancels) hnot
  · rw [hrun]
    refine ⟨⟨a, by rw [hkey]; exact AList.lookup_insert _, hsame⟩, fun d hd => ?_⟩
    rcases List.mem_append.mp hd with hd | hd
    · exact hg.stays.last d hd
    · rwa [List.mem_singleton.mp hd]

/-- A message that does not cancel the last word is cancelled by it, or is a
last word itself. -/
theorem stays_of_not_cancels (hf : f.admitted K = some g) (hid : g.nID = maxInt) (hg : Guarded K f g s)
    (ha : c.admitted K = some a) (heffect : g.isInEffect c.now) (hnot : ¬ a.cancels c.now g) : Stays K f (c.receive K s) := by
  have hadm := admits_of_admitted ha
  obtain ⟨e, he, hemsg⟩ := hg.entry
  have halike := alike_of_vchMsg hf (hg.filed.reads _ he) hemsg
  have hclear : ⟨K.Hash f.vchMsg, e⟩ ∈ (c.cleared a s.mapAlerts).entries := mem_cleared.mpr
    ⟨he, fun hcon => hnot ((halike.cancels _ _).mp hcon), (halike.inEffect _).mpr heffect⟩
  have hlookup : (c.cleared a s.mapAlerts).lookup (K.Hash f.vchMsg) = some e := AList.mem_lookup_iff.mpr hclear
  have hlast : (∀ item ∈ (c.cleared a s.mapAlerts).entries, ¬ item.2.cancels c.now a) → c.Final K := by
    intro hfree
    have hmax : a.nID = maxInt := by
      by_contra hne
      have hle := hadm.reads.nID_le
      have hcancel := ((admits_of_admitted hf).form hid).2.1
      have hnames : a.nID ≤ g.nCancel := by omega
      exact hfree _ hclear ((halike.cancels_self _ _).mpr ⟨heffect, .inl hnames⟩)
    exact ⟨a, ha, hmax, hadm.form hmax⟩
  have hlog : (∀ item ∈ (c.cleared a s.mapAlerts).entries, ¬ item.2.cancels c.now a) →
      ∀ d ∈ s.accepted ++ [c], d.Final K := fun hfree d hd => by
    rcases List.mem_append.mp hd with hd | hd
    · exact hg.stays.last d hd
    · rw [List.mem_singleton.mp hd]
      exact hlast hfree
  rcases receive_cases (s := s) ha with ⟨-, hrun⟩ | ⟨hfree, ⟨-, -, hrun⟩ | ⟨hnew, hrun⟩⟩
  · rw [hrun]
    exact ⟨⟨e, hlookup, hemsg⟩, hg.stays.last⟩
  · rw [hrun]
    exact ⟨⟨e, hlookup, hemsg⟩, hlog hfree⟩
  · rw [hrun]
    have hne : K.Hash f.vchMsg ≠ a.getHash K := fun heq => by
      rw [← heq, hlookup] at hnew
      exact nomatch hnew
    exact ⟨⟨e, (AList.lookup_insert_ne hne).trans hlookup, hemsg⟩, hlog hfree⟩

theorem guarded_receive (hf : f.admitted K = some g) (hid : g.nID = maxInt) (hg : Guarded K f g s) (hharm : f.Harmless K c) :
    Guarded K f g (c.receive K s) := by
  cases ha : c.admitted K with
  | none => rwa [receive_of_not_admitted ha]
  | some a =>
    obtain ⟨heffect, honly⟩ := hharm a ha g hf
    refine ⟨?_, filed_receive hg.filed, others_receive hf hg hharm ha⟩
    by_cases hcancels : a.cancels c.now g
    · exact stays_of_cancels hf hid hg ha hcancels (honly hcancels)
    · exact stays_of_not_cancels hf hid hg ha heffect hcancels

/-! ## From its arrival on -/

/-- What is kept came in. -/
theorem entry_of_run (earlier : List Arrival) {e : Sigma fun _ : Uint256 => CAlert}
    (he : e ∈ (Runs.play (receive K) earlier s).mapAlerts.entries) :
    e ∈ s.mapAlerts.entries ∨ ∃ c ∈ earlier, e.2.vchMsg = c.vchMsg := by
  induction earlier generalizing s with
  | nil => exact .inl he
  | cons c earlier ih =>
    rcases ih he with he | ⟨d, hd, hmsg⟩
    · cases ha : c.admitted K with
      | none =>
        rw [receive_of_not_admitted ha] at he
        exact .inl he
      | some a =>
        rcases mem_receive ha he with hclear | ⟨rfl, -⟩
        · exact .inl (mem_cleared.mp hclear).1
        · exact .inr ⟨c, List.mem_cons_self, (admits_of_admitted ha).vchMsg⟩
    · exact .inr ⟨d, List.mem_cons_of_mem _ hd, hmsg⟩

theorem filed_run (earlier : List Arrival) (h : Filed K s.mapAlerts) :
    Filed K (Runs.play (receive K) earlier s).mapAlerts :=
  @Runs.play_keeps _ _ _ (fun s : AlertState => Filed K s.mapAlerts) _ _ (fun _ _ => filed_receive) h

/-- Once it is accepted the last word is guarded. -/
theorem guarded_of_accepted (hf : f.admitted K = some g) (hfiled : Filed K m)
    (hapart : ∀ e ∈ m.entries, K.Hash e.2.vchMsg = K.Hash f.vchMsg → e.2.vchMsg = f.vchMsg)
    {m' : MapAlerts} (hacc : f.processAlert K m = .ok true m') : Guarded K f g ⟨m', []⟩ := by
  have hadm := admits_of_admitted hf
  have hrun : f.receive K ⟨m, []⟩ = ⟨m', [f]⟩ := by
    unfold receive
    rw [hacc]
    rfl
  have hkey : g.getHash K = K.Hash f.vchMsg := by rw [CAlert.getHash, hadm.vchMsg]
  have hfiled' : Filed K m' := by
    have := filed_receive (c := f) (s := ⟨m, []⟩) hfiled
    rwa [hrun] at this
  have hothers : (∀ item ∈ (f.cleared g m).entries, ¬ item.2.cancels f.now g) → ∀ e ∈ m'.entries, e.2.vchMsg ≠ f.vchMsg →
      ¬ (g.nID ≤ e.2.nCancel ∨ g.nID ∈ e.2.setCancel) := fun hfree e he hne hnames => by
    have hmem : e ∈ (f.receive K ⟨m, []⟩).mapAlerts.entries := by rwa [hrun]
    rcases mem_receive hf hmem with hclear | ⟨rfl, -⟩
    · exact hfree e hclear ⟨(mem_cleared.mp hclear).2.2, hnames⟩
    · exact hne hadm.vchMsg
  rcases receive_cases (s := ⟨m, []⟩) hf with ⟨-, hcase⟩ | ⟨hfree, ⟨old, hold, hcase⟩ | ⟨-, hcase⟩⟩
  · exact nomatch congrArg AlertState.accepted (hrun.symm.trans hcase)
  · have hm : m' = f.cleared g m := congrArg AlertState.mapAlerts (hrun.symm.trans hcase)
    have hmem := (mem_cleared.mp (AList.mem_lookup_iff.mp hold)).1
    have hhash := (hfiled.key _ hmem).symm.trans hkey
    refine ⟨⟨⟨old, ?_, hapart _ hmem hhash⟩, fun _ h => nomatch h⟩, hfiled', hothers hfree⟩
    rwa [hm, ← hkey]
  · have hm : m' = (f.cleared g m).insert (g.getHash K) g := congrArg AlertState.mapAlerts (hrun.symm.trans hcase)
    refine ⟨⟨⟨g, ?_, hadm.vchMsg⟩, fun _ h => nomatch h⟩, hfiled', hothers hfree⟩
    rw [hm, ← hkey]
    exact AList.lookup_insert _

/-- **The last word is the last word exactly where nothing admitted after it
names it.** From the moment it is accepted, by a node that started without
alerts and holds no other message of the same hash, it stays in `mapAlerts`
and only last words are accepted, in every state of every run, if and only if
every admitted message of the run arrives before the last word expires and
does not cancel it, unless it is the same message again. -/
theorem finalAlert_stays_iff (K : AlertKey) (earlier later : List Arrival) (f : Arrival) (m : MapAlerts) (hfinal : f.Final K)
    (hacc : f.processAlert K (Runs.play (receive K) earlier .empty).mapAlerts = .ok true m)
    (hapart : ∀ c ∈ earlier, K.Hash c.vchMsg = K.Hash f.vchMsg → c.vchMsg = f.vchMsg) :
    (∀ n, Stays K f (Runs.play (receive K) (later.take n) ⟨m, []⟩)) ↔ ∀ c ∈ later, f.Harmless K c := by
  obtain ⟨g, hf, hid, -⟩ := hfinal
  have hfiled := filed_run (K := K) (s := .empty) earlier filed_empty
  have hguard : Guarded K f g ⟨m, []⟩ := by
    refine guarded_of_accepted hf hfiled (fun e he => ?_) hacc
    rcases entry_of_run earlier he with he | ⟨c, hc, hmsg⟩
    · exact nomatch he
    · rw [hmsg]
      exact hapart c hc
  have hruns : (∀ n, Stays K f (Runs.play (receive K) (later.take n) ⟨m, []⟩)) ↔
      Runs.Meets (receive K) (fun c _ => f.Harmless K c) later ⟨m, []⟩ :=
    @Runs.holds_iff_meets _ _ _ _ (Guarded K f g) _ _ (Stays K f) (fun s h => h.stays)
      (fun c s h => ⟨harmless_of_stays hf h, fun hharm => (guarded_receive hf hid h hharm).stays⟩)
      (fun c s h => guarded_receive hf hid h) hguard
  exact hruns.trans Runs.meets_const

end Runs

/-! ## A last word that is overridden -/

namespace Sample

/-- A key that signs everything, and a hash without collisions. -/
def alertKey : AlertKey := ⟨CScript.leNat, fun _ _ => true⟩

/-- The last word, in its one form. -/
def finalAlert : Arrival where
  now := 1000
  vchMsg := CUnsignedAlert.serialize ⟨1, 0, maxInt, maxInt, maxInt - 1, [], 0, maxInt, [], maxInt, [], CAlert.finalStatus, []⟩
  vchSig := []

/-- An alert with the number 1 that cancels every number. -/
def cancelAll : Arrival where
  now := 2000
  vchMsg := CUnsignedAlert.serialize ⟨1, 0, 3000, 1, maxInt, [], 0, maxInt, [], 1, [], [], []⟩
  vchSig := []

/-- The alert of the last word. -/
def finalWord : CAlert where
  toCUnsignedAlert := ⟨1, 0, maxInt, maxInt, maxInt - 1, [], 0, maxInt, [], maxInt, [], CAlert.finalStatus, []⟩
  vchMsg := finalAlert.vchMsg
  vchSig := []

theorem admitted_finalAlert : finalAlert.admitted alertKey = some finalWord := by decide +kernel

/-- The node that has accepted the last word. -/
def finalAlerts : MapAlerts := (∅ : MapAlerts).insert (alertKey.Hash finalAlert.vchMsg) finalWord

theorem processAlert_finalAlert : finalAlert.processAlert alertKey ∅ = .ok true finalAlerts := by
  rw [Arrival.processAlert_of_admitted admitted_finalAlert]
  rfl

end Sample

open Sample

theorem finalAlert_stays_iff_sample :
    (∀ n, Stays alertKey finalAlert (Runs.play (Arrival.receive alertKey) ([finalAlert].take n) ⟨finalAlerts, []⟩)) ↔
      ∀ c ∈ [finalAlert], finalAlert.Harmless alertKey c :=
  finalAlert_stays_iff alertKey [] [finalAlert] finalAlert finalAlerts
    ⟨finalWord, admitted_finalAlert, rfl, by decide +kernel⟩ processAlert_finalAlert fun _ h => (nomatch h)

/-- **One signed alert takes the last word away**: it names every number in
`nCancel`, removes the last word before that one is asked whether it cancels
the newcomer, and is accepted. -/
theorem not_stays_cancelAll :
    finalAlert.Final alertKey ∧ finalAlert.processAlert alertKey ∅ = .ok true finalAlerts ∧
      alertKey.Verify (alertKey.Hash cancelAll.vchMsg) cancelAll.vchSig ∧
      (Runs.play (Arrival.receive alertKey) [cancelAll] ⟨finalAlerts, []⟩).accepted = [cancelAll] ∧
      ¬ Stays alertKey finalAlert (Runs.play (Arrival.receive alertKey) [cancelAll] ⟨finalAlerts, []⟩) := by
  refine ⟨⟨finalWord, admitted_finalAlert, rfl, by decide +kernel⟩, processAlert_finalAlert, rfl, by decide +kernel, fun h => ?_⟩
  have hgone : (Runs.play (Arrival.receive alertKey) [cancelAll] ⟨finalAlerts, []⟩).mapAlerts.lookup
      (alertKey.Hash finalAlert.vchMsg) = none := by decide +kernel
  obtain ⟨g, hg, -⟩ := h.kept
  rw [hgone] at hg
  exact nomatch hg

end Pinkcoin
