/-
The messages about the buckets of two peers, by the counts they announce: what
each handler of `SecureMsgReceiveData` reads of the bytes it is given, and how
many entries it looks at.
-/
import Pinkcoin.Lib.Access
import Pinkcoin.Smsg.Calls
import Pinkcoin.Smsg.Sealed

namespace Pinkcoin

open CScript (leNat)
open Access (AllInside)
open StateError (get_run modify_run rejectIf throw_run)

/-! ## The handlers that only read -/

/-- `smsgShow`: the tokens of the buckets the peer asks for. The length that
is compared is a `uint32_t`. -/
def smsgShow (env : SmsgEnv) (s : Smsg) (vchData : List UInt8) : Option (List (Int × List SecMsgToken)) :=
  if vchData.length < 4 then none
  else
    let nBuckets := leNat (vchData.take 4)
    if vchData.length < (4 + nBuckets * 8) % 2 ^ 32 then none
    else some ((List.range nBuckets).filterMap fun i =>
      let time := readInt64 (env.memory vchData (4 + 8 * i) 8)
      (s.smsgBuckets.lookup time).map fun bucket => (time, bucket.setTokens.toList))

/-- How far the loop of `smsgWant` has come: the tokens it has looked at, and
the bunch. -/
structure WantReply where
  entries : Nat
  nBunch : Nat
  vchBunch : List UInt8

/-- A bunch that gets no more messages. -/
def WantReply.Full (r : WantReply) : Prop := 500 ≤ r.nBunch ∨ 96000 ≤ r.vchBunch.length

instance (r : WantReply) : Decidable r.Full := inferInstanceAs (Decidable (_ ∨ _))

/-- The body of the loop of `smsgWant`, for a token that is in the bucket. -/
def addWanted (env : SmsgEnv) (s : Smsg) (token : SecMsgToken) (r : WantReply) : WantReply :=
  match secureMsgRetrieve env s token with
  | some vchOne => ⟨r.entries, r.nBunch + 1, r.vchBunch ++ vchOne⟩
  | none => r

/-- The loop of `smsgWant`. -/
def wantLoop (env : SmsgEnv) (s : Smsg) (vchData : List UInt8) (setTokens : TokenSet) : List Nat → WantReply → WantReply
  | [], r => r
  | i :: rest, r =>
    let r := { r with entries := r.entries + 1 }
    match setTokens.find (tokenAt vchData i).key with
    | none => wantLoop env s vchData setTokens rest r
    | some it =>
      let r := addWanted env s it r
      if r.Full then r else wantLoop env s vchData setTokens rest r

/-- The tokens a `smsgHave` or a `smsgWant` has room for. -/
def tokenCount (vchData : List UInt8) : Nat := (vchData.length - 8) / 16

/-- `smsgWant`: the messages of a bucket the peer asks for. -/
def smsgWant (env : SmsgEnv) (s : Smsg) (vchData : List UInt8) : Option WantReply :=
  if vchData.length < 8 then none
  else
    match s.smsgBuckets.lookup (readInt64 (vchData.take 8)) with
    | none => none
    | some bucket =>
      some (wantLoop env s vchData bucket.setTokens (List.range (tokenCount vchData)) ⟨0, 0, List.replicate 12 0⟩)

/-- `smsgMatch`: the time the buckets of the peer matched, `lastMatched`. -/
def smsgMatch (env : SmsgEnv) (vchData : List UInt8) : Option Int :=
  if vchData.length < 8 then none
  else
    let time := readInt64 (vchData.take 8)
    some (if env.adjustedTime + SMSG_TIME_LEEWAY < time then env.adjustedTime else time)

/-! ## Reads and entries -/

inductive InventoryCommand
  | smsgInv
  | smsgShow
  | smsgHave
  | smsgWant
  | smsgMatch
  deriving DecidableEq

/-- A message is rejected, with its first bytes read or not, or its entries,
which all have one size, are looked at. -/
inductive Handling
  | rejected (head : Nat)
  | processed (head size entries : Nat)
  deriving DecidableEq

/-- What is read of the message. -/
def Handling.reads : Handling → List Access
  | rejected head => [⟨0, head⟩]
  | processed head size entries => ⟨0, head⟩ :: (List.range entries).map fun i => ⟨head + size * i, size⟩

namespace InventoryCommand

/-- How a message is handled by a node that ignores the peer until
`ignoreUntil`. -/
def handling (env : SmsgEnv) (ignoreUntil : Int) (s : Smsg) (vchData : List UInt8) : InventoryCommand → Handling
  | smsgInv =>
    if vchData.length < 4 ∨ env.adjustedTime < ignoreUntil then .rejected 0
    else
      let nInvBuckets := leNat (vchData.take 4)
      if SMSG_RETENTION / SMSG_BUCKET_LEN + 1 < nInvBuckets ∨ vchData.length < 4 + nInvBuckets * 16 then .rejected 4
      else .processed 4 16 nInvBuckets
  | smsgShow =>
    if vchData.length < 4 then .rejected 0
    else
      let nBuckets := leNat (vchData.take 4)
      if vchData.length < (4 + nBuckets * 8) % 2 ^ 32 then .rejected 4 else .processed 4 8 nBuckets
  | smsgHave =>
    if vchData.length < 8 then .rejected 0
    else
      let time := readInt64 (vchData.take 8)
      if time < env.adjustedTime - SMSG_RETENTION ∨ env.adjustedTime + SMSG_TIME_LEEWAY < time ∨
          0 < (s.bucketAt time).nLockCount then .rejected 8
      else .processed 8 16 (tokenCount vchData)
  | smsgWant =>
    match Pinkcoin.smsgWant env s vchData with
    | none => .rejected (if vchData.length < 8 then 0 else 8)
    | some r => .processed 8 16 r.entries
  | smsgMatch => if vchData.length < 8 then .rejected 0 else .processed 8 0 0

/-- The entries a message announces, by a count or by its size. -/
def announced (vchData : List UInt8) : InventoryCommand → Nat
  | smsgInv => leNat (vchData.take 4)
  | smsgShow => leNat (vchData.take 4)
  | smsgHave => tokenCount vchData
  | smsgWant => tokenCount vchData
  | smsgMatch => 0

/-- The length a message is asked to have, where a handler computes it from a
count, before it is taken modulo 2^32. -/
def checkedLength (env : SmsgEnv) (ignoreUntil : Int) (vchData : List UInt8) : InventoryCommand → Option Nat
  | smsgInv =>
    let nInvBuckets := leNat (vchData.take 4)
    if vchData.length < 4 ∨ env.adjustedTime < ignoreUntil ∨ SMSG_RETENTION / SMSG_BUCKET_LEN + 1 < nInvBuckets then none
    else some (4 + nInvBuckets * 16)
  | smsgShow => if vchData.length < 4 then none else some (4 + leNat (vchData.take 4) * 8)
  | _ => none

/-- The handler has rejected the message. -/
def Refuses (env : SmsgEnv) (ignoreUntil : Int) (nPeerId : Nat) (s : Smsg) (vchData : List UInt8) : InventoryCommand → Prop
  | smsgInv => ∃ e s', Pinkcoin.smsgInv env ignoreUntil vchData s = .error e s'
  | smsgShow => Pinkcoin.smsgShow env s vchData = none
  | smsgHave => ∃ e s', Pinkcoin.smsgHave env nPeerId vchData s = .error e s'
  | smsgWant => Pinkcoin.smsgWant env s vchData = none
  | smsgMatch => Pinkcoin.smsgMatch env vchData = none

end InventoryCommand

/-- A message is read inside, its entries are all looked at if it is not
rejected, and the length it is asked to have is below 2^32. A `smsgWant` is
left where the bunch is full. -/
structure Handled (env : SmsgEnv) (ignoreUntil : Int) (s : Smsg) (vchData : List UInt8) (c : InventoryCommand) : Prop where
  inside : AllInside vchData.length (c.handling env ignoreUntil s vchData).reads
  complete : ∀ head size entries, c.handling env ignoreUntil s vchData = .processed head size entries →
    entries = c.announced vchData ∨ (c = .smsgWant ∧ ∃ r ∈ smsgWant env s vchData, r.Full)
  noWrap : ∀ n ∈ c.checkedLength env ignoreUntil vchData, n < 2 ^ 32

section

variable {env : SmsgEnv} {ignoreUntil : Int} {nPeerId : Nat} {s : Smsg} {vchData : List UInt8} {c : InventoryCommand}

theorem entries_addWanted (token : SecMsgToken) (r : WantReply) : (addWanted env s token r).entries = r.entries := by
  rw [addWanted]
  split <;> rfl

variable (env s vchData) in
/-- The tokens are looked at one after the other, until the bunch is full. -/
theorem wantLoop_entries (setTokens : TokenSet) (is : List Nat) (r : WantReply) :
    (wantLoop env s vchData setTokens is r).entries ≤ r.entries + is.length ∧
      ((wantLoop env s vchData setTokens is r).entries = r.entries + is.length ∨ (wantLoop env s vchData setTokens is r).Full) := by
  induction is generalizing r with
  | nil => exact ⟨le_rfl, .inl rfl⟩
  | cons i rest ih =>
    rw [wantLoop, List.length_cons]
    cases setTokens.find (tokenAt vchData i).key with
    | none =>
      have hrest := ih { r with entries := r.entries + 1 }
      rwa [Nat.add_right_comm, Nat.add_assoc] at hrest
    | some it =>
      have hrest := ih (addWanted env s it { r with entries := r.entries + 1 })
      rw [entries_addWanted, Nat.add_right_comm, Nat.add_assoc] at hrest
      by_cases hfull : (addWanted env s it { r with entries := r.entries + 1 }).Full
      · simp only [if_pos hfull, entries_addWanted]
        exact ⟨by omega, .inr hfull⟩
      · simpa only [if_neg hfull] using hrest

theorem smsgWant_entries {r : WantReply} (h : smsgWant env s vchData = some r) :
    8 ≤ vchData.length ∧ r.entries ≤ tokenCount vchData ∧ (r.entries = tokenCount vchData ∨ r.Full) := by
  rw [smsgWant] at h
  split at h
  next => cases h
  next hsize =>
    split at h
    next => cases h
    next bucket _ =>
      obtain rfl := Option.some.inj h
      have hloop := wantLoop_entries env s vchData bucket.setTokens
        (List.range (tokenCount vchData)) ⟨0, 0, List.replicate 12 0⟩
      rw [List.length_range, Nat.zero_add] at hloop
      exact ⟨Nat.not_lt.mp hsize, hloop⟩

variable (env vchData) in
/-- The loop of `smsgInv` does not fail. -/
theorem answerInvs_ok (is : List Nat) (s : Smsg) : ∃ answers s', answerInvs env vchData is s = .ok answers s' := by
  induction is generalizing s with
  | nil => exact ⟨[], s, rfl⟩
  | cons i rest ih =>
    have hanswer : ∀ time ncontent hash, ∃ answer s', answerInv env time ncontent hash s = .ok answer s' := by
      intro time ncontent hash
      rw [answerInv]
      split
      next => exact ⟨.ignored, s, rfl⟩
      next =>
        simp only [bind, EStateM.bind, modify_run, get_run, pure]
        split
        next => exact ⟨.locked, _, rfl⟩
        next =>
          split
          next => exact ⟨.requested, _, rfl⟩
          next => exact ⟨.matched, _, rfl⟩
    obtain ⟨answer, s', ha⟩ := hanswer (readInt64 ((vchData.drop (4 + 16 * i)).take 8))
      (leNat (((vchData.drop (4 + 16 * i)).drop 8).take 4))
      (BitVec.ofNat 32 (leNat (((vchData.drop (4 + 16 * i)).drop 12).take 4)))
    obtain ⟨answers, s'', hrest⟩ := ih s'
    refine ⟨(readInt64 ((vchData.drop (4 + 16 * i)).take 8), answer) :: answers, s'', ?_⟩
    simp only [answerInvs, bind, EStateM.bind, ha, hrest, pure, EStateM.pure]

/-- **A message is handled as rejected where its handler rejects it.** -/
theorem handling_rejected_iff :
    (∃ head, c.handling env ignoreUntil s vchData = .rejected head) ↔ c.Refuses env ignoreUntil nPeerId s vchData := by
  cases c with
  | smsgInv =>
    simp only [InventoryCommand.handling, InventoryCommand.Refuses, smsgInv]
    obtain ⟨answers, s', hanswers⟩ := answerInvs_ok env vchData (List.range (leNat (vchData.take 4))) s
    by_cases hsize : vchData.length < 4
    · simp [bind, EStateM.bind, rejectIf, hsize, throw_run]
    by_cases hignore : env.adjustedTime < ignoreUntil
    · simp [bind, EStateM.bind, rejectIf, hsize, hignore, throw_run, pure, EStateM.pure]
    by_cases hcount : SMSG_RETENTION / SMSG_BUCKET_LEN + 1 < leNat (vchData.take 4)
    · simp [bind, EStateM.bind, rejectIf, hsize, hignore, hcount, throw_run, pure,
        EStateM.pure]
    by_cases hentries : vchData.length < 4 + leNat (vchData.take 4) * 16
    · simp [bind, EStateM.bind, rejectIf, hsize, hignore, hcount, hentries, throw_run, pure, EStateM.pure]
    · simp only [bind, EStateM.bind, rejectIf, hsize, hignore, hcount, hentries, pure, EStateM.pure, if_false, or_self,
        hanswers, reduceCtorEq, exists_const, false_iff]
      split
      next => simp [EStateM.pure]
      next => split <;> simp [EStateM.pure]
  | smsgShow =>
    simp only [InventoryCommand.handling, InventoryCommand.Refuses, smsgShow]
    split
    · simp
    · split <;> simp
  | smsgHave =>
    simp only [InventoryCommand.handling, InventoryCommand.Refuses, smsgHave]
    by_cases hsize : vchData.length < 8
    · simp [bind, EStateM.bind, rejectIf, hsize, throw_run]
    by_cases hpast : readInt64 (vchData.take 8) < env.adjustedTime - SMSG_RETENTION
    · simp [bind, EStateM.bind, rejectIf, hsize, hpast, throw_run, pure, EStateM.pure]
    by_cases hfuture : env.adjustedTime + SMSG_TIME_LEEWAY < readInt64 (vchData.take 8)
    · simp [bind, EStateM.bind, rejectIf, hsize, hpast, hfuture, throw_run, pure,
        EStateM.pure]
    have hbucket : (s.updateBucket (readInt64 (vchData.take 8)) id).bucketAt (readInt64 (vchData.take 8)) =
        s.bucketAt (readInt64 (vchData.take 8)) := by simp [Smsg.updateBucket, Smsg.setBucket, Smsg.bucketAt]
    by_cases hlock : 0 < (s.bucketAt (readInt64 (vchData.take 8))).nLockCount
    · simp [bind, EStateM.bind, rejectIf, hsize, hpast, hfuture, hbucket, hlock, throw_run, pure, EStateM.pure, modify_run, get_run]
    · simp only [bind, EStateM.bind, rejectIf, hsize, hpast, hfuture, hbucket, hlock, pure, EStateM.pure, modify_run, get_run, if_false, or_self,
        reduceCtorEq, exists_const, false_iff]
      split <;> simp [EStateM.bind, modify_run, EStateM.pure]
  | smsgWant =>
    simp only [InventoryCommand.handling, InventoryCommand.Refuses]
    cases smsgWant env s vchData <;> simp
  | smsgMatch =>
    simp only [InventoryCommand.handling, InventoryCommand.Refuses, smsgMatch]
    split <;> simp

/-- A message that is rejected is read as far as it was seen to reach. -/
theorem rejected_le {head : Nat} (h : c.handling env ignoreUntil s vchData = .rejected head) : head ≤ vchData.length := by
  cases c with
  | smsgInv =>
    simp only [InventoryCommand.handling] at h
    split at h
    next => cases h; exact Nat.zero_le _
    next hsize =>
      split at h
      next => cases h; omega
      next => cases h
  | smsgShow =>
    simp only [InventoryCommand.handling] at h
    split at h
    next => cases h; exact Nat.zero_le _
    next hsize =>
      split at h
      next => cases h; omega
      next => cases h
  | smsgHave =>
    simp only [InventoryCommand.handling] at h
    split at h
    next => cases h; exact Nat.zero_le _
    next hsize =>
      split at h
      next => cases h; omega
      next => cases h
  | smsgWant =>
    simp only [InventoryCommand.handling] at h
    split at h
    next => cases h; split <;> omega
    next => cases h
  | smsgMatch =>
    simp only [InventoryCommand.handling] at h
    split at h
    next => cases h; exact Nat.zero_le _
    next => cases h

/-- What a message that is not rejected is read for. -/
theorem processed_cases {head size entries : Nat} (h : c.handling env ignoreUntil s vchData = .processed head size entries) :
    match c with
    | .smsgInv => head = 4 ∧ size = 16 ∧ entries = leNat (vchData.take 4) ∧ 4 + entries * 16 ≤ vchData.length
    | .smsgShow => head = 4 ∧ size = 8 ∧ entries = leNat (vchData.take 4) ∧ 4 ≤ vchData.length ∧
        (4 + entries * 8) % 2 ^ 32 ≤ vchData.length
    | .smsgHave => head = 8 ∧ size = 16 ∧ entries = tokenCount vchData ∧ 8 ≤ vchData.length
    | .smsgWant => head = 8 ∧ size = 16 ∧ ∃ r, smsgWant env s vchData = some r ∧ entries = r.entries
    | .smsgMatch => head = 8 ∧ size = 0 ∧ entries = 0 ∧ 8 ≤ vchData.length := by
  cases c with
  | smsgInv =>
    simp only [InventoryCommand.handling] at h
    split at h
    next => cases h
    next =>
      split at h
      next => cases h
      next hentries =>
        cases h
        exact ⟨rfl, rfl, rfl, by omega⟩
  | smsgShow =>
    simp only [InventoryCommand.handling] at h
    split at h
    next => cases h
    next hsize =>
      split at h
      next => cases h
      next hentries =>
        cases h
        exact ⟨rfl, rfl, rfl, Nat.not_lt.mp hsize, Nat.not_lt.mp hentries⟩
  | smsgHave =>
    simp only [InventoryCommand.handling] at h
    split at h
    next => cases h
    next hsize =>
      split at h
      next => cases h
      next => cases h; exact ⟨rfl, rfl, rfl, Nat.not_lt.mp hsize⟩
  | smsgWant =>
    simp only [InventoryCommand.handling] at h
    split at h
    next => cases h
    next r hr => cases h; exact ⟨rfl, rfl, r, hr, rfl⟩
  | smsgMatch =>
    simp only [InventoryCommand.handling] at h
    split at h
    next => cases h
    next hsize => cases h; exact ⟨rfl, rfl, rfl, Nat.not_lt.mp hsize⟩

/-- Entries that fit behind the first bytes are read inside. -/
theorem processed_inside {head size entries : Nat} (h : head + size * entries ≤ vchData.length) :
    AllInside vchData.length (Handling.processed head size entries).reads := by
  simp only [Handling.reads, Access.allInside_cons, Access.inside_mk, Access.allInside_entries]
  omega

/-- **The messages about buckets are read inside and looked at as a whole,
but for a `smsgShow` that announces 2^29 buckets or more.** -/
theorem handled_iff :
    Handled env ignoreUntil s vchData c ↔ (c = .smsgShow → 4 ≤ vchData.length → leNat (vchData.take 4) < 2 ^ 29) := by
  constructor
  · intro h hc hsize
    subst hc
    have hsum := h.noWrap (4 + leNat (vchData.take 4) * 8) (if_neg (by omega))
    omega
  · intro h
    refine ⟨?_, fun head size entries hprocessed => ?_, fun n hn => ?_⟩
    · cases hhandling : c.handling env ignoreUntil s vchData with
      | rejected head => simpa [Handling.reads] using rejected_le hhandling
      | processed head size entries =>
        have hfacts := processed_cases hhandling
        refine processed_inside ?_
        cases c with
        | smsgInv =>
          obtain ⟨rfl, rfl, -, hentries⟩ := hfacts
          omega
        | smsgShow =>
          obtain ⟨rfl, rfl, hentries, hsize, hcheck⟩ := hfacts
          have hcount := h rfl hsize
          rw [← hentries] at hcount
          rw [Nat.mod_eq_of_lt (by omega)] at hcheck
          omega
        | smsgHave =>
          obtain ⟨rfl, rfl, hentries, hsize⟩ := hfacts
          rw [tokenCount] at hentries
          omega
        | smsgWant =>
          obtain ⟨rfl, rfl, r, hr, rfl⟩ := hfacts
          have hloop := smsgWant_entries hr
          rw [tokenCount] at hloop
          omega
        | smsgMatch =>
          obtain ⟨rfl, rfl, rfl, hsize⟩ := hfacts
          omega
    · have hfacts := processed_cases hprocessed
      cases c with
      | smsgInv => exact .inl hfacts.2.2.1
      | smsgShow => exact .inl hfacts.2.2.1
      | smsgHave => exact .inl hfacts.2.2.1
      | smsgWant =>
        obtain ⟨-, -, r, hr, rfl⟩ := hfacts
        rcases (smsgWant_entries hr).2.2 with hall | hfull
        · exact .inl hall
        · exact .inr ⟨rfl, r, hr, hfull⟩
      | smsgMatch => exact .inl hfacts.2.2.1
    · cases c with
      | smsgInv =>
        simp only [InventoryCommand.checkedLength] at hn
        split at hn
        next => cases hn
        next hcount =>
          obtain rfl := Option.some.inj hn
          have hmax : SMSG_RETENTION / SMSG_BUCKET_LEN + 1 = 289 := by decide
          omega
      | smsgShow =>
        simp only [InventoryCommand.checkedLength] at hn
        split at hn
        next => cases hn
        next hsize =>
          obtain rfl := Option.some.inj hn
          have hcount := h rfl (by omega)
          omega
      | smsgHave => cases hn
      | smsgWant => cases hn
      | smsgMatch => cases hn

/-- A `smsgShow` of four bytes that announces 2^29 buckets: the length it is
asked to have is 4, and the buckets are read from behind it. -/
theorem smsgShow_outside :
    (smsgShow SmsgSample.env SmsgSample.node [0, 0, 0, 32]).isSome ∧
      ¬ AllInside 4 (InventoryCommand.smsgShow.handling SmsgSample.env 0 SmsgSample.node [0, 0, 0, 32]).reads ∧
      ¬ Handled SmsgSample.env 0 SmsgSample.node [0, 0, 0, 32] .smsgShow := by
  have hhandling : InventoryCommand.smsgShow.handling SmsgSample.env 0 SmsgSample.node [0, 0, 0, 32] =
      .processed 4 8 (2 ^ 29) := by decide +kernel
  have hreads : ¬ AllInside 4 (InventoryCommand.smsgShow.handling SmsgSample.env 0 SmsgSample.node [0, 0, 0, 32]).reads := by
    rw [hhandling]
    simp only [Handling.reads, Access.allInside_cons, Access.inside_mk, Access.allInside_entries]
    omega
  refine ⟨?_, hreads, fun h => hreads h.inside⟩
  rw [smsgShow, if_neg (by decide)]
  exact rfl

end

end Pinkcoin
