/-
The send queue and the outbox of the message database: what `SecureMsgSend`
writes there, and the proof-of-work thread, which takes the messages of the
queue. Both tables are keyed by the time of a message and the place of its
payload in memory.
-/
import Pinkcoin.Lib.Runs
import Pinkcoin.Smsg.Sealed
import Pinkcoin.Smsg.Calls

namespace Pinkcoin

open CScript (leBytes)
open Runs
open StateError

/-! ## Sending -/

/-- `SecMsgStored`, of the send queue and the outbox. -/
structure SecMsgSent where
  timeReceived : Int
  sAddrTo : List Char
  sAddrOutbox : List Char
  vchMessage : List UInt8
  deriving DecidableEq

/-- The module, the two tables of its database, and what the iterator of the
proof-of-work thread has still to show. -/
structure SendState where
  smsg : Smsg
  sendQueue : Map (List UInt8) SecMsgSent
  outbox : Map (List UInt8) SecMsgSent
  iter : List (List UInt8 × SecMsgSent)

/-- `SecureMsgSend(addressFrom, addressTo, message)`: what surrounds the two
encryptions, the new message objects with the addresses of their payloads, and
the addresses of the book, each with whether it is the wallet's own. -/
structure SendCall where
  env : SmsgEnv
  env' : SmsgEnv
  smsg : SecureMessage
  smsgForOutbox : SecureMessage
  pPayload : BitVec 64
  pPayloadOutbox : BitVec 64
  mapAddressBook : List (List Char × Bool)
  addressFrom : List Char
  addressTo : List Char
  message : List UInt8

section

variable (P : SmsgParams)

/-- `chKey`. The pointer to the payload is copied, and not the payload. -/
def sendKey (smsg : SecureMessage) (pPayload : BitVec 64) : List UInt8 :=
  leBytes 8 smsg.timestamp.toNat ++ leBytes 8 pPayload.toNat

/-- The first own address of the address book, or `None`. -/
def addressOutbox : List (List Char × Bool) → List Char → List Char
  | [], last => last
  | (address, mine) :: rest, last =>
    if ¬ mine then addressOutbox rest last
    else if (CBitcoinAddress.setString P.hash address).isNone then addressOutbox rest address
    else address

namespace SendCall

/-- The entry for the send queue, or why there is none. -/
def queueEntry (c : SendCall) (s : Smsg) : Except SmsgError (List UInt8 × SecMsgSent) := do
  rejectIf c.env.isLocked (SmsgError.rv 1)
  rejectIf (SMSG_MAX_MSG_BYTES < c.message.length) (SmsgError.rv 1)
  let (smsg, payload) ← secureMspinkcrypt P c.env s c.smsg c.addressFrom c.addressTo c.message
  pure (sendKey smsg c.pPayload, ⟨c.env.adjustedTime, c.addressTo, [], smsg.bytes ++ payload⟩)

/-- The entry for the outbox, encrypted for an own address. -/
def outboxEntry (c : SendCall) (s : Smsg) : Option (List UInt8 × SecMsgSent) :=
  let address := addressOutbox P c.mapAddressBook "None".toList
  if address = "None".toList then none
  else match secureMspinkcrypt P c.env' s c.smsgForOutbox c.addressFrom address c.message with
    | .error _ => none
    | .ok (smsg, payload) =>
      some (sendKey smsg c.pPayloadOutbox, ⟨c.env'.adjustedTime, c.addressTo, address, smsg.bytes ++ payload⟩)

end SendCall

/-- The database is open and the write succeeds. -/
def SmsgEnv.writes (env : SmsgEnv) : Prop := env.dbOpen ∧ env.dbWritten

instance (env : SmsgEnv) : Decidable env.writes := inferInstanceAs (Decidable (_ ∧ _))

/-- `SecureMsgSend`. A database that cannot be written is no error. -/
def secureMsgSend (c : SendCall) : EStateM SmsgError SendState Unit := do
  let n ← get
  let (chKey, smsgSQ) ← lift (c.queueEntry P n.smsg)
  onlyIf c.env.writes (modify fun n => { n with sendQueue := n.sendQueue.insert chKey smsgSQ })
  match c.outboxEntry P n.smsg with
  | none => pure ()
  | some (chKey, smsgOutbox) =>
    onlyIf c.env'.writes (modify fun n => { n with outbox := n.outbox.insert chKey smsgOutbox })

/-! ## The proof-of-work thread -/

/-- A pass of `ThreadSecureMsgPow` begins: its iterator shows the queue as it
is now, the smallest key first. -/
def SendState.beginPass (n : SendState) : SendState :=
  { n with iter := (n.sendQueue.keys.insertionSort (· ≤ ·)).filterMap fun chKey => (n.sendQueue.lookup chKey).map (chKey, ·) }

/-- The body of the loop of a pass. The pass ends, and the message stays,
where the module is stopped during the work. -/
def SendState.work (env env' : SmsgEnv) (n : SendState) : SendState :=
  match n.iter with
  | [] => n
  | (chKey, smsgStored) :: rest =>
    let (smsg, payload) := bunchMessage env smsgStored.vchMessage 0
    match secureMsgSetHash P env smsg payload with
    | .error (.rv 2) => { n with iter := [] }
    | _ => { n with
        smsg := endState (powMessage P env env' smsgStored.vchMessage n.smsg)
        sendQueue := n.sendQueue.erase chKey
        iter := rest }

end

/-! ## Runs -/

/-- A node, the messages that were queued and that the thread did not work
yet, and, for each message sent, what was written to the outbox. -/
structure SendRun where
  node : SendState
  waiting : List (List UInt8 × SecMsgSent)
  sent : List (Option (List UInt8 × SecMsgSent))

/-- A send, the thread, a stop of it, or any other call of the module. -/
inductive SendEvent
  | send (c : SendCall)
  | beginPass
  | work (env env' : SmsgEnv)
  | stop
  | other (call : SmsgCall)

namespace SendEvent

variable (P : SmsgParams)

/-- The message the thread is done with: stored, or dropped for its own
error. -/
def worked (env : SmsgEnv) (n : SendState) : List (List UInt8 × SecMsgSent) :=
  match n.iter with
  | [] => []
  | (chKey, smsgStored) :: _ =>
    let (smsg, payload) := bunchMessage env smsgStored.vchMessage 0
    match secureMsgSetHash P env smsg payload with
    | .error (.rv 2) => []
    | _ => [(chKey, smsgStored)]

/-- The state after an event. -/
def run : SendEvent → SendRun → SendRun
  | send c, r =>
    match c.queueEntry P r.node.smsg with
    | .error _ => { r with node := endState (secureMsgSend P c r.node) }
    | .ok entry =>
      { node := endState (secureMsgSend P c r.node)
        waiting := if c.env.writes then r.waiting ++ [entry] else r.waiting
        sent := r.sent ++ [if c.env'.writes then c.outboxEntry P r.node.smsg else none] }
  | beginPass, r => { r with node := r.node.beginPass }
  | work env env', r => { r with node := r.node.work P env env', waiting := r.waiting.diff (worked P env r.node) }
  | stop, r => { r with node := { r.node with iter := [] } }
  | other call, r => { r with node := { r.node with smsg := call.run P r.node.smsg } }

end SendEvent

/-- **Each queued message is in the queue until it is worked**, and each sent
message in the outbox, under a key of its own. -/
structure SendRun.Durable (r : SendRun) : Prop where
  queued : ∀ entry ∈ r.waiting, r.node.sendQueue.lookup entry.1 = some entry.2
  queuedApart : (r.waiting.map Prod.fst).Nodup
  copied : ∀ copy ∈ r.sent, ∃ entry ∈ copy, r.node.outbox.lookup entry.1 = some entry.2
  copiedApart : (r.sent.map (Option.map Prod.fst)).Nodup

/-- A send finds no entry under its keys, and its copy is made and written. -/
def SendEvent.Fresh (P : SmsgParams) : SendEvent → SendRun → Prop
  | send c, r => ∀ entry, c.queueEntry P r.node.smsg = .ok entry →
      (c.env.writes → r.node.sendQueue.lookup entry.1 = none) ∧
      ∃ copy, c.outboxEntry P r.node.smsg = some copy ∧ c.env'.writes ∧ r.node.outbox.lookup copy.1 = none
  | _, _ => True

/-! ## Tables -/

section

variable {K V : Type} [DecidableEq K] {t : Map K V} {l : List (K × V)} {k : K} {v : V}

/-- The table holds the entries of the list and no others, each under a key of
its own. -/
structure Tabled (t : Map K V) (l : List (K × V)) : Prop where
  apart : (l.map Prod.fst).Nodup
  holds : ∀ k v, t.lookup k = some v ↔ (k, v) ∈ l

theorem Tabled.lookup_eq_none (h : Tabled t l) : t.lookup k = none ↔ k ∉ l.map Prod.fst := by
  rw [Option.eq_none_iff_forall_ne_some]
  constructor
  · intro hnone hmem
    obtain ⟨entry, hentry, rfl⟩ := List.mem_map.mp hmem
    exact hnone entry.2 ((h.holds _ _).mpr hentry)
  · intro hnot v hsome
    exact hnot (List.mem_map.mpr ⟨(k, v), (h.holds k v).mp hsome, rfl⟩)

theorem Tabled.insert (h : Tabled t l) (hnone : t.lookup k = none) : Tabled (t.insert k v) (l ++ [(k, v)]) where
  apart := by
    rw [List.map_append]
    refine h.apart.append (List.nodup_singleton _) ?_
    intro k' hold hnew
    obtain rfl := List.mem_singleton.mp hnew
    exact h.lookup_eq_none.mp hnone hold
  holds := by
    intro k' v'
    rw [List.mem_append, List.mem_singleton, Prod.mk.injEq, ← h.holds]
    by_cases heq : k' = k
    · subst heq
      simp [AList.lookup_insert, hnone, eq_comm]
    · simp [AList.lookup_insert_ne heq, heq]

theorem Tabled.erase (h : Tabled t l) : Tabled (t.erase k) (l.filter fun entry => entry.1 ≠ k) where
  apart := h.apart.sublist (List.filter_sublist.map _)
  holds := by
    intro k' v'
    rw [List.mem_filter, ← h.holds]
    by_cases heq : k' = k
    · subst heq
      simp [AList.lookup_erase]
    · simp [AList.lookup_erase_ne heq, heq]

/-- Under a key of its own, an entry goes with its key. -/
theorem Tabled.erase_entry [BEq (K × V)] [LawfulBEq (K × V)] (h : Tabled t l) (hmem : (k, v) ∈ l) :
    Tabled (t.erase k) (l.erase (k, v)) := by
  have hnodup : l.Nodup := List.Nodup.of_map _ h.apart
  have heq : l.erase (k, v) = l.filter fun entry => entry.1 ≠ k := by
    rw [hnodup.erase_eq_filter]
    refine List.filter_congr fun entry hentry => ?_
    rw [Bool.eq_iff_iff]
    simp only [bne_iff_ne, ne_eq, decide_eq_true_eq]
    refine not_congr ⟨fun h => h ▸ rfl, fun hkey => ?_⟩
    exact List.inj_on_of_nodup_map h.apart hentry hmem hkey
  rw [heq]
  exact h.erase

end

/-! ## The tables hold what the runs say -/

/-- Each table holds the messages of the run and no others, and the iterator
shows the queue as it is. -/
structure SendRun.Good (r : SendRun) : Prop where
  queue : Tabled r.node.sendQueue r.waiting
  outbox : ∃ copies, r.sent = List.map some copies ∧ Tabled r.node.outbox copies
  shown : ∀ entry ∈ r.node.iter, r.node.sendQueue.lookup entry.1 = some entry.2
  shownApart : (r.node.iter.map Prod.fst).Nodup

section

variable {P : SmsgParams} {c : SendCall} {n : SendState} {r : SendRun} {env env' : SmsgEnv}
  {entry : List UInt8 × SecMsgSent} {e : SmsgError}

/-- A message that cannot be encrypted changes nothing. -/
theorem secureMsgSend_error (h : c.queueEntry P n.smsg = .error e) : endState (secureMsgSend P c n) = n := by
  simp [secureMsgSend, bind, EStateM.bind, get_run, lift, h]

/-- What a send writes. -/
theorem secureMsgSend_ok (h : c.queueEntry P n.smsg = .ok entry) : endState (secureMsgSend P c n) =
    { n with
      sendQueue := if c.env.writes then n.sendQueue.insert entry.1 entry.2 else n.sendQueue
      outbox := match if c.env'.writes then c.outboxEntry P n.smsg else none with
        | none => n.outbox
        | some copy => n.outbox.insert copy.1 copy.2 } := by
  have hrun : secureMsgSend P c n = (do
      onlyIf c.env.writes (modify fun n => { n with sendQueue := n.sendQueue.insert entry.1 entry.2 })
      match c.outboxEntry P n.smsg with
      | none => pure ()
      | some copy => onlyIf c.env'.writes (modify fun n => { n with outbox := n.outbox.insert copy.1 copy.2 }) :
        EStateM SmsgError SendState Unit) n := by
    simp only [secureMsgSend, bind, EStateM.bind, get_run, lift, h]
    cases c.outboxEntry P n.smsg with
    | none => rfl
    | some copy => rfl
  rw [hrun]
  cases c.outboxEntry P n.smsg with
  | none =>
    by_cases hqueue : c.env.writes
    · simp [onlyIf, hqueue, bind, EStateM.bind, modify_run, pure, EStateM.pure]
    · simp [onlyIf, hqueue, bind, EStateM.bind, pure, EStateM.pure]
  | some copy =>
    by_cases hqueue : c.env.writes
    · by_cases houtbox : c.env'.writes
      · simp [onlyIf, hqueue, houtbox, bind, EStateM.bind, modify_run]
      · simp [onlyIf, hqueue, houtbox, bind, EStateM.bind, modify_run,
          pure, EStateM.pure]
    · by_cases houtbox : c.env'.writes
      · simp [onlyIf, hqueue, houtbox, bind, EStateM.bind, modify_run,
          pure, EStateM.pure]
      · simp [onlyIf, hqueue, houtbox, bind, EStateM.bind, pure, EStateM.pure]

/-- A step of the thread: nothing is left to show, the module was stopped, or
the first message is worked. -/
theorem SendState.work_cases (P : SmsgParams) (env env' : SmsgEnv) (n : SendState) :
    (∃ iter, iter <:+ n.iter ∧ n.work P env env' = { n with iter := iter } ∧ SendEvent.worked P env n = []) ∨
    ∃ entry rest smsg, n.iter = entry :: rest ∧ SendEvent.worked P env n = [entry] ∧
      n.work P env env' = { n with smsg := smsg, sendQueue := n.sendQueue.erase entry.1, iter := rest } := by
  unfold SendState.work SendEvent.worked
  cases hiter : n.iter with
  | nil =>
    refine .inl ⟨[], List.suffix_rfl, ?_, rfl⟩
    cases n
    cases hiter
    rfl
  | cons entry rest =>
    dsimp only
    split
    next => exact .inl ⟨[], List.nil_suffix, rfl, rfl⟩
    next => exact .inr ⟨entry, rest, _, rfl, rfl, rfl⟩

/-! ## Steps -/

theorem SendRun.Good.durable (h : r.Good) : r.Durable where
  queued := fun entry hentry => (h.queue.holds _ _).mpr hentry
  queuedApart := h.queue.apart
  copied := by
    obtain ⟨copies, hsent, hcopies⟩ := h.outbox
    intro copy hcopy
    rw [hsent] at hcopy
    obtain ⟨entry, hentry, rfl⟩ := List.mem_map.mp hcopy
    exact ⟨entry, rfl, (hcopies.holds _ _).mpr hentry⟩
  copiedApart := by
    obtain ⟨copies, hsent, hcopies⟩ := h.outbox
    have hkeys : r.sent.map (Option.map Prod.fst) = (copies.map Prod.fst).map some := by
      rw [hsent, List.map_map, List.map_map]
      rfl
    rw [hkeys]
    exact hcopies.apart.map (Option.some_injective _)

theorem SendRun.Good.beginPass (h : r.Good) : ({ r with node := r.node.beginPass } : SendRun).Good where
  queue := h.queue
  outbox := h.outbox
  shown := by
    intro entry hentry
    obtain ⟨chKey, -, hlookup⟩ := List.mem_filterMap.mp hentry
    obtain ⟨smsgSQ, hsome, rfl⟩ := Option.map_eq_some_iff.mp hlookup
    exact hsome
  shownApart := by
    have hkeys : (r.node.sendQueue.keys.insertionSort (· ≤ ·)).Nodup :=
      (List.perm_insertionSort _ _).nodup_iff.mpr r.node.sendQueue.keys_nodup
    show ((r.node.beginPass).iter.map Prod.fst).Nodup
    rw [SendState.beginPass, List.map_filterMap]
    refine hkeys.filterMap ?_
    intro chKey chKey' k hk hk'
    simp only [Option.map_map, Option.mem_def, Option.map_eq_some_iff] at hk hk'
    obtain ⟨_, -, rfl⟩ := hk
    obtain ⟨_, -, heq⟩ := hk'
    exact heq.symm

theorem SendRun.Good.shows {iter : List (List UInt8 × SecMsgSent)} (h : r.Good) (hiter : iter <:+ r.node.iter) :
    ({ r with node := { r.node with iter := iter } } : SendRun).Good where
  queue := h.queue
  outbox := h.outbox
  shown := fun entry hentry => h.shown entry (hiter.subset hentry)
  shownApart := h.shownApart.sublist (hiter.sublist.map _)

theorem SendRun.Good.work (h : r.Good) : (SendEvent.run P (.work env env') r).Good := by
  rw [SendEvent.run]
  obtain ⟨iter, hiter, hwork, hworked⟩ | ⟨entry, rest, smsg, hiter, hworked, hwork⟩ := r.node.work_cases P env env'
  · rw [hwork, hworked, List.diff_nil]
    exact h.shows hiter
  · have hmem : entry ∈ r.waiting := (h.queue.holds _ _).mp (h.shown entry (by rw [hiter]; exact List.mem_cons_self))
    have hapart := h.shownApart
    rw [hiter, List.map_cons, List.nodup_cons] at hapart
    rw [hwork, hworked, List.diff_cons, List.diff_nil]
    refine ⟨h.queue.erase_entry hmem, h.outbox, ?_, hapart.2⟩
    intro later hlater
    have hne : later.1 ≠ entry.1 := fun heq => hapart.1 (heq ▸ List.mem_map_of_mem hlater)
    show (r.node.sendQueue.erase entry.1).lookup later.1 = some later.2
    rw [AList.lookup_erase_ne hne]
    exact h.shown later (by rw [hiter]; exact List.mem_cons_of_mem _ hlater)


/-- What a send is after it: rejected, or with its entries. -/
theorem SendEvent.run_send (h : c.queueEntry P r.node.smsg = .ok entry) : SendEvent.run P (.send c) r =
    { node := endState (secureMsgSend P c r.node)
      waiting := if c.env.writes then r.waiting ++ [entry] else r.waiting
      sent := r.sent ++ [if c.env'.writes then c.outboxEntry P r.node.smsg else none] } := by
  simp only [SendEvent.run, h]

theorem SendRun.Good.send (h : r.Good) (hfresh : SendEvent.Fresh P (.send c) r) : (SendEvent.run P (.send c) r).Good := by
  cases hentry : c.queueEntry P r.node.smsg with
  | error e =>
    simp only [SendEvent.run, hentry, secureMsgSend_error hentry]
    exact h
  | ok entry =>
    obtain ⟨hqueue, copy, hcopy, hwrites, houtbox⟩ := hfresh entry hentry
    rw [SendEvent.run_send hentry, secureMsgSend_ok hentry, if_pos hwrites, hcopy]
    obtain ⟨copies, hsent, hcopies⟩ := h.outbox
    have hcopied : ∃ copies, r.sent ++ [some copy] = List.map some copies ∧
        Tabled (r.node.outbox.insert copy.1 copy.2) copies := by
      refine ⟨copies ++ [copy], ?_, hcopies.insert houtbox⟩
      rw [hsent, List.map_append]
      rfl
    by_cases hwritten : c.env.writes
    · have hnone := hqueue hwritten
      simp only [if_pos hwritten]
      refine ⟨h.queue.insert hnone, hcopied, ?_, h.shownApart⟩
      intro later hlater
      have hlookup := h.shown later hlater
      have hne : later.1 ≠ entry.1 := by
        intro heq
        rw [heq, hnone] at hlookup
        cases hlookup
      show (r.node.sendQueue.insert entry.1 entry.2).lookup later.1 = some later.2
      rw [AList.lookup_insert_ne hne]
      exact hlookup
    · simp only [if_neg hwritten]
      exact ⟨h.queue, hcopied, h.shown, h.shownApart⟩

/-- Entries of their own are fresh. -/
theorem SendRun.Good.fresh_send (h : r.Good) (hafter : (SendEvent.run P (.send c) r).Durable) : SendEvent.Fresh P (.send c) r := by
  intro entry hentry
  rw [SendEvent.run_send hentry] at hafter
  refine ⟨?_, ?_⟩
  · intro hwritten
    have hapart := hafter.queuedApart
    simp only [if_pos hwritten, List.map_append] at hapart
    refine h.queue.lookup_eq_none.mpr fun hmem => ?_
    exact (List.nodup_append.mp hapart).2.2 _ hmem _ (List.mem_singleton_self _) rfl
  · obtain ⟨copies, hsent, hcopies⟩ := h.outbox
    obtain ⟨copy, hcopy, -⟩ := hafter.copied _ (List.mem_append_right _ (List.mem_singleton_self _))
    by_cases hwrites : c.env'.writes
    · rw [if_pos hwrites] at hcopy
      refine ⟨copy, hcopy, hwrites, hcopies.lookup_eq_none.mpr fun hmem => ?_⟩
      have hapart := hafter.copiedApart
      simp only [if_pos hwrites, List.map_append] at hapart
      refine (List.nodup_append.mp hapart).2.2 (some copy.1) ?_ _ (List.mem_singleton_self _) ?_
      · obtain ⟨old, hold, heq⟩ := List.mem_map.mp hmem
        rw [hsent, List.map_map]
        exact List.mem_map.mpr ⟨old, hold, congrArg some heq⟩
      · rw [Option.mem_def.mp hcopy]
        rfl
    · rw [if_neg hwrites] at hcopy
      cases hcopy

/-- **An event keeps the tables** where what is sent is fresh. -/
theorem SendEvent.good_run (event : SendEvent) (r : SendRun) (h : r.Good) (hfresh : event.Fresh P r) :
    (event.run P r).Good := by
  cases event with
  | send c => exact h.send hfresh
  | beginPass => exact h.beginPass
  | work env env' => exact h.work
  | stop => exact h.shows List.nil_suffix
  | other call => exact ⟨h.queue, h.outbox, h.shown, h.shownApart⟩

/-- After an event every message has its entry exactly where what is sent is
fresh. -/
theorem SendEvent.durable_iff (event : SendEvent) (r : SendRun) (h : r.Good) :
    (event.run P r).Durable ↔ event.Fresh P r := by
  constructor
  · intro hafter
    cases event with
    | send c => exact h.fresh_send hafter
    | beginPass => trivial
    | work env env' => trivial
    | stop => trivial
    | other call => trivial
  · intro hfresh
    exact (good_run event r h hfresh).durable

/-- **Send-queue durability**: in every state of a run that begins with empty
tables each queued message is in the queue until it is worked, and each sent
message in the outbox, exactly where every send finds no entry under its keys
and its copy is written. -/
theorem SendEvent.runs_durable_iff {events : List SendEvent} {smsg : Smsg} :
    (∀ n, (play (run P) (events.take n) ⟨⟨smsg, ∅, ∅, []⟩, [], []⟩).Durable) ↔
      Meets (run P) (Fresh P) events ⟨⟨smsg, ∅, ∅, []⟩, [], []⟩ := by
  refine holds_iff_meets (fun _ h => h.durable) durable_iff good_run ?_
  refine ⟨⟨List.nodup_nil, fun _ _ => ?_⟩, ⟨[], rfl, List.nodup_nil, fun _ _ => ?_⟩, ?_, List.nodup_nil⟩
  · simp
  · simp
  · intro entry hentry
    cases hentry

end

/-! ## Two messages of one second -/

namespace SmsgSample

/-- A message to the own address. The payload of the call before was given
back, and its memory is used again. -/
def sending (message : List UInt8) : SendCall where
  env := env
  env' := env
  smsg := blank
  smsgForOutbox := blank
  pPayload := 0x7F0000001000
  pPayloadOutbox := 0x7F0000002000
  mapAddressBook := [(address, true)]
  addressFrom := address
  addressTo := address
  message := message

end SmsgSample

open SmsgSample in
/-- **A message that is replaced**: after two sends of one second, with the
payloads in the same place, two messages wait for the thread, the queue has
the second one only, and so has the outbox. -/
theorem SendEvent.not_durable_hasty : ∃ r, r = play (run params)
    [.send (sending [104, 105]), .send (sending [104, 111])] ⟨⟨node, ∅, ∅, []⟩, [], []⟩ ∧
    ¬ r.Durable ∧ r.waiting.length = 2 ∧ r.node.sendQueue.keys.length = 1 ∧
    r.sent.length = 2 ∧ r.node.outbox.keys.length = 1 := by
  refine ⟨_, rfl, ?_, ?_, ?_, ?_, ?_⟩
  · intro hdurable
    exact absurd hdurable.queuedApart (by decide +kernel)
  · decide +kernel
  · decide +kernel
  · decide +kernel
  · decide +kernel

end Pinkcoin
