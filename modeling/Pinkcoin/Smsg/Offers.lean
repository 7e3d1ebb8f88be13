/-
The inventories two nodes send each other: which buckets a node tells a peer
about, what the peer's reply makes of it, and whether a bucket that changes is
told again.
-/
import Mathlib.Logic.Function.Basic
import Pinkcoin.Smsg.BucketHash

namespace Pinkcoin

open CScript (leBytes)
open Runs
open StateError

/-! ## Inventories -/

/-- `SecMsgNode`: what a node keeps about a peer. -/
structure SmsgPeer where
  lastSeen : Int
  lastMatched : Int
  ignoreUntil : Int
  nWakeCounter : Nat
  fEnabled : Bool
  deriving DecidableEq

/-- The constructor. -/
def SmsgPeer.new : SmsgPeer := ⟨0, 0, 0, 0, false⟩

/-- The header of a bucket in a `smsgInv`. -/
structure InvHeader where
  time : Int
  nMessages : Nat
  hash : BitVec 32
  deriving DecidableEq

/-- The messages two peers send each other about their buckets. -/
inductive SmsgMessage
  | smsgPing
  | smsgPong
  | smsgInv (headers : List InvHeader)
  | smsgShow (times : List Int)
  | smsgMatch (time : Int)
  deriving DecidableEq

/-- The data of a `smsgInv`. -/
def invData (headers : List InvHeader) : List UInt8 :=
  leBytes 4 headers.length ++ headers.flatMap fun header =>
    leBytes 8 (BitVec.ofInt 64 header.time).toNat ++ (leBytes 4 header.nMessages ++ leBytes 4 header.hash.toNat)

/-- A bucket as a peer is told of it, unless it is empty or the peer has it. -/
def invHeader (lastMatched time : Int) (bkt : SecMsgBucket) : Option InvHeader :=
  if bkt.timeChanged < lastMatched ∨ bkt.setTokens.toList.length < 1 then none
  else some ⟨time, bkt.setTokens.toList.length, bkt.hash⟩

/-- The loop of `SecureMsgSendData` over the buckets, in the order of their
times. -/
def inventory (s : Smsg) (lastMatched : Int) : List InvHeader :=
  (s.smsgBuckets.keys.insertionSort (· ≤ ·)).filterMap fun time => (s.smsgBuckets.lookup time).bind (invHeader lastMatched time)

/-- `SMSG_SEND_DELAY`. -/
def SMSG_SEND_DELAY : Int := 2

/-- `SecureMsgSendData`, which ends at the time `seen`; `nRand` is what
`GetRandInt(300)` returns. -/
def secureMsgSendData (env : SmsgEnv) (nRand : Nat) (seen : Int) (s : Smsg) (pto : SmsgPeer) :
    SmsgPeer × Option SmsgMessage :=
  if pto.lastSeen = 0 then ({ pto with lastSeen := seen }, some .smsgPing)
  else if ¬ pto.fEnabled ∨ env.adjustedTime - pto.lastSeen < SMSG_SEND_DELAY ∨ env.adjustedTime < pto.ignoreUntil then
    (pto, none)
  else
    let pto := if pto.nWakeCounter < 1 then { pto with lastMatched := 0, nWakeCounter := 10 + nRand } else pto
    let headers := inventory s pto.lastMatched
    ({ pto with nWakeCounter := pto.nWakeCounter - 1, lastSeen := seen },
      if headers = [] then none else some (.smsgInv headers))

/-- The time a `smsgMatch` sets: the peer's, or now where that is too far in
the future. -/
def matchTime (env : SmsgEnv) (time : Int) : Int :=
  if env.adjustedTime + SMSG_TIME_LEEWAY < time then env.adjustedTime else time

/-! ## Two nodes and their messages -/

/-- One end of a link: the node, what it keeps about the other one, and, for
what is said about them, the buckets that changed since they were in an
inventory to the peer, and the inventories sent so far. -/
structure SmsgEnd where
  node : Smsg
  peer : SmsgPeer
  changed : List Int
  sent : List (List InvHeader)

/-- The buckets whose tokens are others. -/
def changedTimes (s s' : Smsg) : List Int :=
  s'.smsgBuckets.keys.filter fun time => (s'.bucketAt time).setTokens.toList ≠ (s.bucketAt time).setTokens.toList

namespace SmsgEnd

/-- The node does something that is no part of the exchange of inventories:
it receives messages from any peer, stores its own, drops expired ones. -/
def store (P : SmsgParams) (call : SmsgCall) (e : SmsgEnd) : SmsgEnd :=
  { e with
    node := call.run P e.node
    changed := e.changed ++ changedTimes e.node (call.run P e.node) }

/-- A turn of the peer in the loop that sends. -/
def send (env : SmsgEnv) (nRand : Nat) (seen : Int) (e : SmsgEnd) : SmsgEnd × List SmsgMessage :=
  if ¬ e.node.fSecMsgenabled then (e, [])
  else
    let (peer, message) := secureMsgSendData env nRand seen e.node e.peer
    match message with
    | some (.smsgInv headers) =>
      ({ e with
        peer := peer
        changed := e.changed.filter fun time => time ∉ headers.map InvHeader.time
        sent := headers :: e.sent }, [.smsgInv headers])
    | some message => ({ e with peer := peer }, [message])
    | none => ({ e with peer := peer }, [])

/-- `SecureMsgReceiveData`, for the messages about buckets. What a `smsgShow`
is answered with changes nothing here. -/
def receive (env : SmsgEnv) (message : SmsgMessage) (e : SmsgEnd) : SmsgEnd × List SmsgMessage :=
  if ¬ e.node.fSecMsgenabled then (e, [])
  else
    match message with
    | .smsgPing => (e, [.smsgPong])
    | .smsgPong => ({ e with peer := { e.peer with fEnabled := true } }, [])
    | .smsgInv headers =>
      match smsgInv env e.peer.ignoreUntil (invData headers) e.node with
      | .ok (.smsgShow times) node => ({ e with node := node }, [.smsgShow times])
      | .ok (.smsgMatch now) node => ({ e with node := node }, [.smsgMatch now])
      | .ok .nothing node => ({ e with node := node }, [])
      | .error _ node => ({ e with node := node }, [])
    | .smsgShow _ => (e, [])
    | .smsgMatch time => ({ e with peer := { e.peer with lastMatched := matchTime env time } }, [])

end SmsgEnd

/-- Two nodes, and the messages on their way to each. -/
structure SmsgLink where
  ends : Bool → SmsgEnd
  inFlight : Bool → List SmsgMessage

/-- What happens: at a node alone, a turn of the peer, a message that arrives,
whichever it is of those on their way, or a peer that is ignored for a time. -/
inductive LinkEvent
  | store (side : Bool) (call : SmsgCall)
  | send (side : Bool) (env : SmsgEnv) (nRand : Nat) (seen : Int)
  | deliver (side : Bool) (env : SmsgEnv) (i : Nat)
  | ignore (side : Bool) (ignoreUntil : Int)

namespace LinkEvent

/-- An end and what it sends, put in its place. -/
def put (side : Bool) (l : SmsgLink) (result : SmsgEnd × List SmsgMessage) : SmsgLink where
  ends := Function.update l.ends side result.1
  inFlight := Function.update l.inFlight (!side) (l.inFlight (!side) ++ result.2)

/-- The state after an event. -/
def run (P : SmsgParams) : LinkEvent → SmsgLink → SmsgLink
  | store side call, l => put side l ((l.ends side).store P call, [])
  | send side env nRand seen, l => put side l ((l.ends side).send env nRand seen)
  | deliver side env i, l =>
    match (l.inFlight side)[i]? with
    | none => l
    | some message =>
      put side { l with inFlight := Function.update l.inFlight side ((l.inFlight side).eraseIdx i) }
        ((l.ends side).receive env message)
  | ignore side ignoreUntil, l =>
    put side l ({ l.ends side with peer := { (l.ends side).peer with ignoreUntil := ignoreUntil } }, [])

end LinkEvent

/-! ## No lost update -/

/-- **Every bucket that changed since it was in an inventory**, and is still
there, is in the next one the node sends to the peer, with its size and hash. -/
def SmsgEnd.Offers (e : SmsgEnd) : Prop :=
  ∀ time ∈ e.changed, ∀ bkt, e.node.smsgBuckets.lookup time = some bkt → bkt.setTokens.toList ≠ [] →
    ∀ env nRand seen peer headers, secureMsgSendData env nRand seen e.node e.peer = (peer, some (.smsgInv headers)) →
      ⟨time, bkt.setTokens.toList.length, bkt.hash⟩ ∈ headers

/-- The clock of a call that hashes buckets. -/
def SmsgCall.clock : SmsgCall → Option Int
  | .receive envs vchData => some (envs (nBunch vchData)).adjustedTime
  | .pow env _ _ => some env.adjustedTime
  | .start env _ => some env.adjustedTime
  | _ => none

/-- The messages of a bunch stay in the bucket it is announced for. -/
def SmsgCall.Announced (P : SmsgParams) : SmsgCall → Smsg → Prop
  | .receive envs vchData, s =>
    s.fSecMsgenabled → bunchInWindow (envs 0) vchData → nBunch vchData ≠ 0 → nBunch vchData ≤ 500 →
      EachMessage P (StaysIn P (bktTime vchData)) envs vchData (nBunch vchData) 0 12 s
  | _, _ => True

/-- When an event loses no change: a bucket changes at a time not before the
time the peer is said to have matched, and a bunch stays in its bucket; and a
match is not later than any change the peer was not told of. -/
def LinkEvent.Timely (P : SmsgParams) : LinkEvent → SmsgLink → Prop
  | store side call, l =>
    call.Announced P (l.ends side).node ∧ ∀ clock ∈ call.clock, 0 ≤ clock ∧ (l.ends side).peer.lastMatched ≤ clock
  | deliver side env i, l => ∀ time, (l.inFlight side)[i]? = some (.smsgMatch time) →
    ∀ changed ∈ (l.ends side).changed, ∀ bkt, (l.ends side).node.smsgBuckets.lookup changed = some bkt →
      bkt.setTokens.toList ≠ [] → matchTime env time ≤ bkt.timeChanged
  | _, _ => True

/-! ## What is sent -/

section

variable {s s' s'' : Smsg} {pto peer : SmsgPeer} {env : SmsgEnv} {nRand : Nat} {seen lastMatched time : Int}
  {headers : List InvHeader} {bkt : SecMsgBucket}

theorem mem_inventory (hb : s.smsgBuckets.lookup time = some bkt) (htokens : bkt.setTokens.toList ≠ [])
    (hmatched : lastMatched ≤ bkt.timeChanged) : ⟨time, bkt.setTokens.toList.length, bkt.hash⟩ ∈ inventory s lastMatched := by
  have hkey : time ∈ s.smsgBuckets.keys := AList.mem_keys.mp (AList.lookup_isSome.mp (by rw [hb]; rfl))
  have hlength := List.length_pos_iff.mpr htokens
  refine List.mem_filterMap.mpr ⟨time, (List.mem_insertionSort _).mpr hkey, ?_⟩
  rw [hb, Option.bind_some, invHeader, if_neg (by omega)]

/-- What the turn of a peer leaves of the time it matched, and that what is
sent is the inventory of that time. -/
theorem secureMsgSendData_cases (env : SmsgEnv) (nRand : Nat) (seen : Int) (s : Smsg) (pto : SmsgPeer) :
    ((secureMsgSendData env nRand seen s pto).1.lastMatched = pto.lastMatched ∨
      (secureMsgSendData env nRand seen s pto).1.lastMatched = 0) ∧
    ∀ headers, (secureMsgSendData env nRand seen s pto).2 = some (.smsgInv headers) →
      headers = inventory s (secureMsgSendData env nRand seen s pto).1.lastMatched := by
  unfold secureMsgSendData
  split
  · refine ⟨.inl rfl, ?_⟩
    intro headers hsent
    cases hsent
  · split
    · refine ⟨.inl rfl, ?_⟩
      intro headers hsent
      cases hsent
    · obtain ⟨woken, hwoken⟩ : ∃ woken, (if pto.nWakeCounter < 1 then
          { pto with lastMatched := 0, nWakeCounter := 10 + nRand } else pto) = woken := ⟨_, rfl⟩
      have hmatched : woken.lastMatched = pto.lastMatched ∨ woken.lastMatched = 0 := by
        rw [← hwoken]
        split
        · exact .inr rfl
        · exact .inl rfl
      simp only [hwoken]
      refine ⟨hmatched, ?_⟩
      intro headers hsent
      by_cases hnone : inventory s woken.lastMatched = []
      · rw [if_pos hnone] at hsent
        cases hsent
      · rw [if_neg hnone] at hsent
        exact (SmsgMessage.smsgInv.inj (Option.some.inj hsent)).symm

end

/-! ## What the calls of the message store do to the times of the buckets -/

/-- A bucket with tokens is as it was, or its time is the clock's. -/
def Restamped (clock : Option Int) (s s' : Smsg) : Prop :=
  ∀ time bkt', s'.smsgBuckets.lookup time = some bkt' → bkt'.setTokens.toList = [] ∨ bkt'.timeChanged ∈ clock ∨
    ∃ bkt, s.smsgBuckets.lookup time = some bkt ∧ bkt'.setTokens = bkt.setTokens ∧ bkt'.timeChanged = bkt.timeChanged

namespace Restamped

variable {clock : Option Int} {s s' s'' : Smsg} {time : Int}

theorem refl : Restamped clock s s := fun _ bkt hb => .inr (.inr ⟨bkt, hb, rfl, rfl⟩)

theorem trans (h : Restamped clock s s') (h' : Restamped clock s' s'') : Restamped clock s s'' := by
  intro time bkt'' hb''
  rcases h' time bkt'' hb'' with hempty | hclock | ⟨bkt', hb', htokens', htime'⟩
  · exact .inl hempty
  · exact .inr (.inl hclock)
  · rw [htokens', htime']
    exact h time bkt' hb'

instance : Std.Refl (Restamped clock) := ⟨fun _ => refl⟩
instance : IsTrans Smsg (Restamped clock) := ⟨fun _ _ _ => trans⟩

theorem of_buckets (h : ∀ time bkt', s'.smsgBuckets.lookup time = some bkt' → s.smsgBuckets.lookup time = some bkt') :
    Restamped clock s s' := fun time bkt' hb => .inr (.inr ⟨bkt', h time bkt' hb, rfl, rfl⟩)

/-- A bucket that is changed as `f` does. -/
theorem updateBucket {f : SecMsgBucket → SecMsgBucket}
    (hf : ∀ bkt, (f bkt).setTokens.toList = [] ∨ (f bkt).timeChanged ∈ clock ∨
      (f bkt).setTokens = bkt.setTokens ∧ (f bkt).timeChanged = bkt.timeChanged) :
    Restamped clock s (s.updateBucket time f) := by
  intro time' bkt' hb'
  rw [Smsg.lookup_updateBucket] at hb'
  split at hb'
  next heq =>
    obtain rfl := Option.some.inj hb'
    rcases hf (s.bucketAt time) with hempty | hclock | ⟨htokens, htime⟩
    · exact .inl hempty
    · exact .inr (.inl hclock)
    · cases hl : s.smsgBuckets.lookup time with
      | none =>
        refine .inl ?_
        rw [htokens, Smsg.bucketAt, hl]
        rfl
      | some bkt =>
        refine .inr (.inr ⟨bkt, heq ▸ hl, ?_⟩)
        rw [htokens, htime, Smsg.bucketAt, hl]
        exact ⟨rfl, rfl⟩
  next => exact .inr (.inr ⟨bkt', hb', rfl, rfl⟩)

theorem locks {f : SecMsgBucket → SecMsgBucket} (hf : OnlyLocks f) : Restamped clock s (s.updateBucket time f) :=
  updateBucket fun bkt => .inr (.inr (by rw [hf bkt]; exact ⟨rfl, rfl⟩))

theorem hashed {now : Int} (hnow : now ∈ clock) {f : SecMsgBucket → SecMsgBucket}
    (hf : ∀ bkt, (f bkt).timeChanged = now) : Restamped clock s (s.updateBucket time f) :=
  updateBucket fun bkt => .inr (.inl (by rw [hf bkt]; exact hnow))

end Restamped

section

variable {P : SmsgParams} {env env' : SmsgEnv} {envs : Nat → SmsgEnv} {vchData vchMessage : List UInt8} {s : Smsg}
  {clock : Option Int} {time : Int}

/-- Away from the announced bucket nothing changed. -/
theorem restamped_of_onlyAt {s s' s'' : Smsg} (honly : Smsg.OnlyAt time s s')
    (hlast : ∀ bkt'', s''.smsgBuckets.lookup time = some bkt'' → bkt''.timeChanged ∈ clock)
    (hothers : Smsg.OnlyAt time s' s'') : Restamped clock s s'' := by
  intro time' bkt'' hb''
  by_cases heq : time' = time
  · subst heq
    exact .inr (.inl (hlast bkt'' hb''))
  · rw [hothers time' heq, honly time' heq] at hb''
    exact .inr (.inr ⟨bkt'', hb'', rfl, rfl⟩)

/-- **A bunch that stays in its bucket** gives the bucket the time of the
clock. -/
theorem restamped_receive (h : (SmsgCall.receive envs vchData).Announced P s) :
    Restamped (some (envs (nBunch vchData)).adjustedTime) s ((SmsgCall.receive envs vchData).run P s) := by
  rw [SmsgCall.run, whenEnabled]
  split
  next henabled =>
    by_cases hwindow : bunchInWindow (envs 0) vchData
    · rw [secureMsgReceive, bind_run (rejectIf_run (not_not.mpr hwindow)), bind_get_run]
      by_cases hcount : nBunch vchData = 0 ∨ 500 < nBunch vchData
      · rw [if_pos hcount]
        cases hb : s.smsgBuckets.lookup (bktTime vchData) with
        | none => exact .refl
        | some bkt =>
          have honly : OnlyLocks fun bkt => { bkt with nLockCount := 0 } := fun _ => rfl
          exact .locks honly
      · have hloops := h henabled hwindow (fun h0 => hcount (.inl h0)) (Nat.not_lt.mp fun hlt => hcount (.inr hlt))
        obtain ⟨s', hloop⟩ := receiveLoop_ok hloops fun _ _ _ _ hstays => hstays.scan
        have honly : s.OnlyAt (bktTime vchData) s' := by
          have hkeeps : s.OnlyAt (bktTime vchData) (endState (receiveLoop P envs vchData (nBunch vchData) 0 12 s)) :=
            receiveLoop_keeps hloops (fun _ _ _ _ _ => onlyAt_secureMsgStore) fun _ _ hsame => Smsg.onlyAt_of_buckets hsame.buckets
          rwa [hloop] at hkeeps
        rw [if_neg hcount, bind_run hloop, bind_get_run]
        by_cases habsent : (s'.smsgBuckets.lookup (bktTime vchData)).isNone
        · rw [if_pos habsent]
          refine restamped_of_onlyAt honly ?_ (fun _ _ => rfl)
          intro bkt'' hb''
          have hsome : s'.smsgBuckets.lookup (bktTime vchData) = some bkt'' := hb''
          rw [hsome] at habsent
          cases habsent
        · rw [if_neg habsent]
          obtain ⟨f, hf⟩ : ∃ f : SecMsgBucket → SecMsgBucket, f = fun bkt =>
              SecMsgBucket.hashBucket (envs (nBunch vchData)).adjustedTime { bkt with nLockCount := 0, nLockPeerId := 0 } :=
            ⟨_, rfl⟩
          have hlast : Restamped (some (envs (nBunch vchData)).adjustedTime) s (s'.updateBucket (bktTime vchData) f) := by
            refine restamped_of_onlyAt honly ?_ (Smsg.onlyAt_updateBucket f)
            intro bkt'' hb''
            rw [Smsg.lookup_updateBucket, if_pos rfl] at hb''
            rw [← Option.some.inj hb'', hf]
            rfl
          rw [hf] at hlast
          exact hlast
    · rw [secureMsgReceive, bind_run_error (rejectIf_run_error hwindow)]
      exact .refl
  next => exact .refl

/-- A message of this node gives its bucket the time of the clock. -/
theorem restamped_pow : Restamped (some env.adjustedTime) s (endState (powMessage P env env' vchMessage s)) := by
  cases hset : secureMsgSetHash P env (bunchMessage env vchMessage 0).1 (bunchMessage env vchMessage 0).2 with
  | error e =>
    rw [powMessage_error hset]
    exact .refl
  | ok smsg =>
    have hstored : Restamped (some env.adjustedTime) s
        (endState (secureMsgStore env smsg (bunchMessage env vchMessage 0).2 true s)) := by
      obtain ⟨-, hrun⟩ | ⟨-, s', hrun, hs'⟩ := secureMsgStore_cases env s smsg (bunchMessage env vchMessage 0).2 true
      · rw [hrun]
        exact .hashed (s := s.setFile _ _) rfl fun _ => rfl
      · rw [hrun]
        obtain ⟨-, hs'⟩ | ⟨-, hs'⟩ := hs'
        · exact .of_buckets fun time bkt' hb => by rwa [endState_error, hs'] at hb
        · intro time bkt' hb
          rw [endState_error, hs'] at hb
          exact Restamped.locks (f := id) (fun _ => rfl) time bkt' hb
    refine hstored.trans (.of_buckets fun time bkt' hb => ?_)
    rwa [(powMessage_ok hset).buckets] at hb

theorem restamped_tickBucket : Restamped clock s (tickBucket env time s) := by
  unfold tickBucket
  cases hb : s.smsgBuckets.lookup time with
  | none => exact .refl
  | some bkt =>
    dsimp only
    split
    next =>
      refine .of_buckets fun time' bkt' hb' => ?_
      dsimp only at hb'
      rw [Smsg.smsgBuckets_removeFile, Smsg.smsgBuckets_removeFile] at hb'
      by_cases heq : time' = time
      · rw [heq, AList.lookup_erase] at hb'
        cases hb'
      · rwa [AList.lookup_erase_ne heq] at hb'
    next =>
      split
      next =>
        intro time' bkt' hb'
        rw [Smsg.setBucket] at hb'
        by_cases heq : time' = time
        · rw [heq, AList.lookup_insert] at hb'
          obtain rfl := Option.some.inj hb'
          exact .inr (.inr ⟨bkt, heq ▸ hb, rfl, rfl⟩)
        · rw [AList.lookup_insert_ne heq] at hb'
          exact .inr (.inr ⟨bkt', hb', rfl, rfl⟩)
      next => exact .refl

theorem restamped_buildBucket (f : SmsgFile) : Restamped (some env.adjustedTime) s (buildBucket env f s) := by
  unfold buildBucket
  split
  next => exact .of_buckets fun time' bkt' hb' => by rwa [Smsg.smsgBuckets_removeFile] at hb'
  next =>
    cases f with
    | wl time => exact .refl
    | dat time =>
      dsimp only
      split
      next => exact .hashed rfl fun _ => rfl
      next => exact .locks fun _ => rfl

/-- What each step of a loop keeps, the loop keeps. -/
theorem restamped_foldl {α : Type} {f : Smsg → α → Smsg} (h : ∀ s a, Restamped clock s (f s a)) (l : List α) :
    ∀ s, Restamped clock s (l.foldl f s) := by
  induction l with
  | nil => exact fun _ => .refl
  | cons a l ih => exact fun s => (h s a).trans (ih (f s a))

theorem restamped_whenEnabled {α : Type} {x : SmsgM α} (h : Keeps (Restamped clock) x) :
    Restamped clock s (whenEnabled x s) := by
  unfold whenEnabled
  split
  · exact h s
  · exact .refl

/-- **A call changes no bucket without its time**, if the messages of a bunch
stay in the announced bucket. -/
theorem SmsgCall.restamped (call : SmsgCall) (h : call.Announced P s) : Restamped call.clock s (call.run P s) := by
  cases call with
  | receive envs vchData => exact restamped_receive h
  | pow env env' vchMessage => exact restamped_pow
  | inv env ignoreUntil vchData => exact restamped_whenEnabled (keeps_smsgInv (fun _ _ _ => .locks) ignoreUntil)
  | «have» env nPeerId vchData => exact restamped_whenEnabled (keeps_smsgHave (fun _ _ _ => .locks) nPeerId)
  | thread env => exact restamped_foldl (fun _ _ => restamped_tickBucket) _ s
  | scanBucket envs f => exact .of_buckets fun time bkt' hb => (keeps_scanBucket envs f s) ▸ hb
  | scanUnlocked envs f => exact .of_buckets fun time bkt' hb => (keeps_scanUnlocked envs f s) ▸ hb
  | dump env => exact fun time bkt' hb => absurd hb (by simp [run, dumpBuckets])
  | disable =>
    show Restamped _ s (secureMsgDisable s)
    unfold secureMsgDisable
    split
    · exact fun time bkt' hb => absurd hb (by simp)
    · exact .refl
  | start env smsgAddresses =>
    have hempty : Restamped (some env.adjustedTime) s
        { s with fSecMsgenabled := true, smsgBuckets := ∅, smsgAddresses := smsgAddresses } :=
      fun time bkt' hb => absurd hb (by simp)
    exact hempty.trans (restamped_foldl (fun s f => restamped_buildBucket f) _ _)
  | aside smsgAddresses pubkeys inbox => exact .of_buckets fun _ _ hb => hb

end

/-! ## The changes a peer was not told of -/

namespace SmsgEnd

/-- Every such change is at a time not before the time the peer matched. -/
def Fresh (e : SmsgEnd) : Prop :=
  ∀ time ∈ e.changed, ∀ bkt, e.node.smsgBuckets.lookup time = some bkt → bkt.setTokens.toList ≠ [] →
    0 ≤ bkt.timeChanged ∧ e.peer.lastMatched ≤ bkt.timeChanged

variable {P : SmsgParams} {env : SmsgEnv} {nRand : Nat} {seen : Int} {e : SmsgEnd} {call : SmsgCall} {message : SmsgMessage}

/-- Fresh changes are in the next inventory. -/
theorem Fresh.offers (h : e.Fresh) : e.Offers := by
  intro time htime bkt hb htokens env nRand seen peer headers hsent
  obtain ⟨hpos, hmatched⟩ := h time htime bkt hb htokens
  obtain ⟨hkept, hheaders⟩ := secureMsgSendData_cases env nRand seen e.node e.peer
  rw [hheaders headers (by rw [hsent])]
  refine mem_inventory hb htokens ?_
  rcases hkept with hsame | hwoken
  · omega
  · omega

/-- A bucket that is there with other tokens than before has changed. -/
theorem mem_changedTimes {s s' : Smsg} {time : Int} :
    time ∈ changedTimes s s' ↔ time ∈ s'.smsgBuckets.keys ∧
      (s'.bucketAt time).setTokens.toList ≠ (s.bucketAt time).setTokens.toList := by
  simp [changedTimes]

theorem Fresh.store (h : e.Fresh) (hannounced : call.Announced P e.node)
    (hclock : ∀ clock ∈ call.clock, 0 ≤ clock ∧ e.peer.lastMatched ≤ clock) : (e.store P call).Fresh := by
  intro time htime bkt' hb' htokens'
  rcases call.restamped hannounced time bkt' hb' with hempty | hstamped | ⟨bkt, hb, htokens, hstamp⟩
  · exact absurd hempty htokens'
  · exact hclock _ hstamped
  · rcases List.mem_append.mp htime with hold | hnew
    · rw [hstamp]
      exact h time hold bkt hb (by rwa [← htokens])
    · obtain ⟨-, hother⟩ := mem_changedTimes.mp hnew
      have hlookup' : ((call.run P e.node).bucketAt time) = bkt' := by
        rw [Smsg.bucketAt, show (call.run P e.node).smsgBuckets.lookup time = some bkt' from hb', Option.getD_some]
      rw [hlookup', Smsg.bucketAt, hb, Option.getD_some, htokens] at hother
      exact absurd rfl hother

theorem Fresh.send (h : e.Fresh) : (e.send env nRand seen).1.Fresh := by
  have hkept := (secureMsgSendData_cases env nRand seen e.node e.peer).1
  have hpeer : ∀ time ∈ e.changed, ∀ bkt, e.node.smsgBuckets.lookup time = some bkt → bkt.setTokens.toList ≠ [] →
      0 ≤ bkt.timeChanged ∧ (secureMsgSendData env nRand seen e.node e.peer).1.lastMatched ≤ bkt.timeChanged := by
    intro time htime bkt hb htokens
    obtain ⟨hpos, hmatched⟩ := h time htime bkt hb htokens
    rcases hkept with hsame | hwoken
    · omega
    · omega
  unfold SmsgEnd.send
  split
  · exact h
  · dsimp only
    split
    next =>
      intro time htime
      exact hpeer time (List.mem_filter.mp htime).1
    next => exact hpeer
    next => exact hpeer

/-- A reply to an inventory changes no tokens and no times. -/
theorem Fresh.receive (h : e.Fresh)
    (hmatch : ∀ time, message = .smsgMatch time → ∀ changed ∈ e.changed, ∀ bkt,
      e.node.smsgBuckets.lookup changed = some bkt → bkt.setTokens.toList ≠ [] → matchTime env time ≤ bkt.timeChanged) :
    (e.receive env message).1.Fresh := by
  unfold SmsgEnd.receive
  split
  · exact h
  · cases message with
    | smsgPing => exact h
    | smsgPong => exact h
    | smsgShow times => exact h
    | smsgMatch time =>
      intro changed hchanged bkt hb htokens
      exact ⟨(h changed hchanged bkt hb htokens).1, hmatch time rfl changed hchanged bkt hb htokens⟩
    | smsgInv headers =>
      have hnode : Restamped none e.node (endState (smsgInv env e.peer.ignoreUntil (invData headers) e.node)) :=
        keeps_smsgInv (fun _ _ _ => .locks) e.peer.ignoreUntil e.node
      have hfresh : ∀ node, Restamped none e.node node → ({ e with node := node } : SmsgEnd).Fresh := by
        intro node hkept time htime bkt' hb' htokens'
        rcases hkept time bkt' hb' with hempty | hstamped | ⟨bkt, hb, htokens, hstamp⟩
        · exact absurd hempty htokens'
        · cases hstamped
        · rw [hstamp]
          exact h time htime bkt hb (by rwa [← htokens])
      dsimp only
      split
      next hrun => exact hfresh _ (by rwa [hrun] at hnode)
      next hrun => exact hfresh _ (by rwa [hrun] at hnode)
      next hrun => exact hfresh _ (by rwa [hrun] at hnode)
      next hrun => exact hfresh _ (by rwa [hrun] at hnode)

end SmsgEnd

/-- Both ends are. -/
def SmsgLink.Fresh (l : SmsgLink) : Prop := ∀ side, (l.ends side).Fresh

namespace LinkEvent

variable {P : SmsgParams} {l : SmsgLink}

/-- An end that is put in its place leaves the other one alone. -/
theorem fresh_put {side : Bool} {result : SmsgEnd × List SmsgMessage} (h : l.Fresh) (hresult : result.1.Fresh) :
    (put side l result).Fresh := by
  intro side'
  show (Function.update l.ends side result.1 side').Fresh
  by_cases heq : side' = side
  · subst heq
    rwa [Function.update_self]
  · rw [Function.update_of_ne heq]
    exact h side'

/-- **A timely event** leaves every change fresh that the peer was not told
of. -/
theorem fresh_run (event : LinkEvent) (l : SmsgLink) (h : l.Fresh) (htimely : event.Timely P l) :
    (event.run P l).Fresh := by
  cases event with
  | store side call => exact fresh_put h ((h side).store htimely.1 htimely.2)
  | send side env nRand seen => exact fresh_put h (h side).send
  | ignore side ignoreUntil => exact fresh_put h (h side)
  | deliver side env i =>
    show SmsgLink.Fresh (match (l.inFlight side)[i]? with
      | none => l
      | some message => put side { l with inFlight := Function.update l.inFlight side ((l.inFlight side).eraseIdx i) }
          ((l.ends side).receive env message))
    cases hmessage : (l.inFlight side)[i]? with
    | none => exact h
    | some message =>
      refine fresh_put h ((h side).receive ?_)
      intro time hmatch
      exact htimely time (by rw [hmessage, hmatch])

end LinkEvent

/-! ## A change that is lost -/

namespace SmsgSample

/-- The clock at a time. -/
def envAt (now : Int) : SmsgEnv := { env with adjustedTime := now }

/-- A message that passes the checks of this library. -/
def plainMessage (timestamp : Nat) : SecureMessage :=
  { blank with version := .cons 1 (.cons 1 .nil), timestamp := BitVec.ofNat 64 timestamp, nPayload := 8 }

/-- A peer sends a message for its bucket. -/
def bunchAt (now : Int) (time timestamp : Nat) : SmsgCall :=
  .receive (fun _ => envAt now) (leBytes 4 1 ++ (leBytes 8 time ++
    ((plainMessage timestamp).bytes ++ leBytes 8 timestamp)))

/-- Two nodes that are just connected. -/
def connected : SmsgLink where
  ends _ := ⟨started, .new, [], []⟩
  inFlight _ := []

/-- The left node finds the right one, gets a message and tells of it. -/
def hearing : List LinkEvent := [
  .send true env 0 env.adjustedTime, .deliver false env 0, .deliver true env 0,
  .store true (.receive (fun _ => env) (bunch 1500000000)), .send true env 0 env.adjustedTime]

theorem meets_hearing : Meets (LinkEvent.run params) (LinkEvent.Timely params) hearing connected := by
  refine ⟨trivial, ?_, ?_, ⟨?_, ?_⟩, trivial, trivial⟩
  · intro time hmatch
    cases hmatch
  · intro time hmatch
    cases hmatch
  · intro _ _ _ _
    have hnode : (((play (LinkEvent.run params) (hearing.take 3) connected).ends true).node) = started := rfl
    refine hnode ▸ eachMessage_bunch ⟨.inl (by decide +kernel), ?_⟩
    intro ⟨s', s'', hs', hthrows⟩
    obtain ⟨-, rfl⟩ := EStateM.Result.ok.inj (sent_stored.symm.trans hs')
    exact absurd hthrows nofun
  · intro clock hclock
    obtain rfl := Option.mem_some_iff.mp hclock
    decide +kernel

end SmsgSample

namespace SmsgSample

/-- The left node finds the right one, both get the same old message, and the
left one tells of it. -/
def telling : List LinkEvent := [
  .send true (envAt 1500172690) 0 1500172690, .deliver false (envAt 1500172690) 0, .deliver true (envAt 1500172690) 0,
  .store true (bunchAt 1500172695 1500000000 1500000000), .store false (bunchAt 1500172695 1500000000 1500000000),
  .send true (envAt 1500172700) 200 1500172700]

/-- Before the reply arrives another old message comes in. -/
def changing : LinkEvent := .store true (bunchAt 1500172701 1500000000 1500000060)

/-- The right node replies to the inventory, a new message comes in and is
told of, and the old bucket passes its time. -/
def forgetting : List LinkEvent := [
  .deliver false (envAt 1500172702) 0, .deliver true (envAt 1500172703) 0,
  .store true (bunchAt 1500172705 1500172200 1500172650),
  .send true (envAt 1500172710) 0 1500172710,
  .store true (.thread (envAt 1500172900))]

end SmsgSample

end Pinkcoin
