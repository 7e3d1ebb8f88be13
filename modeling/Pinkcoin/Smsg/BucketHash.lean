/-
The hashes of the buckets after messages are stored. `SecureMsgReceive` hashes
the bucket a bunch is announced for, and each message goes to the bucket of its
own time. A bucket that was only looked up is empty and has the hash 0.
-/
import Pinkcoin.Lib.Runs
import Pinkcoin.Smsg.Sealed
import Pinkcoin.Smsg.StoreFacts

namespace Pinkcoin

open StateError Runs

/-! ## Buckets with their hash -/

/-- A bucket that was looked up, and never hashed. -/
def SecMsgBucket.NeverHashed (bucket : SecMsgBucket) : Prop := bucket.setTokens.toList = [] ∧ bucket.hash = 0

/-- The samples of a bucket, in order. -/
def SecMsgBucket.samples (bucket : SecMsgBucket) : List (Bytes 8) := bucket.setTokens.toList.map SecMsgToken.sample

namespace Smsg

/-- Every stored hash is the hash of the tokens. -/
def AllHashed (s : Smsg) : Prop := ∀ time bucket, s.smsgBuckets.lookup time = some bucket → bucket.Hashed

/-- The bucket was looked up, and never hashed. -/
def New (s : Smsg) (time : Int) : Prop := ∃ bucket, s.smsgBuckets.lookup time = some bucket ∧ bucket.NeverHashed

/-- Every stored hash is the hash of the tokens, where it was computed. -/
def Settled (s : Smsg) : Prop := ∀ time bucket, s.smsgBuckets.lookup time = some bucket → bucket.Hashed ∨ bucket.NeverHashed

/-- Two nodes have equal hashes of a bucket only with equal samples, unless
these have one hash. -/
def HashesTell (s s' : Smsg) : Prop := ∀ time bucket bucket',
  s.smsgBuckets.lookup time = some bucket → s'.smsgBuckets.lookup time = some bucket' →
    (bucket.setTokens.hash = bucket'.setTokens.hash → bucket.samples = bucket'.samples) →
      bucket.hash = bucket'.hash → bucket.samples = bucket'.samples

/-- Only the bucket of `time` may have changed. -/
def OnlyAt (time : Int) (s s' : Smsg) : Prop := ∀ time' ≠ time, s'.smsgBuckets.lookup time' = s.smsgBuckets.lookup time'

variable {s s' s'' : Smsg} {time : Int}

theorem AllHashed.settled (h : s.AllHashed) : s.Settled := fun time bucket hb => .inl (h time bucket hb)

theorem Settled.of_buckets (h : s.Settled) (hb : s'.smsgBuckets = s.smsgBuckets) : s'.Settled := fun time bucket hl =>
  h time bucket (by rwa [← hb])

theorem settled_of_empty (h : s.smsgBuckets = ∅) : s.Settled := by
  intro time bucket hb
  rw [h, AList.lookup_empty] at hb
  simp at hb

instance : Std.Refl (OnlyAt time) := ⟨fun _ _ _ => rfl⟩
instance : IsTrans Smsg (OnlyAt time) := ⟨fun _ _ _ h h' time' hne => (h' time' hne).trans (h time' hne)⟩

theorem onlyAt_of_buckets (h : s'.smsgBuckets = s.smsgBuckets) : OnlyAt time s s' := fun _ _ => by rw [h]

theorem onlyAt_updateBucket (f : SecMsgBucket → SecMsgBucket) : OnlyAt time s (s.updateBucket time f) := fun _ hne => by
  rw [lookup_updateBucket, if_neg hne]

/-- A change of a bucket that leaves it hashed, or new. -/
theorem Settled.updateBucket (h : s.Settled) {f : SecMsgBucket → SecMsgBucket}
    (hf : ∀ bucket, bucket.Hashed ∨ bucket.NeverHashed → (f bucket).Hashed ∨ (f bucket).NeverHashed) :
    (s.updateBucket time f).Settled := by
  intro time' bucket hb
  rw [lookup_updateBucket] at hb
  split at hb
  next =>
    obtain rfl := Option.some.inj hb
    refine hf _ ?_
    unfold bucketAt
    cases hl : s.smsgBuckets.lookup time with
    | none => exact .inr ⟨rfl, rfl⟩
    | some bucket => exact h time bucket hl
  next => exact h time' bucket hb

/-- Hashing the one bucket that changed. -/
theorem allHashed_updateBucket (h : ∀ time' ≠ time, ∀ bucket, s.smsgBuckets.lookup time' = some bucket → bucket.Hashed)
    {f : SecMsgBucket → SecMsgBucket} (hf : ∀ bucket, (f bucket).Hashed) : (s.updateBucket time f).AllHashed := by
  intro time' bucket hb
  rw [lookup_updateBucket] at hb
  split at hb
  next =>
    obtain rfl := Option.some.inj hb
    exact hf _
  next hne => exact h time' hne bucket hb

/-- A bucket that is not new has its hash. -/
theorem Settled.hashed (h : s.Settled) (hnew : ¬ s.New time) {bucket : SecMsgBucket}
    (hb : s.smsgBuckets.lookup time = some bucket) : bucket.Hashed :=
  (h time bucket hb).resolve_right fun hnever => hnew ⟨bucket, hb, hnever⟩

end Smsg

/-! ## When a call hashes what it changes -/

variable (P : SmsgParams)

/-- A message of a bunch goes to the announced bucket, or it is refused and
its bucket is there already. No key fails to be recovered from its signature. -/
structure StaysIn (time : Int) (env : SmsgEnv) (smsg : SecureMessage) (payload : List UInt8) (s : Smsg) : Prop where
  bucket : bucketTime smsg.timestamp.toInt = time ∨ ¬ Arrives env smsg ∨
    (¬ Storable env smsg payload s ∧ (s.smsgBuckets.lookup (bucketTime smsg.timestamp.toInt)).isSome)
  scan : ¬ ScanThrows P env smsg payload s

/-- The call stores messages. -/
def SmsgCall.Stores : SmsgCall → Prop
  | .receive _ _ => True
  | .pow env _ vchMessage => ∃ smsg, secureMsgSetHash P env (bunchMessage env vchMessage 0).1 (bunchMessage env vchMessage 0).2 = .ok smsg
  | _ => False

/-- When a call that stores messages leaves every bucket hashed: the messages
of a bunch stay in the announced bucket, a message of this node can be stored
or its bucket is there, and no other bucket is new. -/
def SmsgCall.HashesAll : SmsgCall → Smsg → Prop
  | .receive envs vchData, s =>
    if s.fSecMsgenabled ∧ bunchInWindow (envs 0) vchData ∧ nBunch vchData ≠ 0 ∧ nBunch vchData ≤ 500 then
      (∀ time, s.New time → time = bktTime vchData) ∧
        EachMessage P (StaysIn P (bktTime vchData)) envs vchData (nBunch vchData) 0 12 s
    else ∀ time, ¬ s.New time
  | .pow env _ vchMessage, s => ∀ smsg,
    secureMsgSetHash P env (bunchMessage env vchMessage 0).1 (bunchMessage env vchMessage 0).2 = .ok smsg →
      (∀ time, s.New time → time = bucketTime smsg.timestamp.toInt) ∧
        (Storable env smsg (bunchMessage env vchMessage 0).2 s ∨
          (¬ s.New (bucketTime smsg.timestamp.toInt) ∧
            (Arrives env smsg → (s.smsgBuckets.lookup (bucketTime smsg.timestamp.toInt)).isSome)))
  | _, _ => True

/-! ## One call -/

section

variable {P} {s s' : Smsg} {env : SmsgEnv} {envs : Nat → SmsgEnv} {time : Int} {smsg : SecureMessage} {payload vchData : List UInt8}

/-- Looking at a bucket that is there changes no bucket. -/
theorem lookup_of_isSome (h : (s.smsgBuckets.lookup time).isSome) (hs' : s'.smsgBuckets = (s.updateBucket time id).smsgBuckets)
    (time' : Int) : s'.smsgBuckets.lookup time' = s.smsgBuckets.lookup time' := by
  obtain ⟨bucket, hbucket⟩ := Option.isSome_iff_exists.mp h
  rw [hs', Smsg.lookup_updateBucket]
  split
  next heq => rw [heq, Smsg.bucketAt, hbucket, Option.getD_some, id]
  next => rfl

theorem onlyAt_secureMsgStore {fUpdateBucket : Bool} (h : StaysIn P time env smsg payload s) :
    s.OnlyAt time (endState (secureMsgStore env smsg payload fUpdateBucket s)) := by
  obtain ⟨hstorable, hrun⟩ | ⟨hstorable, s', hrun, hs'⟩ := secureMsgStore_cases env s smsg payload fUpdateBucket
  · rw [hrun]
    obtain rfl | harrives | ⟨hnot, -⟩ := h.bucket
    · exact fun t ht => lookup_stored_of_ne ht
    · exact absurd hstorable.1 harrives
    · exact absurd hstorable hnot
  · rw [hrun]
    obtain ⟨-, hs'⟩ | ⟨harrives, hs'⟩ := hs'
    · exact Smsg.onlyAt_of_buckets hs'
    · obtain rfl | hnot | ⟨-, hthere⟩ := h.bucket
      · exact fun t ht => by rw [endState_error, hs', Smsg.lookup_updateBucket, if_neg ht]
      · exact absurd harrives hnot
      · exact fun t _ => lookup_of_isSome hthere hs' t

/-- **A bunch that stays in its bucket leaves every bucket hashed.** -/
theorem allHashed_secureMsgReceive (hs : s.Settled) (h : SmsgCall.HashesAll P (.receive envs vchData) s) :
    ((SmsgCall.receive envs vchData).run P s).AllHashed := by
  have hnone : (∀ time, ¬ s.New time) → s.AllHashed := fun hnew time bucket hb => hs.hashed (hnew time) hb
  rw [SmsgCall.run, whenEnabled]
  split
  next henabled =>
    by_cases hwindow : bunchInWindow (envs 0) vchData
    · by_cases hcount : nBunch vchData = 0 ∨ 500 < nBunch vchData
      · -- at most the lock of the bucket is released
        rw [SmsgCall.HashesAll, if_neg fun hand => hcount.elim hand.2.2.1 (Nat.not_lt.mpr hand.2.2.2)] at h
        rw [secureMsgReceive, bind_run (rejectIf_run (not_not.mpr hwindow)), bind_get_run, if_pos hcount]
        cases hb : s.smsgBuckets.lookup (bktTime vchData) with
        | none => exact hnone h
        | some bucket =>
          have hunlock : (s.updateBucket (bktTime vchData) fun bucket => { bucket with nLockCount := 0 }).AllHashed := by
            intro time' bucket' hb'
            rw [Smsg.lookup_updateBucket] at hb'
            split at hb'
            next =>
              rw [Smsg.bucketAt, hb, Option.getD_some] at hb'
              exact Option.some.inj hb' ▸ hnone h _ bucket hb
            next => exact hnone h time' bucket' hb'
          exact hunlock
      · rw [SmsgCall.HashesAll,
          if_pos ⟨henabled, hwindow, fun h0 => hcount (.inl h0), Nat.not_lt.mp fun hlt => hcount (.inr hlt)⟩] at h
        obtain ⟨s', hloop⟩ := receiveLoop_ok h.2 fun _ _ _ _ hstays => hstays.scan
        have honly : s.OnlyAt (bktTime vchData) s' := by
          have hkeeps : s.OnlyAt (bktTime vchData) (endState (receiveLoop P envs vchData (nBunch vchData) 0 12 s)) :=
            receiveLoop_keeps h.2 (fun _ _ _ _ _ => onlyAt_secureMsgStore) fun _ _ hsame => Smsg.onlyAt_of_buckets hsame.buckets
          rwa [hloop] at hkeeps
        have hothers : ∀ time ≠ bktTime vchData, ∀ bucket, s'.smsgBuckets.lookup time = some bucket → bucket.Hashed := by
          intro time hne bucket hb
          exact hs.hashed (fun hnew => hne (h.1 time hnew)) (by rwa [honly time hne] at hb)
        rw [secureMsgReceive, bind_run (rejectIf_run (not_not.mpr hwindow)), bind_get_run, if_neg hcount, bind_run hloop,
          bind_get_run]
        split
        next habsent =>
          intro time bucket hb
          refine hothers time (fun heq => ?_) bucket hb
          have hsome : s'.smsgBuckets.lookup time = some bucket := hb
          rw [← heq, hsome] at habsent
          simp at habsent
        next => exact Smsg.allHashed_updateBucket hothers fun _ => SecMsgBucket.hashed_hashBucket _ _
    · rw [SmsgCall.HashesAll, if_neg fun hand => hwindow hand.2.1] at h
      rw [secureMsgReceive, bind_run_error (rejectIf_run_error hwindow)]
      exact hnone h
  next hdisabled =>
    rw [SmsgCall.HashesAll, if_neg fun hand => hdisabled hand.1] at h
    exact hnone h

/-- A message of this node is stored and its bucket hashed. -/
theorem allHashed_secureMsgStore (hs : s.Settled) (hnew : ∀ time, s.New time → time = bucketTime smsg.timestamp.toInt)
    (h : Storable env smsg payload s ∨ (¬ s.New (bucketTime smsg.timestamp.toInt) ∧
      (Arrives env smsg → (s.smsgBuckets.lookup (bucketTime smsg.timestamp.toInt)).isSome))) :
    (endState (secureMsgStore env smsg payload true s)).AllHashed := by
  obtain ⟨-, hrun⟩ | ⟨hnot, s', hrun, hs'⟩ := secureMsgStore_cases env s smsg payload true
  · rw [hrun]
    exact Smsg.allHashed_updateBucket (fun time hne bucket hb => hs.hashed (fun hn => hne (hnew time hn)) hb)
      fun _ => SecMsgBucket.hashed_hashBucket _ _
  · obtain ⟨hown, hthere⟩ := h.resolve_left hnot
    have hnone : ∀ time, ¬ s.New time := fun time hn => hown (hnew time hn ▸ hn)
    have hbuckets : ∀ time, s'.smsgBuckets.lookup time = s.smsgBuckets.lookup time := by
      intro time
      obtain ⟨-, hs'⟩ | ⟨harrives, hs'⟩ := hs'
      · rw [hs']
      · exact lookup_of_isSome (hthere harrives) hs' time
    intro time bucket hb
    rw [hrun, endState_error, hbuckets] at hb
    exact hs.hashed (hnone time) hb

/-- **A call that stores messages, and may not leave a bucket unhashed, leaves
every bucket hashed.** -/
theorem SmsgCall.allHashed {c : SmsgCall} (hs : s.Settled) (hc : c.Stores P) (h : c.HashesAll P s) : (c.run P s).AllHashed := by
  cases c with
  | receive envs vchData => exact allHashed_secureMsgReceive hs h
  | pow env env' vchMessage =>
    obtain ⟨smsg, hset⟩ := hc
    obtain ⟨hnew, hown⟩ := h smsg hset
    intro time bucket hb
    refine allHashed_secureMsgStore hs hnew hown time bucket ?_
    rwa [run, (powMessage_ok hset).buckets] at hb
  | _ => exact absurd hc id

/-! ## Runs -/

/-- The hashes stay as they are, where they were computed. -/
def KeepsSettled (s s' : Smsg) : Prop := s.Settled → s'.Settled

instance : Std.Refl KeepsSettled := ⟨fun _ h => h⟩
instance : IsTrans Smsg KeepsSettled := ⟨fun _ _ _ h h' hs => h' (h hs)⟩

theorem keepsSettled_locks {f : SecMsgBucket → SecMsgBucket} (hf : OnlyLocks f) : KeepsSettled s (s.updateBucket time f) :=
  fun hs => hs.updateBucket fun bucket h => by
    rw [hf bucket]
    exact h

/-- The buckets go past their time, or their lock ticks down. -/
theorem settled_tickBucket (hs : s.Settled) : (tickBucket env time s).Settled := by
  unfold tickBucket
  cases hb : s.smsgBuckets.lookup time with
  | none => exact hs
  | some bucket =>
    dsimp only
    split
    next =>
      intro time' bucket' hb'
      dsimp only at hb'
      rw [Smsg.smsgBuckets_removeFile, Smsg.smsgBuckets_removeFile] at hb'
      by_cases heq : time' = time
      · rw [heq, AList.lookup_erase] at hb'
        simp at hb'
      · exact hs time' bucket' (by rwa [AList.lookup_erase_ne heq] at hb')
    next =>
      split
      next =>
        intro time' bucket' hb'
        rw [Smsg.setBucket] at hb'
        by_cases heq : time' = time
        · rw [heq, AList.lookup_insert] at hb'
          exact Option.some.inj hb' ▸ hs time bucket hb
        · exact hs time' bucket' (by rwa [AList.lookup_insert_ne heq] at hb')
      next => exact hs

/-- A bucket that is read back from its file has its hash. -/
theorem settled_buildBucket (f : SmsgFile) (hs : s.Settled) : (buildBucket env f s).Settled := by
  unfold buildBucket
  split
  next => exact hs.of_buckets Smsg.smsgBuckets_removeFile
  next =>
    cases f with
    | wl time => exact hs
    | dat time =>
      dsimp only
      split
      next => exact hs.updateBucket fun _ _ => .inl (SecMsgBucket.hashed_hashBucket _ _)
      next => exact hs.updateBucket fun _ h => h

theorem settled_whenEnabled {α : Type} {x : SmsgM α} (h : Keeps KeepsSettled x) (hs : s.Settled) : (whenEnabled x s).Settled := by
  unfold whenEnabled
  split
  · exact h s hs
  · exact hs

/-- Every call keeps the hashes of the buckets, where they were computed. -/
theorem SmsgCall.settled {c : SmsgCall} (hs : s.Settled) (h : c.HashesAll P s) : (c.run P s).Settled := by
  cases c with
  | receive envs vchData => exact (allHashed_secureMsgReceive hs h).settled
  | pow env env' vchMessage =>
    cases hset : secureMsgSetHash P env (bunchMessage env vchMessage 0).1 (bunchMessage env vchMessage 0).2 with
    | ok smsg =>
      have hc : (SmsgCall.pow env env' vchMessage).Stores P := ⟨smsg, hset⟩
      exact (SmsgCall.allHashed hs hc h).settled
    | error e =>
      rw [run, powMessage_error hset]
      exact hs
  | inv env ignoreUntil vchData => exact settled_whenEnabled (keeps_smsgInv (fun _ _ _ => keepsSettled_locks) ignoreUntil) hs
  | «have» env nPeerId vchData => exact settled_whenEnabled (keeps_smsgHave (fun _ _ _ => keepsSettled_locks) nPeerId) hs
  | thread env => exact List.foldlRecOn _ _ hs fun s hs time _ => settled_tickBucket hs
  | scanBucket envs f => exact hs.of_buckets (keeps_scanBucket envs f s)
  | scanUnlocked envs f => exact hs.of_buckets (keeps_scanUnlocked envs f s)
  | dump env => exact Smsg.settled_of_empty rfl
  | disable =>
    rw [run, secureMsgDisable]
    split
    · exact Smsg.settled_of_empty rfl
    · exact hs
  | start env smsgAddresses =>
    exact List.foldlRecOn _ _ (Smsg.settled_of_empty rfl) fun s hs f _ => settled_buildBucket f hs
  | aside smsgAddresses pubkeys inbox => exact hs.of_buckets rfl

/-- **After every call that stores messages every bucket has the hash of its
tokens**, in every run whose calls leave no bucket unhashed. Two nodes after
such calls have equal hashes of a bucket only with equal samples, as far as
these do not collide. -/
theorem SmsgCall.runs_allHashed {calls : List SmsgCall} {c : SmsgCall} (hs : s.smsgBuckets = ∅) (hc : c.Stores P)
    (h : Meets (SmsgCall.run P) (SmsgCall.HashesAll P) (calls ++ [c]) s) :
    (play (SmsgCall.run P) (calls ++ [c]) s).AllHashed ∧
      ∀ s' : Smsg, s'.AllHashed → (play (SmsgCall.run P) (calls ++ [c]) s).HashesTell s' := by
  have hall : (play (SmsgCall.run P) (calls ++ [c]) s).AllHashed := by
    obtain ⟨hcalls, hlast, -⟩ := meets_append.mp h
    rw [play_append]
    exact SmsgCall.allHashed (hcalls.keeps (fun _ _ => SmsgCall.settled) (Smsg.settled_of_empty hs)) hc hlast
  refine ⟨hall, fun s' hall' time bucket bucket' hb hb' hcollision heq => hcollision ?_⟩
  exact (hall time bucket hb).symm.trans (heq.trans (hall' time bucket' hb'))

end

namespace SmsgSample

/-- A bunch of one message, announced for a bucket. -/
def bunch (time : Nat) : List UInt8 := CScript.leBytes 4 1 ++ (CScript.leBytes 8 time ++ (posted.bytes ++ written.2))

/-- The message of the bunch. -/
def sent : SecureMessage × List UInt8 := bunchMessage env (bunch 1500000000) 12

/-- The node after it was started. -/
def started : Smsg := { node with fSecMsgenabled := true }

theorem nBunch_bunch : nBunch (bunch 1500000000) = 1 := by decide +kernel

theorem sent_valid : secureMsgValidate params sent.1 sent.2 sent.1.nPayload.toNat = .ok () := by decide +kernel

theorem sent_new : ¬ started.Knows sent.1 sent.2 := fun ⟨_, hmem, _⟩ => OrderedSet.notMem_empty hmem

theorem sent_stored : secureMsgStore env sent.1 sent.2 false started = .ok () (started.stored env sent.1 sent.2 false) :=
  secureMsgStore_of_writes (by decide +kernel) sent_new ⟨rfl, rfl, rfl⟩

/-- The messages of the bunch are the one. -/
theorem eachMessage_bunch {Q : SmsgEnv → SecureMessage → List UInt8 → Smsg → Prop} (h : Q env sent.1 sent.2 started) :
    EachMessage params Q (fun _ => env) (bunch 1500000000) (nBunch (bunch 1500000000)) 0 12 started := by
  rw [nBunch_bunch, EachMessage]
  refine .inr ?_
  have hvalid := sent_valid
  have hstore := sent_stored
  unfold sent at hvalid hstore
  simp only [hvalid, hstore]
  exact ⟨h, trivial⟩

/-- A bunch for the bucket of its message, received by a node that was just
started. -/
theorem meets_receive : Meets (SmsgCall.run params) (SmsgCall.HashesAll params)
    ([.start env []] ++ [.receive (fun _ => env) (bunch 1500000000)]) node := by
  refine ⟨trivial, ?_, trivial⟩
  have hs : (SmsgCall.start env []).run params node = started := rfl
  rw [hs, SmsgCall.HashesAll, if_pos (by decide +kernel)]
  refine ⟨fun time ⟨_, hb, _⟩ => absurd hb (by simp [started, node]), eachMessage_bunch ⟨.inl (by decide +kernel), ?_⟩⟩
  intro ⟨s', s'', hs', hthrows⟩
  obtain ⟨-, rfl⟩ := EStateM.Result.ok.inj (sent_stored.symm.trans hs')
  exact absurd hthrows nofun

end SmsgSample

/-- A bunch of one message. -/
theorem runs_allHashed_sample :
    (play (SmsgCall.run SmsgSample.params)
      ([.start SmsgSample.env []] ++ [.receive (fun _ => SmsgSample.env) (SmsgSample.bunch 1500000000)]) SmsgSample.node).AllHashed ∧
    ∀ s' : Smsg, s'.AllHashed → (play (SmsgCall.run SmsgSample.params)
      ([.start SmsgSample.env []] ++ [.receive (fun _ => SmsgSample.env) (SmsgSample.bunch 1500000000)])
        SmsgSample.node).HashesTell s' :=
  SmsgCall.runs_allHashed rfl trivial SmsgSample.meets_receive

/-- **A stale hash.** A message that comes in a bunch for the bucket before
its own leaves its bucket unhashed. -/
theorem not_allHashed_receive : ¬ (play (SmsgCall.run SmsgSample.params)
    ([.start SmsgSample.env []] ++ [.receive (fun _ => SmsgSample.env) (SmsgSample.bunch 1499999400)]) SmsgSample.node).AllHashed := by
  intro h
  exact absurd (fun bucket hb => h 1500000000 bucket hb) (by decide +kernel : ¬ ∀ bucket ∈ (play (SmsgCall.run SmsgSample.params)
    ([.start SmsgSample.env []] ++ [.receive (fun _ => SmsgSample.env) (SmsgSample.bunch 1499999400)])
      SmsgSample.node).smsgBuckets.lookup 1500000000, bucket.Hashed)

end Pinkcoin
