/-
The tokens of a bucket and the messages in its file. Each message that is
stored is written at the end of the file, and its token keeps the offset; the
buckets are read back from the files when the module starts.
-/
import Pinkcoin.Lib.RecordLog
import Pinkcoin.Smsg.BucketHash

namespace Pinkcoin

open StateError Runs

/-! ## Messages in a file -/

/-- A message as it is stored: the header and the payload. -/
abbrev StoredMessage := SecureMessage × List UInt8

namespace StoredMessage

def bytes (m : StoredMessage) : List UInt8 := m.1.bytes ++ m.2

/-- A message that can be sampled, with the whole payload its header announces,
in the bucket of its time. -/
structure Belongs (time : Int) (m : StoredMessage) : Prop where
  length : m.2.length = m.1.nPayload.toNat
  sample : 8 ≤ m.2.length
  bucket : bucketTime m.1.timestamp.toInt = time

def token (ofs : Nat) (m : StoredMessage) : SecMsgToken := SecMsgToken.ofPayload m.1.timestamp.toInt m.2 ofs

theorem length_bytes (m : StoredMessage) : m.bytes.length = SMSG_HDR_LEN + m.2.length := by
  rw [bytes, List.length_append, SecureMessage.length_bytes]

end StoredMessage

/-- The tokens of the messages of a file. -/
def fileTokens (messages : List StoredMessage) : List SecMsgToken :=
  (RecordLog.index StoredMessage.bytes 0 messages).map fun entry => entry.2.token entry.1

/-- The messages of a bucket: they make up its file, no two of them have the
same time and sample, and their tokens are those of the bucket. -/
structure Indexed (time : Int) (content : List UInt8) (setTokens : TokenSet) (messages : List StoredMessage) : Prop where
  belongs : ∀ m ∈ messages, m.Belongs time
  content : content = RecordLog.log StoredMessage.bytes messages
  distinct : (fileTokens messages).Pairwise fun a b => a.key ≠ b.key
  tokens : ∀ token, token ∈ setTokens ↔ token ∈ fileTokens messages

/-! ## Reading a file back -/

section

variable {time : Int} {content : List UInt8} {setTokens : TokenSet} {m : StoredMessage} {messages : List StoredMessage}

/-- A header is read back where it was written. -/
theorem readHeader_eq (before after : List UInt8) (smsg : SecureMessage) :
    readHeader (before ++ (smsg.bytes ++ after)) before.length = some smsg := by
  have htake : ((before ++ (smsg.bytes ++ after)).drop before.length).take SMSG_HDR_LEN = smsg.bytes := by
    rw [List.drop_left, List.take_left' smsg.length_bytes]
  simp only [readHeader, htake, smsg.length_bytes, dite_true]
  rw [SecureMessage.ofBytes_bytes]

theorem readHeader_end (before : List UInt8) : readHeader before before.length = none := by
  rw [readHeader, List.drop_length]
  rfl

theorem sample_ofPayload {payload : List UInt8} (h : 8 ≤ payload.length) (ts : Int) (ofs : Nat) :
    (SecMsgToken.ofPayload ts payload ofs).sample.toList = payload.take 8 :=
  congrArg List.Vector.toList (dif_neg (Nat.not_lt.mpr h))

/-- A token depends on the first bytes of the payload only. -/
theorem ofPayload_take {payload : List UInt8} (h : 8 ≤ payload.length) (ts : Int) (ofs : Nat) :
    SecMsgToken.ofPayload ts (payload.take 8) ofs = SecMsgToken.ofPayload ts payload ofs := by
  have hlen : 8 ≤ (payload.take 8).length := by
    rw [List.length_take]
    omega
  have hsample := (sample_ofPayload hlen ts ofs).trans ((List.take_take).trans (sample_ofPayload h ts ofs).symm)
  exact congrArg (SecMsgToken.mk ts · ofs) (Subtype.ext hsample)

/-- The loop over the records of a file puts their tokens into the bucket. -/
theorem readTokens_log (hmessages : ∀ m ∈ messages, m.Belongs time) (before : List UInt8) {fuel : Nat}
    (hfuel : messages.length < fuel) (setTokens : TokenSet) :
    readTokens true (before ++ RecordLog.log StoredMessage.bytes messages) fuel before.length setTokens =
      ((RecordLog.index StoredMessage.bytes before.length messages).map fun entry => entry.2.token entry.1).foldl
        OrderedSet.insert setTokens := by
  induction messages generalizing before fuel setTokens with
  | nil =>
    obtain ⟨fuel, rfl⟩ : ∃ n, fuel = n + 1 := ⟨fuel - 1, by omega⟩
    rw [readTokens, RecordLog.log, List.map_nil, List.flatten_nil, List.append_nil, readHeader_end]
    rfl
  | cons m messages ih =>
    obtain ⟨fuel, rfl⟩ : ∃ n, fuel = n + 1 := ⟨fuel - 1, by omega⟩
    have hm := hmessages m List.mem_cons_self
    have hheader : readHeader (before ++ RecordLog.log StoredMessage.bytes (m :: messages)) before.length = some m.1 := by
      rw [RecordLog.log_cons, StoredMessage.bytes, List.append_assoc]
      exact readHeader_eq _ _ _
    have hsample : ((before ++ RecordLog.log StoredMessage.bytes (m :: messages)).drop (before.length + SMSG_HDR_LEN)).take 8 =
        m.2.take 8 := by
      rw [RecordLog.log_cons, StoredMessage.bytes, List.append_assoc, ← List.drop_drop, List.drop_left,
        List.drop_left' m.1.length_bytes, List.take_append_of_le_length hm.sample]
    have hnext : before.length + SMSG_HDR_LEN + m.1.nPayload.toNat = (before ++ m.bytes).length := by
      rw [List.length_append, m.length_bytes, hm.length, Nat.add_assoc]
    have hlen : ¬ m.1.nPayload.toNat < 8 := Nat.not_lt.mpr (hm.length ▸ hm.sample)
    rw [readTokens]
    simp only [hheader, if_neg hlen, hsample]
    rw [if_neg (by rw [List.length_take]; have := hm.sample; simp; omega), hnext, ofPayload_take hm.sample, RecordLog.log_cons,
      ← List.append_assoc, ih (fun m' hm' => hmessages m' (List.mem_cons_of_mem _ hm')) (before ++ m.bytes) (by simpa using hfuel),
      List.length_append]
    rfl

/-- **A file is read back to the tokens of its bucket.** -/
theorem Indexed.readTokens (h : Indexed time content setTokens messages) :
    readTokens true content (content.length + 1) 0 OrderedSet.empty = setTokens := by
  have hfuel : messages.length < content.length + 1 := by
    rw [h.content]
    refine Nat.lt_succ_of_le (RecordLog.length_le_log fun m _ => ?_)
    rw [m.length_bytes]
    exact Nat.add_pos_left (by decide) _
  have hread : Pinkcoin.readTokens true content (content.length + 1) 0 OrderedSet.empty =
      (fileTokens messages).foldl OrderedSet.insert OrderedSet.empty := by
    have hlog := readTokens_log h.belongs [] hfuel OrderedSet.empty
    rwa [List.nil_append, ← h.content] at hlog
  refine hread.trans (OrderedSet.ext_mem fun token => ?_)
  rw [OrderedSet.mem_foldl_insert h.distinct fun z hz => absurd hz OrderedSet.notMem_empty, h.tokens]
  exact or_iff_right OrderedSet.notMem_empty

/-- A message is added at the end of a file. -/
theorem Indexed.append (h : Indexed time content setTokens messages) (hm : m.Belongs time)
    (hnew : ∀ token ∈ setTokens, token.key ≠ (m.token 0).key) :
    Indexed time (content ++ m.bytes) (setTokens.insert (m.token content.length)) (messages ++ [m]) := by
  have htokens : fileTokens (messages ++ [m]) = fileTokens messages ++ [m.token content.length] := by
    rw [fileTokens, RecordLog.index_append, List.map_append, Nat.zero_add, ← h.content]
    rfl
  refine ⟨fun m' hm' => ?_, ?_, ?_, fun token => ?_⟩
  · rcases List.mem_append.mp hm' with hm' | hm'
    · exact h.belongs m' hm'
    · rwa [List.mem_singleton.mp hm']
  · rw [RecordLog.log_append, ← h.content, RecordLog.log_singleton]
  · rw [htokens, List.pairwise_append]
    refine ⟨h.distinct, List.pairwise_singleton _ _, fun a ha b hb => ?_⟩
    rw [List.mem_singleton.mp hb]
    exact hnew a ((h.tokens a).mpr ha)
  · rw [htokens, OrderedSet.mem_insert, List.mem_append, h.tokens, List.mem_singleton]
    exact or_congr_right (and_iff_left hnew)

theorem indexed_nil (time : Int) : Indexed time [] OrderedSet.empty [] :=
  ⟨nofun, rfl, .nil, fun _ => ⟨fun h => absurd h OrderedSet.notMem_empty, nofun⟩⟩

end

/-! ## The buckets and the files -/

namespace Smsg

variable {s s' : Smsg}

/-- Every file holds the messages of its bucket. While the module is off there
are no tokens. -/
def Kept (s : Smsg) : Prop := ∀ time, ∃ setTokens messages, Indexed time (s.file (.dat time)) setTokens messages ∧
  (s.bucketAt time).setTokens = if s.fSecMsgenabled then setTokens else OrderedSet.empty

/-- A token's message can be had from the file of its bucket. -/
def TokensHeld (s : Smsg) : Prop :=
  ∀ time bucket token, s.smsgBuckets.lookup time = some bucket → token ∈ bucket.setTokens →
    ∃ (content : List UInt8) (m : StoredMessage) (after : List UInt8),
      s.files.lookup (.dat (bucketTime token.timestamp)) = some content ∧ bucketTime token.timestamp = time ∧
      content.drop token.offset = m.bytes ++ after ∧ m.2.length = m.1.nPayload.toNat ∧
      m.1.timestamp.toInt = token.timestamp ∧ m.2.take 8 = token.sample.toList

/-- A file can be opened and read to its end. -/
def Reads (s : Smsg) (env : SmsgEnv) (f : SmsgFile) : Prop := env.fopen f ∧ env.fseek ∧ (s.file f).length ≤ env.fread f

/-- Started again, the module has the tokens it had, of the buckets that are
not past the time they are kept. -/
def Rebuilds (s : Smsg) : Prop :=
  ∀ env addresses, (∀ f, s.Reads env f) → ∀ time, ((secureMsgStart env addresses s).bucketAt time).setTokens =
    if time < env.adjustedTime - SMSG_RETENTION then OrderedSet.empty else (s.bucketAt time).setTokens

theorem Kept.congr (h : s.Kept) (hon : s'.fSecMsgenabled = s.fSecMsgenabled)
    (hfile : ∀ time, s'.file (.dat time) = s.file (.dat time))
    (htokens : ∀ time, (s'.bucketAt time).setTokens = (s.bucketAt time).setTokens) : s'.Kept := by
  intro time
  obtain ⟨setTokens, messages, hindexed, hset⟩ := h time
  exact ⟨setTokens, messages, hfile time ▸ hindexed, by rw [htokens, hon, hset]⟩

theorem Kept.of_sameStore (hs : s.Kept) (h : SameStore s s') : s'.Kept :=
  hs.congr h.enabled (fun time => by rw [file, file, h.files]) fun time => by rw [bucketAt, bucketAt, h.buckets]

/-- A change that leaves the tokens of a bucket alone. -/
theorem setTokens_updateBucket {time : Int} {f : SecMsgBucket → SecMsgBucket} (hf : ∀ bucket, (f bucket).setTokens = bucket.setTokens)
    (time' : Int) : ((s.updateBucket time f).bucketAt time').setTokens = (s.bucketAt time').setTokens := by
  by_cases heq : time' = time
  · rw [heq, bucketAt_updateBucket, hf]
  · rw [bucketAt_updateBucket_of_ne heq]

theorem Kept.updateBucket (h : s.Kept) {time : Int} {f : SecMsgBucket → SecMsgBucket}
    (hf : ∀ bucket, (f bucket).setTokens = bucket.setTokens) : (s.updateBucket time f).Kept :=
  h.congr rfl (fun _ => rfl) (setTokens_updateBucket hf)

/-- **The tokens of a kept store lead to their messages.** -/
theorem Kept.tokensHeld (h : s.Kept) : s.TokensHeld := by
  intro time bucket token hb htoken
  obtain ⟨setTokens, messages, hindexed, hset⟩ := h time
  have hat : s.bucketAt time = bucket := by rw [bucketAt, hb, Option.getD_some]
  rw [hat] at hset
  split at hset
  next =>
    rw [hset] at htoken
    obtain ⟨⟨ofs, m⟩, hentry, rfl⟩ := List.mem_map.mp ((hindexed.tokens token).mp htoken)
    obtain ⟨after, hdrop⟩ := RecordLog.drop_log hentry
    have hbelongs := hindexed.belongs m (RecordLog.mem_of_mem_index hentry)
    have hlookup : s.files.lookup (.dat time) = some (s.file (.dat time)) := by
      rw [file]
      cases hfile : s.files.lookup (.dat time) with
      | none =>
        rw [← hindexed.content, file, hfile] at hdrop
        have hlen := congrArg List.length hdrop
        rw [Option.getD_none, List.drop_nil, List.length_append, m.length_bytes, List.length_nil] at hlen
        have hpos : 0 < SMSG_HDR_LEN := by decide
        omega
      | some content => rfl
    rw [← hindexed.content] at hdrop
    refine ⟨_, m, _, ?_, hbelongs.bucket, hdrop, hbelongs.length, rfl, (sample_ofPayload hbelongs.sample _ _).symm⟩
    exact (congrArg (fun t => s.files.lookup (.dat t)) hbelongs.bucket).trans hlookup
  next =>
    rw [hset] at htoken
    exact absurd htoken OrderedSet.notMem_empty

end Smsg

/-! ## When a call keeps the files -/

/-- A message that is written can be sampled, and is written whole or not at
all. -/
def Entire (env : SmsgEnv) (smsg : SecureMessage) (payload : List UInt8) (s : Smsg) : Prop :=
  Arrives env smsg → ¬ s.Knows smsg payload → env.fopen (.dat (bucketTime smsg.timestamp.toInt)) → env.fseek →
    if env.fwriteOk then 8 ≤ payload.length ∧ (smsg.bytes ++ payload).length ≤ env.fwrite (smsg.bytes ++ payload)
    else env.fwrite (smsg.bytes ++ payload) = 0

variable (P : SmsgParams)

/-- A round of `SecureMsgScanBuckets` removes the file it scans. -/
def ScanRemoves (envs : Nat → SmsgEnv) (f : SmsgFile) (s : Smsg) : Prop :=
  (envs 0).remove f ∧ (f.bucket < (envs 0).adjustedTime - SMSG_RETENTION ∨
    (envs 0).fopen f ∧ ∃ s', scanMessages P envs 0 (storedMessages ((s.file f).take ((envs 0).fread f))
      (((s.file f).take ((envs 0).fread f)).length + 1) 0) s = .ok () s')

/-- When a call keeps the files: what it writes is entire, it is not
`SecureMsgScanBuckets` that removes messages, and the files of a bucket that
is given up are removed, those of the others read. -/
def SmsgCall.KeepsFiles : SmsgCall → Smsg → Prop
  | .receive envs vchData, s =>
    s.fSecMsgenabled ∧ bunchInWindow (envs 0) vchData ∧ nBunch vchData ≠ 0 ∧ nBunch vchData ≤ 500 →
      EachMessage P Entire envs vchData (nBunch vchData) 0 12 s
  | .pow env _ vchMessage, s => ∀ smsg,
    secureMsgSetHash P env (bunchMessage env vchMessage 0).1 (bunchMessage env vchMessage 0).2 = .ok smsg →
      Entire env smsg (bunchMessage env vchMessage 0).2 s ∧
        (Storable env smsg (bunchMessage env vchMessage 0).2 s → s.fSecMsgenabled)
  | .scanBucket envs (.dat time), s => s.file (.dat time) = [] ∨ ¬ ScanRemoves P envs (.dat time) s
  | .thread env, s => ∀ time bucket, s.smsgBuckets.lookup time = some bucket → time < env.adjustedTime - SMSG_RETENTION →
      s.file (.dat time) = [] ∨ env.remove (.dat time)
  | .dump env, s => ∀ time bucket, s.smsgBuckets.lookup time = some bucket → s.file (.dat time) = [] ∨ env.remove (.dat time)
  | .start env _, s => ∀ time, s.file (.dat time) = [] ∨
      if time < env.adjustedTime - SMSG_RETENTION then env.remove (.dat time) = true else s.Reads env (.dat time)
  | _, _ => True

section

variable {P} {env : SmsgEnv} {envs : Nat → SmsgEnv} {s s' : Smsg} {smsg smsg' : SecureMessage}
  {payload vchData : List UInt8} {fUpdateBucket : Bool}

/-- The bucket and the file of a message that was stored. -/
theorem kept_stored (hs : s.Kept) (hlen : payload.length = smsg.nPayload.toNat) (hon : s.fSecMsgenabled)
    (hknows : ¬ s.Knows smsg payload) (hsample : 8 ≤ payload.length)
    (hwhole : (smsg.bytes ++ payload).length ≤ env.fwrite (smsg.bytes ++ payload)) :
    (s.stored env smsg payload fUpdateBucket).Kept := by
  intro time
  obtain ⟨setTokens, messages, hindexed, hset⟩ := hs time
  rw [if_pos hon] at hset
  by_cases heq : time = bucketTime smsg.timestamp.toInt
  · subst heq
    have hnew : ∀ token ∈ setTokens, token.key ≠ (StoredMessage.token 0 (smsg, payload)).key :=
      fun token htoken hkey => hknows ⟨token, hset ▸ htoken, hkey⟩
    have happend := hindexed.append ⟨hlen, hsample, rfl⟩ hnew
    refine ⟨_, messages ++ [(smsg, payload)], ?_, (setTokens_stored _ _ _ _ _).trans (if_pos hon).symm⟩
    rw [file_stored, List.take_of_length_le hwhole, hset]
    exact happend
  · refine ⟨setTokens, messages, ?_, ?_⟩
    · rwa [file_stored_of_ne (by simpa using heq)]
    · rw [Smsg.bucketAt, lookup_stored_of_ne heq]
      exact hset.trans (if_pos hon).symm

/-- `SecureMsgStore` keeps the files, of a message that is written whole. -/
theorem kept_secureMsgStore (hs : s.Kept) (hlen : payload.length = smsg.nPayload.toNat) (hentire : Entire env smsg payload s)
    (hon : Storable env smsg payload s → s.fSecMsgenabled) :
    (endState (secureMsgStore env smsg payload fUpdateBucket s)).Kept := by
  by_cases harrives : Arrives env smsg
  · by_cases hknows : s.Knows smsg payload
    · rw [secureMsgStore_of_knows harrives hknows]
      exact hs.updateBucket fun _ => rfl
    · by_cases hwrites : Writes env (.dat (bucketTime smsg.timestamp.toInt))
      · obtain ⟨hsample, hwhole⟩ := (if_pos hwrites.2.2).mp (hentire harrives hknows hwrites.1 hwrites.2.1)
        rw [secureMsgStore_of_writes harrives hknows hwrites]
        exact kept_stored hs hlen (hon ⟨harrives, hknows, hwrites⟩) hknows hsample hwhole
      · obtain ⟨s', hrun, hflag, hbuckets, hfiles⟩ := secureMsgStore_of_not_writes fUpdateBucket harrives hknows hwrites
        rw [hrun]
        refine hs.congr hflag (fun time => ?_) fun time => ?_
        · obtain hfiles | ⟨n, hn, hfiles⟩ := hfiles
          · rw [Smsg.file, Smsg.file, endState_error, hfiles]
          · have hn : n = 0 := by
              obtain hn | ⟨hopen, hwrite, hn⟩ := hn
              · exact hn
              · exact hn.trans ((if_neg hwrite).mp (hentire harrives hknows hopen.1 hopen.2))
            rw [hn, List.take_zero, List.append_nil] at hfiles
            rw [Smsg.file, endState_error, hfiles]
            by_cases heq : SmsgFile.dat time = .dat (bucketTime smsg.timestamp.toInt)
            · rw [heq]
              exact file_setFile _
            · exact Smsg.file_setFile_of_ne heq
        · rw [Smsg.bucketAt, endState_error, hbuckets]
          exact Smsg.setTokens_updateBucket (fun _ => rfl) time
  · rw [secureMsgStore_of_not_arrives harrives]
    exact hs

/-- The files stay, and so do the tokens. -/
def KeepsKept (s s' : Smsg) : Prop := s.fSecMsgenabled ∧ s.Kept → s'.fSecMsgenabled ∧ s'.Kept

instance : Std.Refl KeepsKept := ⟨fun _ h => h⟩
instance : IsTrans Smsg KeepsKept := ⟨fun _ _ _ h h' hs => h' (h hs)⟩

theorem enabled_secureMsgStore : (endState (secureMsgStore env smsg payload fUpdateBucket s)).fSecMsgenabled = s.fSecMsgenabled := by
  by_cases harrives : Arrives env smsg
  · by_cases hknows : s.Knows smsg payload
    · rw [secureMsgStore_of_knows harrives hknows]
      rfl
    · by_cases hwrites : Writes env (.dat (bucketTime smsg.timestamp.toInt))
      · rw [secureMsgStore_of_writes harrives hknows hwrites]
        rfl
      · obtain ⟨s', hrun, hflag, -⟩ := secureMsgStore_of_not_writes fUpdateBucket harrives hknows hwrites
        rw [hrun]
        exact hflag
  · rw [secureMsgStore_of_not_arrives harrives]
    rfl

theorem keepsKept_of_sameStore (h : SameStore s s') : KeepsKept s s' := fun hs => ⟨h.enabled.trans hs.1, hs.2.of_sameStore h⟩

theorem kept_secureMsgReceive (hs : s.Kept) (h : SmsgCall.KeepsFiles P (.receive envs vchData) s) :
    ((SmsgCall.receive envs vchData).run P s).Kept := by
  rw [SmsgCall.run, whenEnabled]
  split
  next henabled =>
    by_cases hwindow : bunchInWindow (envs 0) vchData
    · rw [secureMsgReceive, bind_run (rejectIf_run (not_not.mpr hwindow)), bind_get_run]
      by_cases hcount : nBunch vchData = 0 ∨ 500 < nBunch vchData
      · rw [if_pos hcount]
        cases hb : s.smsgBuckets.lookup (bktTime vchData) with
        | none => exact hs
        | some bucket =>
          have hunlock : (s.updateBucket (bktTime vchData) fun bucket => { bucket with nLockCount := 0 }).Kept :=
            hs.updateBucket fun _ => rfl
          exact hunlock
      · rw [if_neg hcount]
        have heach := h ⟨henabled, hwindow, fun h0 => hcount (.inl h0), Nat.not_lt.mp fun hlt => hcount (.inr hlt)⟩
        have hloop : KeepsKept s (endState (receiveLoop P envs vchData (nBunch vchData) 0 12 s)) :=
          receiveLoop_keeps heach (fun _ _ _ _ hlen hentire hs => ⟨enabled_secureMsgStore.trans hs.1,
            kept_secureMsgStore hs.2 hlen hentire fun _ => hs.1⟩) fun _ _ => keepsKept_of_sameStore
        have hkept := (hloop ⟨henabled, hs⟩).2
        cases hrun : receiveLoop P envs vchData (nBunch vchData) 0 12 s with
        | error e t =>
          rw [bind_run_error hrun]
          rwa [hrun] at hkept
        | ok _ t =>
          rw [hrun] at hkept
          rw [bind_run hrun, bind_get_run]
          split
          next => exact hkept
          next =>
            have hhashed : (t.updateBucket (bktTime vchData) fun bucket =>
                SecMsgBucket.hashBucket (envs (nBunch vchData)).adjustedTime
                  { bucket with nLockCount := 0, nLockPeerId := 0 }).Kept := hkept.updateBucket fun _ => rfl
            exact hhashed
    · rw [secureMsgReceive, bind_run_error (rejectIf_run_error hwindow)]
      exact hs
  next => exact hs

theorem nPayload_setHash (h : secureMsgSetHash P env smsg payload = .ok smsg') : smsg'.nPayload = smsg.nPayload := by
  obtain ⟨nonse, sha256Hash, -, -, rfl⟩ := setHashLoop_ok h
  rfl

theorem kept_powMessage {env' : SmsgEnv} (hs : s.Kept) (h : SmsgCall.KeepsFiles P (.pow env env' vchData) s) :
    ((SmsgCall.pow env env' vchData).run P s).Kept := by
  cases hset : secureMsgSetHash P env (bunchMessage env vchData 0).1 (bunchMessage env vchData 0).2 with
  | ok smsg =>
    obtain ⟨hentire, hon⟩ := h smsg hset
    have hlen : (bunchMessage env vchData 0).2.length = smsg.nPayload.toNat := by
      rw [nPayload_setHash hset]
      exact env.length_memory _ _ _
    exact (kept_secureMsgStore hs hlen hentire hon).of_sameStore (powMessage_ok hset)
  | error e =>
    rw [SmsgCall.run, powMessage_error hset]
    exact hs

/-- A file without messages can go, and so can one whose bucket goes. -/
theorem file_removeFile (f g : SmsgFile) : (s.removeFile env f).file g = if g = f ∧ env.remove f then [] else s.file g := by
  rw [Smsg.file]
  by_cases hremove : env.remove f
  · rw [Smsg.lookup_removeFile hremove]
    by_cases heq : g = f
    · rw [if_pos heq, if_pos ⟨heq, hremove⟩]
      rfl
    · rw [if_neg heq, if_neg fun h => heq h.1]
      rfl
  · rw [if_neg fun h => hremove h.2, Smsg.removeFile, if_neg hremove]
    rfl

theorem enabled_removeFile (f : SmsgFile) : (s.removeFile env f).fSecMsgenabled = s.fSecMsgenabled := by
  rw [Smsg.removeFile]
  split <;> rfl

/-- Removing a file that has no messages. -/
theorem Smsg.Kept.removeFile {f : SmsgFile} (hs : s.Kept) (hf : (∃ time, f = .wl time) ∨ s.file f = []) :
    (s.removeFile env f).Kept := by
  refine hs.congr (enabled_removeFile f) (fun time => ?_) fun time => ?_
  · rw [file_removeFile]
    split
    next heq =>
      rw [heq.1]
      obtain ⟨_, rfl⟩ | hnil := hf
      · simp at heq
      · exact hnil.symm
    next => rfl
  · rw [Smsg.bucketAt, Smsg.smsgBuckets_removeFile, Smsg.bucketAt]

/-- A file is scanned: it stays unless it is removed. -/
theorem kept_scanFile {f : SmsgFile} (hs : s.Kept)
    (hf : (∃ time, f = .wl time) ∨ s.file f = [] ∨ ¬ ((envs 0).remove f ∧
      ∃ s', scanMessages P envs 0 (storedMessages ((s.file f).take ((envs 0).fread f))
        (((s.file f).take ((envs 0).fread f)).length + 1) 0) s = .ok () s')) :
    (endState (scanFile P envs f s)).Kept := by
  rw [scanFile, bind_get_run]
  have hsame : SameStore s (endState (scanMessages P envs 0 (storedMessages ((s.file f).take ((envs 0).fread f))
    (((s.file f).take ((envs 0).fread f)).length + 1) 0) s)) := keeps_scanMessages _ _ _ s
  cases hscan : scanMessages P envs 0 (storedMessages ((s.file f).take ((envs 0).fread f))
      (((s.file f).take ((envs 0).fread f)).length + 1) 0) s with
  | error e t =>
    rw [hscan] at hsame
    rw [bind_run_error hscan]
    exact hs.of_sameStore hsame
  | ok _ t =>
    rw [hscan] at hsame
    rw [bind_run hscan]
    by_cases hremove : (envs 0).remove f
    · rw [bind_run (rejectIf_run (not_not.mpr hremove))]
      have hgone : (t.removeFile (envs 0) f).Kept := by
        refine (hs.of_sameStore hsame).removeFile ?_
        cases f with
        | wl time => exact .inl ⟨time, rfl⟩
        | dat time =>
          obtain ⟨_, hwl⟩ | hnil | hnot := hf
          · simp at hwl
          · refine .inr ?_
            rw [Smsg.file, hsame.files time]
            exact hnil
          · exact absurd ⟨hremove, t, hscan⟩ hnot
      exact hgone
    · rw [bind_run_error (rejectIf_run_error hremove)]
      exact hs.of_sameStore hsame

theorem kept_scanBucket {f : SmsgFile} (hs : s.Kept) (h : SmsgCall.KeepsFiles P (.scanBucket envs f) s) :
    (endState (scanBucket P envs f s)).Kept := by
  unfold scanBucket
  split
  next hexpired =>
    have hremoved : (s.removeFile (envs 0) f).Kept := by
      cases f with
      | wl time => exact hs.removeFile (.inl ⟨time, rfl⟩)
      | dat time =>
        obtain hnil | hnot := h
        · exact hs.removeFile (.inr hnil)
        · rw [Smsg.removeFile, if_neg fun hremove => hnot ⟨hremove, .inl hexpired⟩]
          exact hs
    exact hremoved
  next =>
    cases f with
    | wl time => exact hs
    | dat time =>
      dsimp only
      split
      next hopen =>
        refine kept_scanFile hs (.inr (h.imp_right fun hnot => ?_))
        exact fun hremoves => hnot ⟨hremoves.1, .inr ⟨hopen, hremoves.2⟩⟩
      next => exact hs

theorem kept_scanUnlocked {f : SmsgFile} (hs : s.Kept) : (endState (scanUnlocked P envs f s)).Kept := by
  cases f with
  | dat time => exact hs
  | wl time =>
    rw [scanUnlocked]
    split
    next =>
      by_cases hremove : (envs 0).remove (.wl time)
      · rw [bind_run (rejectIf_run (not_not.mpr hremove))]
        have hremoved : (s.removeFile (envs 0) (.wl time)).Kept := hs.removeFile (.inl ⟨time, rfl⟩)
        exact hremoved
      · rw [bind_run_error (rejectIf_run_error hremove)]
        exact hs
    next =>
      split
      next => exact kept_scanFile hs (.inl ⟨time, rfl⟩)
      next => exact hs

/-- A bucket past its time goes with its file. -/
theorem kept_tickBucket {time : Int} (hs : s.Kept) (h : ∀ bucket, s.smsgBuckets.lookup time = some bucket →
    time < env.adjustedTime - SMSG_RETENTION → s.file (.dat time) = [] ∨ env.remove (.dat time)) : (tickBucket env time s).Kept := by
  unfold tickBucket
  cases hb : s.smsgBuckets.lookup time with
  | none => exact hs
  | some bucket =>
    dsimp only
    split
    next hexpired =>
      intro time'
      by_cases heq : time' = time
      · refine ⟨OrderedSet.empty, [], ?_, ?_⟩
        · have hnil : ((s.removeFile env (.dat time)).removeFile env (.wl time)).file (.dat time') = [] := by
            rw [file_removeFile, if_neg (by simp), file_removeFile, heq]
            split
            next => rfl
            next hnot => exact (h bucket hb hexpired).resolve_right fun hremove => hnot ⟨rfl, hremove⟩
          exact hnil ▸ indexed_nil time'
        · rw [Smsg.bucketAt, heq, AList.lookup_erase, ite_self]
          rfl
      · obtain ⟨setTokens, messages, hindexed, hset⟩ := hs time'
        refine ⟨setTokens, messages, ?_, ?_⟩
        · have hsame : ((s.removeFile env (.dat time)).removeFile env (.wl time)).file (.dat time') = s.file (.dat time') := by
            rw [file_removeFile, if_neg (by simp), file_removeFile, if_neg (by simp [heq])]
          exact hsame ▸ hindexed
        · rw [Smsg.bucketAt, AList.lookup_erase_ne heq, Smsg.smsgBuckets_removeFile, Smsg.smsgBuckets_removeFile]
          refine hset.trans ?_
          rw [enabled_removeFile, enabled_removeFile]
    next =>
      split
      next =>
        have hlock : (s.updateBucket time fun bucket => { bucket with
            nLockCount := bucket.nLockCount - 1
            nLockPeerId := if bucket.nLockCount = 1 then 0 else bucket.nLockPeerId }).Kept := hs.updateBucket fun _ => rfl
        rw [Smsg.updateBucket, Smsg.bucketAt, hb, Option.getD_some] at hlock
        exact hlock
      next => exact hs

variable (env s) in
/-- What a bucket's turn leaves of another bucket, and of its file. -/
theorem tickBucket_of_ne {time time' : Int} (h : time' ≠ time) :
    (tickBucket env time s).smsgBuckets.lookup time' = s.smsgBuckets.lookup time' ∧
      (tickBucket env time s).file (.dat time') = s.file (.dat time') := by
  unfold tickBucket
  cases hb : s.smsgBuckets.lookup time with
  | none => exact ⟨rfl, rfl⟩
  | some bucket =>
    dsimp only
    split
    next =>
      refine ⟨?_, ?_⟩
      · rw [AList.lookup_erase_ne h, Smsg.smsgBuckets_removeFile, Smsg.smsgBuckets_removeFile]
      · have hsame : ((s.removeFile env (.dat time)).removeFile env (.wl time)).file (.dat time') = s.file (.dat time') := by
          rw [file_removeFile, if_neg (by simp), file_removeFile, if_neg (by simp [h])]
        exact hsame
    next =>
      split
      next => exact ⟨AList.lookup_insert_ne h, rfl⟩
      next => exact ⟨rfl, rfl⟩

/-- A bucket that is past its time is gone after its turn. -/
theorem lookup_tickBucket {time : Int} (h : time < env.adjustedTime - SMSG_RETENTION) :
    (tickBucket env time s).smsgBuckets.lookup time = none := by
  unfold tickBucket
  cases hb : s.smsgBuckets.lookup time with
  | none => exact hb
  | some bucket =>
    dsimp only
    rw [if_pos h]
    exact AList.lookup_erase _ _

theorem keepsFiles_tickBucket {time : Int} (h : SmsgCall.KeepsFiles P (.thread env) s) :
    SmsgCall.KeepsFiles P (.thread env) (tickBucket env time s) := by
  intro time' bucket hb hexpired
  by_cases heq : time' = time
  · subst heq
    rw [lookup_tickBucket hexpired] at hb
    exact nomatch hb
  · obtain ⟨hlookup, hfile⟩ := tickBucket_of_ne env s heq
    rw [hfile]
    exact h time' bucket (hlookup ▸ hb) hexpired

theorem kept_threadSecureMsg (hs : s.Kept) (h : SmsgCall.KeepsFiles P (.thread env) s) : (threadSecureMsg env s).Kept := by
  have hfold : (threadSecureMsg env s).Kept ∧ SmsgCall.KeepsFiles P (.thread env) (threadSecureMsg env s) :=
    List.foldlRecOn (motive := fun s => s.Kept ∧ SmsgCall.KeepsFiles P (.thread env) s) _ _ ⟨hs, h⟩ fun s hs time _ =>
      ⟨kept_tickBucket hs.1 (hs.2 time), keepsFiles_tickBucket hs.2⟩
  exact hfold.1

/-! ### Dumping and starting -/

/-- Of a state whose buckets are gone only the files count. -/
theorem Smsg.kept_of_empty (hb : s.smsgBuckets = ∅)
    (h : ∀ time, if s.fSecMsgenabled then s.file (.dat time) = []
      else ∃ setTokens messages, Indexed time (s.file (.dat time)) setTokens messages) : s.Kept := by
  intro time
  have hset : (s.bucketAt time).setTokens = OrderedSet.empty := by
    rw [bucketAt, hb, AList.lookup_empty]
    rfl
  have htime := h time
  split at htime
  next hon =>
    refine ⟨_, [], htime ▸ indexed_nil time, ?_⟩
    rw [hset, ite_self]
  next hoff =>
    obtain ⟨setTokens, messages, hindexed⟩ := htime
    exact ⟨setTokens, messages, hindexed, by rw [hset, if_neg hoff]⟩

/-- The files after some were removed. -/
theorem file_removeFiles (times : List Int) (time : Int) :
    (times.foldl (fun s time => s.removeFile env (.dat time)) s).file (.dat time) =
      if time ∈ times ∧ env.remove (.dat time) then [] else s.file (.dat time) := by
  induction times generalizing s with
  | nil => rw [if_neg fun h => List.not_mem_nil h.1, List.foldl_nil]
  | cons time' times ih =>
    rw [List.foldl_cons, ih, file_removeFile]
    simp only [SmsgFile.dat.injEq, List.mem_cons]
    grind

theorem enabled_removeFiles (times : List Int) :
    (times.foldl (fun s time => s.removeFile env (.dat time)) s).fSecMsgenabled = s.fSecMsgenabled := by
  induction times generalizing s with
  | nil => rfl
  | cons time times ih => rw [List.foldl_cons, ih, enabled_removeFile]

/-- A bucket that is not there has no messages in its file. -/
theorem Smsg.Kept.file_eq_nil (hs : s.Kept) (hon : s.fSecMsgenabled) {time : Int} (hb : s.smsgBuckets.lookup time = none) :
    s.file (.dat time) = [] := by
  obtain ⟨setTokens, messages, hindexed, hset⟩ := hs time
  rw [if_pos hon, bucketAt, hb, Option.getD_none] at hset
  have hnone : ∀ token, token ∉ fileTokens messages := fun token htoken =>
    OrderedSet.notMem_empty (show token ∈ OrderedSet.empty from hset ▸ (hindexed.tokens token).mpr htoken)
  cases messages with
  | nil => exact hindexed.content
  | cons m messages => exact absurd List.mem_cons_self (hnone _)

theorem kept_dumpBuckets (hs : s.Kept) (h : SmsgCall.KeepsFiles P (.dump env) s) : (dumpBuckets env s).Kept := by
  refine Smsg.kept_of_empty rfl fun time => ?_
  have hfile : (dumpBuckets env s).file (.dat time) =
      if time ∈ s.smsgBuckets.keys ∧ env.remove (.dat time) then [] else s.file (.dat time) := file_removeFiles _ _
  have hon : (dumpBuckets env s).fSecMsgenabled = s.fSecMsgenabled := enabled_removeFiles _
  rw [hfile, hon]
  split
  next henabled =>
    split
    next => rfl
    next hkept =>
      cases hb : s.smsgBuckets.lookup time with
      | none => exact hs.file_eq_nil henabled hb
      | some bucket =>
        have hmem : time ∈ s.smsgBuckets.keys := AList.mem_keys.mp (AList.lookup_isSome.mp (hb ▸ rfl))
        exact (h time bucket hb).resolve_right fun hremove => hkept ⟨hmem, hremove⟩
  next =>
    obtain ⟨setTokens, messages, hindexed, -⟩ := hs time
    split
    next => exact ⟨_, _, indexed_nil time⟩
    next => exact ⟨_, _, hindexed⟩

theorem kept_secureMsgDisable (hs : s.Kept) : (secureMsgDisable s).Kept := by
  rw [secureMsgDisable]
  split
  next =>
    refine Smsg.kept_of_empty rfl fun time => ?_
    obtain ⟨setTokens, messages, hindexed, -⟩ := hs time
    exact ⟨_, _, hindexed⟩
  next => exact hs

/-- The file and the tokens of a bucket. -/
def Smsg.entry (s : Smsg) (time : Int) : List UInt8 × TokenSet := (s.file (.dat time), (s.bucketAt time).setTokens)

/-- A file and its bucket after `SecureMsgBuildBucketSet` came to the file. -/
def rebuilt (env : SmsgEnv) (time : Int) (entry : List UInt8 × TokenSet) : List UInt8 × TokenSet :=
  if time < env.adjustedTime - SMSG_RETENTION then (if env.remove (.dat time) then [] else entry.1, entry.2)
  else if env.fopen (.dat time) then
    let content := entry.1.take (env.fread (.dat time))
    (entry.1, readTokens env.fseek content (content.length + 1) 0 entry.2)
  else entry

theorem entry_buildBucket (f : SmsgFile) (time : Int) :
    (buildBucket env f s).entry time = if f = .dat time then rebuilt env time (s.entry time) else s.entry time := by
  unfold buildBucket
  by_cases hexpired : f.bucket < env.adjustedTime - SMSG_RETENTION
  · rw [if_pos hexpired, Smsg.entry, file_removeFile, Smsg.bucketAt, Smsg.smsgBuckets_removeFile]
    by_cases heq : f = .dat time
    · subst heq
      have htime : time < env.adjustedTime - SMSG_RETENTION := hexpired
      rw [if_pos rfl, rebuilt, if_pos htime]
      simp only [true_and]
      rfl
    · rw [if_neg heq, if_neg fun h => heq h.1.symm]
      rfl
  · rw [if_neg hexpired]
    cases f with
    | wl time' => rw [if_neg (by simp)]
    | dat time' =>
      dsimp only
      by_cases heq : time' = time
      · subst heq
        have htime : ¬ time' < env.adjustedTime - SMSG_RETENTION := hexpired
        rw [if_pos rfl, rebuilt, if_neg htime]
        by_cases hopen : env.fopen (.dat time')
        · rw [if_pos hopen, if_pos hopen]
          exact Prod.ext rfl (congrArg SecMsgBucket.setTokens (Smsg.bucketAt_updateBucket _))
        · rw [if_neg hopen, if_neg hopen]
          exact Prod.ext rfl (congrArg SecMsgBucket.setTokens (Smsg.bucketAt_updateBucket _))
      · have hne : time ≠ time' := fun h => heq h.symm
        rw [if_neg fun h => heq (SmsgFile.dat.inj h)]
        split
        next => exact Prod.ext rfl (congrArg SecMsgBucket.setTokens (Smsg.bucketAt_updateBucket_of_ne hne _))
        next => exact Prod.ext rfl (congrArg SecMsgBucket.setTokens (Smsg.bucketAt_updateBucket_of_ne hne _))

/-- Each file is come to once. -/
theorem entry_buildBuckets {files : List SmsgFile} (hfiles : files.Nodup) (time : Int) :
    (files.foldl (fun s f => buildBucket env f s) s).entry time =
      if .dat time ∈ files then rebuilt env time (s.entry time) else s.entry time := by
  induction files generalizing s with
  | nil => rfl
  | cons f files ih =>
    obtain ⟨hnot, hfiles⟩ := List.nodup_cons.mp hfiles
    rw [List.foldl_cons, ih hfiles, entry_buildBucket]
    by_cases heq : f = .dat time
    · rw [if_neg (heq ▸ hnot), if_pos heq, if_pos (List.mem_cons.mpr (.inl heq.symm))]
    · rw [if_neg heq]
      simp only [List.mem_cons, or_iff_right fun h : SmsgFile.dat time = f => heq h.symm]

theorem enabled_buildBucket (f : SmsgFile) : (buildBucket env f s).fSecMsgenabled = s.fSecMsgenabled := by
  unfold buildBucket
  split
  next => exact enabled_removeFile f
  next =>
    cases f with
    | wl time => rfl
    | dat time =>
      dsimp only
      split <;> rfl

theorem enabled_secureMsgStart (addresses : List SecMsgAddress) :
    (secureMsgStart env addresses s).fSecMsgenabled = true := by
  rw [secureMsgStart, secureMsgBuildBucketSet]
  exact List.foldlRecOn (motive := fun s : Smsg => s.fSecMsgenabled = true) _ _ rfl fun s hs f _ => (enabled_buildBucket f).trans hs

/-- The module starts with what the files hold. -/
theorem entry_secureMsgStart (addresses : List SecMsgAddress) (time : Int) :
    (secureMsgStart env addresses s).entry time = if .dat time ∈ s.files then
      rebuilt env time (s.file (.dat time), OrderedSet.empty) else ([], OrderedSet.empty) := by
  rw [secureMsgStart, secureMsgBuildBucketSet]
  refine (entry_buildBuckets s.files.keys_nodup time).trans ?_
  by_cases hmem : SmsgFile.dat time ∈ s.files
  · rw [if_pos hmem, if_pos (AList.mem_keys.mp hmem)]
    rfl
  · rw [if_neg hmem, if_neg fun h => hmem (AList.mem_keys.mpr h)]
    refine Prod.ext ?_ rfl
    have hlookup : s.files.lookup (.dat time) = none := AList.lookup_eq_none.mpr hmem
    have hfile : s.file (.dat time) = [] := by rw [Smsg.file, hlookup, Option.getD_none]
    exact hfile

theorem rebuilt_nil (time : Int) : rebuilt env time ([], OrderedSet.empty) = ([], OrderedSet.empty) := by
  have hread : readTokens env.fseek [] 1 0 OrderedSet.empty = OrderedSet.empty := rfl
  simp only [rebuilt, List.take_nil, List.length_nil, Nat.zero_add, hread, ite_self]

/-- A file that can be read gives the tokens of its messages. -/
theorem entry_secureMsgStart_of_reads {addresses : List SecMsgAddress} {time : Int} {setTokens : TokenSet}
    {messages : List StoredMessage} (hindexed : Indexed time (s.file (.dat time)) setTokens messages)
    (hreads : s.Reads env (.dat time)) (hexpired : ¬ time < env.adjustedTime - SMSG_RETENTION) :
    (secureMsgStart env addresses s).entry time = (s.file (.dat time), setTokens) := by
  rw [entry_secureMsgStart]
  have hrebuilt : rebuilt env time (s.file (.dat time), OrderedSet.empty) = (s.file (.dat time), setTokens) := by
    rw [rebuilt, if_neg hexpired, if_pos hreads.1]
    simp only [List.take_of_length_le hreads.2.2, hreads.2.1, hindexed.readTokens]
  split
  next => exact hrebuilt
  next hmem =>
    have hfile : s.file (.dat time) = [] := by rw [Smsg.file, AList.lookup_eq_none.mpr hmem, Option.getD_none]
    rw [hfile] at hrebuilt
    rw [hfile, ← hrebuilt, rebuilt_nil]

theorem entry_secureMsgStart_of_nil {addresses : List SecMsgAddress} {time : Int} (hnil : s.file (.dat time) = []) :
    (secureMsgStart env addresses s).entry time = ([], OrderedSet.empty) := by
  rw [entry_secureMsgStart, hnil, rebuilt_nil, ite_self]

theorem kept_secureMsgStart {addresses : List SecMsgAddress} (hs : s.Kept)
    (h : SmsgCall.KeepsFiles P (.start env addresses) s) : (secureMsgStart env addresses s).Kept := by
  intro time
  simp only [enabled_secureMsgStart, if_true]
  obtain ⟨setTokens, messages, hindexed, -⟩ := hs time
  have hentry : ∃ setTokens messages, Indexed time ((secureMsgStart env addresses s).entry time).1 setTokens messages ∧
      ((secureMsgStart env addresses s).entry time).2 = setTokens := by
    obtain hnil | hread := h time
    · rw [entry_secureMsgStart_of_nil hnil]
      exact ⟨_, _, indexed_nil time, rfl⟩
    · by_cases hexpired : time < env.adjustedTime - SMSG_RETENTION
      · have hremove : env.remove (.dat time) := (if_pos hexpired).mp hread
        have hgone : (secureMsgStart env addresses s).entry time = ([], OrderedSet.empty) := by
          rw [entry_secureMsgStart, rebuilt, if_pos hexpired, if_pos hremove, ite_self]
        rw [hgone]
        exact ⟨_, _, indexed_nil time, rfl⟩
      · rw [entry_secureMsgStart_of_reads hindexed ((if_neg hexpired).mp hread) hexpired]
        exact ⟨_, _, hindexed, rfl⟩
  exact hentry

/-- **Started again, the module has the tokens it had.** -/
theorem Smsg.Kept.rebuilds (hs : s.Kept) (hon : s.fSecMsgenabled) : s.Rebuilds := by
  intro env addresses hreads time
  obtain ⟨setTokens, messages, hindexed, hset⟩ := hs time
  rw [if_pos hon] at hset
  have htokens : ((secureMsgStart env addresses s).bucketAt time).setTokens =
      ((secureMsgStart env addresses s).entry time).2 := rfl
  rw [htokens]
  split
  next hexpired =>
    rw [entry_secureMsgStart, rebuilt, if_pos hexpired]
    split <;> rfl
  next hexpired => rw [entry_secureMsgStart_of_reads hindexed (hreads _) hexpired, hset]

/-! ## Runs -/

theorem keepsKept_locks {time : Int} {f : SecMsgBucket → SecMsgBucket} (hf : OnlyLocks f) :
    KeepsKept s (s.updateBucket time f) := fun hs => ⟨hs.1, hs.2.updateBucket fun bucket => by rw [hf bucket]⟩

theorem kept_whenEnabled {α : Type} {x : SmsgM α} (h : Keeps KeepsKept x) (hs : s.Kept) : (whenEnabled x s).Kept := by
  unfold whenEnabled
  split
  next henabled => exact (h s ⟨henabled, hs⟩).2
  next => exact hs

/-- Every call that keeps the files keeps the tokens with them. -/
theorem SmsgCall.kept {c : SmsgCall} (hs : s.Kept) (h : c.KeepsFiles P s) : (c.run P s).Kept := by
  cases c with
  | receive envs vchData => exact kept_secureMsgReceive hs h
  | pow env env' vchMessage => exact kept_powMessage hs h
  | inv env ignoreUntil vchData => exact kept_whenEnabled (keeps_smsgInv (fun _ _ _ => keepsKept_locks) ignoreUntil) hs
  | «have» env nPeerId vchData => exact kept_whenEnabled (keeps_smsgHave (fun _ _ _ => keepsKept_locks) nPeerId) hs
  | thread env => exact kept_threadSecureMsg hs h
  | scanBucket envs f => exact kept_scanBucket hs h
  | scanUnlocked envs f => exact kept_scanUnlocked hs
  | dump env => exact kept_dumpBuckets hs h
  | disable => exact kept_secureMsgDisable hs
  | start env smsgAddresses => exact kept_secureMsgStart hs h
  | aside smsgAddresses pubkeys inbox => exact hs.congr rfl (fun _ => rfl) fun _ => rfl

/-- **In every state a run comes to the tokens lead to their messages, and
started again the module has the tokens it had**, in every run whose calls
keep the files. The run starts with an empty directory and the module off. -/
theorem SmsgCall.runs_tokensHeld {calls : List SmsgCall} (hfiles : ∀ f, s.file f = []) (hb : s.smsgBuckets = ∅)
    (h : Meets (SmsgCall.run P) (SmsgCall.KeepsFiles P) calls s) :
    (play (SmsgCall.run P) calls s).TokensHeld ∧
      ((play (SmsgCall.run P) calls s).fSecMsgenabled → (play (SmsgCall.run P) calls s).Rebuilds) := by
  have hkept : (play (SmsgCall.run P) calls s).Kept := by
    refine h.keeps (fun _ _ => SmsgCall.kept) (Smsg.kept_of_empty hb fun time => ?_)
    split
    next => exact hfiles _
    next => exact ⟨_, _, hfiles (.dat time) ▸ indexed_nil time⟩
  exact ⟨hkept.tokensHeld, hkept.rebuilds⟩

end

namespace SmsgSample

theorem keepsFiles_receive : Meets (SmsgCall.run params) (SmsgCall.KeepsFiles params)
    [.start env [], .receive (fun _ => env) (bunch 1500000000)] node := by
  refine ⟨fun _ => .inl rfl, ?_, trivial⟩
  have hs : (SmsgCall.start env []).run params node = started := rfl
  rw [hs]
  exact fun _ => eachMessage_bunch fun _ _ _ _ => (if_pos rfl).mpr ⟨by decide +kernel, le_rfl⟩

/-- The node after it has the message and has looked whether it is for it. -/
def scanned : Smsg := play (SmsgCall.run params)
  [.start env [], .receive (fun _ => env) (bunch 1500000000), .scanBucket (fun _ => env) (.dat 1500000000)] node

end SmsgSample

/-- A bunch of one message. -/
theorem runs_tokensHeld_sample :
    (play (SmsgCall.run SmsgSample.params) [.start SmsgSample.env [],
      .receive (fun _ => SmsgSample.env) (SmsgSample.bunch 1500000000)] SmsgSample.node).TokensHeld ∧
    ((play (SmsgCall.run SmsgSample.params) [.start SmsgSample.env [],
      .receive (fun _ => SmsgSample.env) (SmsgSample.bunch 1500000000)] SmsgSample.node).fSecMsgenabled →
      (play (SmsgCall.run SmsgSample.params) [.start SmsgSample.env [],
        .receive (fun _ => SmsgSample.env) (SmsgSample.bunch 1500000000)] SmsgSample.node).Rebuilds) :=
  SmsgCall.runs_tokensHeld (fun _ => rfl) rfl SmsgSample.keepsFiles_receive

/-- **A token without its file.** `SecureMsgScanBuckets` removes the file it
has scanned, and the bucket keeps its token. -/
theorem not_tokensHeld_scanned : ¬ SmsgSample.scanned.TokensHeld := by
  intro h
  have hone : ∀ bucket ∈ SmsgSample.scanned.smsgBuckets.lookup 1500000000, bucket.setTokens.toList ≠ [] := by decide +kernel
  have hthere : (SmsgSample.scanned.smsgBuckets.lookup 1500000000).isSome := by decide +kernel
  have hgone : SmsgSample.scanned.files.lookup (.dat 1500000000) = none := by decide +kernel
  obtain ⟨bucket, hb⟩ := Option.isSome_iff_exists.mp hthere
  obtain ⟨token, htoken⟩ := List.exists_mem_of_ne_nil _ (hone bucket hb)
  obtain ⟨content, m, after, hfile, htime, -⟩ := h 1500000000 bucket token hb htoken
  rw [htime, hgone] at hfile
  exact nomatch hfile

end Pinkcoin
