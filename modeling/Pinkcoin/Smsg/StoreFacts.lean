/-
What the operations of the message store do to the buckets and to the files,
and what they leave alone.
-/
import Pinkcoin.Smsg.Calls

namespace Pinkcoin

open StateError

/-! ## Buckets and files after an update -/

namespace Smsg

variable {s : Smsg} {env : SmsgEnv} {time time' : Int} {f g : SmsgFile} {content : List UInt8}

theorem lookup_updateBucket (h : SecMsgBucket → SecMsgBucket) : (s.updateBucket time h).smsgBuckets.lookup time' =
    if time' = time then some (h (s.bucketAt time)) else s.smsgBuckets.lookup time' := by
  rw [updateBucket, setBucket]
  split
  next heq => rw [heq, AList.lookup_insert]
  next hne => rw [AList.lookup_insert_ne hne]

theorem bucketAt_updateBucket (h : SecMsgBucket → SecMsgBucket) :
    (s.updateBucket time h).bucketAt time = h (s.bucketAt time) := by
  rw [bucketAt, lookup_updateBucket, if_pos rfl, Option.getD_some]

theorem updateBucket_updateBucket (h k : SecMsgBucket → SecMsgBucket) :
    (s.updateBucket time h).updateBucket time k = s.updateBucket time fun bucket => k (h bucket) := by
  rw [updateBucket, bucketAt_updateBucket]
  rw [updateBucket, updateBucket, setBucket, setBucket, setBucket, AList.insert_insert]

theorem lookup_setFile : (s.setFile f content).files.lookup g = if g = f then some content else s.files.lookup g := by
  rw [setFile]
  split
  next heq => rw [heq, AList.lookup_insert]
  next hne => rw [AList.lookup_insert_ne hne]

theorem file_setFile_of_ne (h : g ≠ f) : (s.setFile f content).file g = s.file g := by
  rw [file, lookup_setFile, if_neg h, file]

theorem bucketAt_updateBucket_of_ne (h : time' ≠ time) (k : SecMsgBucket → SecMsgBucket) :
    (s.updateBucket time k).bucketAt time' = s.bucketAt time' := by
  rw [bucketAt, lookup_updateBucket, if_neg h, bucketAt]

theorem smsgBuckets_removeFile : (s.removeFile env f).smsgBuckets = s.smsgBuckets := by
  rw [removeFile]
  split <;> rfl

theorem lookup_removeFile (h : env.remove f) : (s.removeFile env f).files.lookup g = if g = f then none else s.files.lookup g := by
  rw [removeFile, if_pos h]
  split
  next heq => rw [heq, AList.lookup_erase]
  next hne => rw [AList.lookup_erase_ne hne]

end Smsg

/-! ## Storing a message -/

/-- The checks of `SecureMsgStore` that come before it looks for the bucket. -/
def Arrives (env : SmsgEnv) (smsg : SecureMessage) : Prop := env.createDirectory ∧ inWindow env smsg.timestamp.toInt

instance (env : SmsgEnv) (smsg : SecureMessage) : Decidable (Arrives env smsg) := inferInstanceAs (Decidable (_ ∧ _))

/-- There is a token of the message already. -/
def Smsg.Knows (s : Smsg) (smsg : SecureMessage) (payload : List UInt8) : Prop :=
  ∃ token ∈ (s.bucketAt (bucketTime smsg.timestamp.toInt)).setTokens,
    token.key = (SecMsgToken.ofPayload smsg.timestamp.toInt payload 0).key

/-- The file operations of `SecureMsgStore` succeed. -/
def Writes (env : SmsgEnv) (f : SmsgFile) : Prop := env.fopen f ∧ env.fseek ∧ env.fwriteOk

/-- `SecureMsgStore` stores the message. -/
def Storable (env : SmsgEnv) (smsg : SecureMessage) (payload : List UInt8) (s : Smsg) : Prop :=
  Arrives env smsg ∧ ¬ s.Knows smsg payload ∧ Writes env (.dat (bucketTime smsg.timestamp.toInt))

/-- The state `SecureMsgStore` leaves when it succeeds. -/
def Smsg.stored (s : Smsg) (env : SmsgEnv) (smsg : SecureMessage) (payload : List UInt8) (fUpdateBucket : Bool) : Smsg :=
  let time := bucketTime smsg.timestamp.toInt
  let ofs := (s.file (.dat time)).length
  let record := smsg.bytes ++ payload
  (s.setFile (.dat time) (s.file (.dat time) ++ record.take (env.fwrite record))).updateBucket time fun bucket =>
    let bucket := { bucket with setTokens := bucket.setTokens.insert (SecMsgToken.ofPayload smsg.timestamp.toInt payload ofs) }
    if fUpdateBucket then bucket.hashBucket env.adjustedTime else bucket

section

variable {env : SmsgEnv} {s : Smsg} {smsg : SecureMessage} {payload : List UInt8} {fUpdateBucket : Bool}

theorem bind_run {α β : Type} {x : SmsgM α} {k : α → SmsgM β} {a : α} {t : Smsg} (h : x s = .ok a t) : (x >>= k) s = k a t := by
  simp only [bind, EStateM.bind, h]

theorem bind_run_error {α β : Type} {x : SmsgM α} {k : α → SmsgM β} {e : SmsgError} {t : Smsg} (h : x s = .error e t) :
    (x >>= k) s = .error e t := by
  simp only [bind, EStateM.bind, h]

theorem bind_get_run {β : Type} {k : Smsg → SmsgM β} : ((get : SmsgM Smsg) >>= k) s = k s s := rfl

theorem rejectIf_run {c : Prop} [Decidable c] {e : SmsgError} (h : ¬ c) : (rejectIf c e : SmsgM Unit) s = .ok () s := by
  rw [rejectIf, if_neg h]
  rfl

theorem rejectIf_run_error {c : Prop} [Decidable c] {e : SmsgError} (h : c) : (rejectIf c e : SmsgM Unit) s = .error e s := by
  rw [rejectIf, if_pos h]
  rfl

/-- A message that does not arrive changes nothing. -/
theorem secureMsgStore_of_not_arrives (h : ¬ Arrives env smsg) :
    secureMsgStore env smsg payload fUpdateBucket s = .error (.rv 1) s := by
  by_cases hdir : env.createDirectory
  · have hwindow : ¬ inWindow env smsg.timestamp.toInt := fun hw => h ⟨hdir, hw⟩
    exact (bind_run (rejectIf_run (not_not.mpr hdir))).trans (bind_run_error (rejectIf_run_error hwindow))
  · exact bind_run_error (rejectIf_run_error hdir)

variable (payload fUpdateBucket) in
theorem secureMsgStore_of_arrives (h : Arrives env smsg) :
    secureMsgStore env smsg payload fUpdateBucket s =
      (do
        rejectIf (((s.bucketAt (bucketTime smsg.timestamp.toInt)).setTokens.find
          (SecMsgToken.ofPayload smsg.timestamp.toInt payload 0).key).isSome) (SmsgError.rv 1)
        storeToken env smsg payload
        onlyIf fUpdateBucket (modify fun s =>
          s.updateBucket (bucketTime smsg.timestamp.toInt) (SecMsgBucket.hashBucket env.adjustedTime)) : SmsgM Unit)
        (s.updateBucket (bucketTime smsg.timestamp.toInt) id) := by
  refine (bind_run (rejectIf_run (not_not.mpr h.1))).trans ((bind_run (rejectIf_run (not_not.mpr h.2))).trans ?_)
  refine (bind_run rfl).trans ((bind_run rfl).trans ?_)
  rw [Smsg.bucketAt_updateBucket]
  rfl

theorem knows_iff : ((s.bucketAt (bucketTime smsg.timestamp.toInt)).setTokens.find
    (SecMsgToken.ofPayload smsg.timestamp.toInt payload 0).key).isSome ↔ s.Knows smsg payload := by
  rw [Option.isSome_iff_exists]
  simp only [OrderedSet.find_eq_some, Smsg.Knows]

/-- A message that is known changes nothing but that its bucket is there. -/
theorem secureMsgStore_of_knows (h : Arrives env smsg) (hknows : s.Knows smsg payload) :
    secureMsgStore env smsg payload fUpdateBucket s =
      .error (.rv 1) (s.updateBucket (bucketTime smsg.timestamp.toInt) id) := by
  rw [secureMsgStore_of_arrives payload fUpdateBucket h]
  exact bind_run_error (rejectIf_run_error (knows_iff.mpr hknows))

theorem openAppend_run {f : SmsgFile} (h : env.fopen f) : openAppend env f s = .ok () (s.setFile f (s.file f)) :=
  (bind_run (rejectIf_run (not_not.mpr h))).trans rfl

theorem setFile_setFile {f : SmsgFile} (content content' : List UInt8) :
    (s.setFile f content).setFile f content' = s.setFile f content' := by
  rw [Smsg.setFile, Smsg.setFile, Smsg.setFile, AList.insert_insert]

theorem file_setFile {f : SmsgFile} (content : List UInt8) : (s.setFile f content).file f = content := by
  rw [Smsg.file, Smsg.lookup_setFile, if_pos rfl, Option.getD_some]

theorem writeRecord_run {f : SmsgFile} (record : List UInt8) (h : env.fwriteOk) :
    writeRecord env f record s = .ok () (s.setFile f (s.file f ++ record.take (env.fwrite record))) :=
  (bind_run rfl).trans (rejectIf_run (not_not.mpr h))

theorem writeRecord_run_error {f : SmsgFile} (record : List UInt8) (h : ¬ env.fwriteOk) :
    writeRecord env f record s = .error (.rv 1) (s.setFile f (s.file f ++ record.take (env.fwrite record))) :=
  (bind_run rfl).trans (rejectIf_run_error h)

theorem storeToken_run (hwrites : Writes env (.dat (bucketTime smsg.timestamp.toInt))) :
    storeToken env smsg payload s =
      .ok () ((s.setFile (.dat (bucketTime smsg.timestamp.toInt)) (s.file (.dat (bucketTime smsg.timestamp.toInt)) ++
        (smsg.bytes ++ payload).take (env.fwrite (smsg.bytes ++ payload)))).updateBucket (bucketTime smsg.timestamp.toInt)
          fun bucket => { bucket with setTokens := bucket.setTokens.insert (SecMsgToken.ofPayload smsg.timestamp.toInt payload
            (s.file (.dat (bucketTime smsg.timestamp.toInt))).length) }) := by
  obtain ⟨hopen, hseek, hwrite⟩ := hwrites
  refine (bind_run (openAppend_run hopen)).trans ((bind_run (rejectIf_run (not_not.mpr hseek))).trans ((bind_run rfl).trans ?_))
  refine (bind_run (writeRecord_run _ hwrite)).trans ?_
  rw [file_setFile, setFile_setFile]
  rfl

variable (s payload) in
theorem storeToken_run_error (hwrites : ¬ Writes env (.dat (bucketTime smsg.timestamp.toInt))) :
    storeToken env smsg payload s = .error (.rv 1) s ∨
    ∃ n, (n = 0 ∨ (env.fopen (.dat (bucketTime smsg.timestamp.toInt)) ∧ env.fseek) ∧ ¬ env.fwriteOk ∧
        n = env.fwrite (smsg.bytes ++ payload)) ∧
      storeToken env smsg payload s = .error (.rv 1) (s.setFile (.dat (bucketTime smsg.timestamp.toInt))
        (s.file (.dat (bucketTime smsg.timestamp.toInt)) ++ (smsg.bytes ++ payload).take n)) := by
  by_cases hopen : env.fopen (.dat (bucketTime smsg.timestamp.toInt))
  · by_cases hseek : env.fseek
    · have hwrite : ¬ env.fwriteOk := fun hwrite => hwrites ⟨hopen, hseek, hwrite⟩
      refine .inr ⟨_, .inr ⟨⟨hopen, hseek⟩, hwrite, rfl⟩, ?_⟩
      refine (bind_run (openAppend_run hopen)).trans ((bind_run (rejectIf_run (not_not.mpr hseek))).trans ((bind_run rfl).trans ?_))
      refine (bind_run_error (writeRecord_run_error _ hwrite)).trans ?_
      rw [file_setFile, setFile_setFile]
    · refine .inr ⟨0, .inl rfl, ?_⟩
      rw [List.take_zero, List.append_nil]
      exact (bind_run (openAppend_run hopen)).trans (bind_run_error (rejectIf_run_error hseek))
  · exact .inl (bind_run_error (bind_run_error (rejectIf_run_error hopen)))

/-- A message that is not known is stored where its file can be written. -/
theorem secureMsgStore_of_writes (h : Arrives env smsg) (hknows : ¬ s.Knows smsg payload)
    (hwrites : Writes env (.dat (bucketTime smsg.timestamp.toInt))) :
    secureMsgStore env smsg payload fUpdateBucket s = .ok () (s.stored env smsg payload fUpdateBucket) := by
  rw [secureMsgStore_of_arrives payload fUpdateBucket h]
  refine (bind_run (rejectIf_run fun hfind => hknows (knows_iff.mp hfind))).trans ((bind_run (storeToken_run hwrites)).trans ?_)
  -- the lookup of the bucket comes before the file is written, and makes no difference
  have hswap : ∀ (f : SmsgFile) (content : List UInt8) (time : Int) (h : SecMsgBucket → SecMsgBucket),
      ((s.updateBucket time id).setFile f content).updateBucket time h = (s.setFile f content).updateBucket time h :=
    fun f content time h => Smsg.updateBucket_updateBucket (s := s.setFile f content) id h
  rw [hswap]
  cases fUpdateBucket with
  | true =>
    refine (congrArg (EStateM.Result.ok ()) (Smsg.updateBucket_updateBucket _ _)).trans ?_
    rfl
  | false => rfl

variable (fUpdateBucket) in
/-- Otherwise nothing is stored. A part of the message may be in the file. -/
theorem secureMsgStore_of_not_writes (h : Arrives env smsg) (hknows : ¬ s.Knows smsg payload)
    (hwrites : ¬ Writes env (.dat (bucketTime smsg.timestamp.toInt))) :
    ∃ s', secureMsgStore env smsg payload fUpdateBucket s = .error (.rv 1) s' ∧ s'.fSecMsgenabled = s.fSecMsgenabled ∧
      s'.smsgBuckets = (s.updateBucket (bucketTime smsg.timestamp.toInt) id).smsgBuckets ∧
      (s'.files = s.files ∨ ∃ n, (n = 0 ∨ (env.fopen (.dat (bucketTime smsg.timestamp.toInt)) ∧ env.fseek) ∧ ¬ env.fwriteOk ∧
          n = env.fwrite (smsg.bytes ++ payload)) ∧
        s'.files = (s.setFile (.dat (bucketTime smsg.timestamp.toInt))
          (s.file (.dat (bucketTime smsg.timestamp.toInt)) ++ (smsg.bytes ++ payload).take n)).files) := by
  have hrun := secureMsgStore_of_arrives payload fUpdateBucket h (s := s)
  rw [bind_run (rejectIf_run fun hfind => hknows (knows_iff.mp hfind))] at hrun
  obtain herr | ⟨n, hn, herr⟩ := storeToken_run_error (s.updateBucket (bucketTime smsg.timestamp.toInt) id) payload hwrites
  · exact ⟨_, hrun.trans (bind_run_error herr), rfl, rfl, .inl rfl⟩
  · exact ⟨_, hrun.trans (bind_run_error herr), rfl, rfl, .inr ⟨n, hn, rfl⟩⟩

theorem lookup_stored_of_ne {time : Int} (h : time ≠ bucketTime smsg.timestamp.toInt) :
    (s.stored env smsg payload fUpdateBucket).smsgBuckets.lookup time = s.smsgBuckets.lookup time := by
  rw [Smsg.stored, Smsg.lookup_updateBucket, if_neg h]
  rfl

theorem file_stored (env : SmsgEnv) (s : Smsg) (smsg : SecureMessage) (payload : List UInt8) (fUpdateBucket : Bool) :
    (s.stored env smsg payload fUpdateBucket).file (.dat (bucketTime smsg.timestamp.toInt)) =
      s.file (.dat (bucketTime smsg.timestamp.toInt)) ++ (smsg.bytes ++ payload).take (env.fwrite (smsg.bytes ++ payload)) :=
  file_setFile _

theorem file_stored_of_ne {f : SmsgFile} (h : f ≠ .dat (bucketTime smsg.timestamp.toInt)) :
    (s.stored env smsg payload fUpdateBucket).file f = s.file f :=
  Smsg.file_setFile_of_ne h

theorem setTokens_stored (env : SmsgEnv) (s : Smsg) (smsg : SecureMessage) (payload : List UInt8) (fUpdateBucket : Bool) :
    ((s.stored env smsg payload fUpdateBucket).bucketAt (bucketTime smsg.timestamp.toInt)).setTokens =
      (s.bucketAt (bucketTime smsg.timestamp.toInt)).setTokens.insert (SecMsgToken.ofPayload smsg.timestamp.toInt payload
        (s.file (.dat (bucketTime smsg.timestamp.toInt))).length) := by
  rw [Smsg.stored, Smsg.bucketAt_updateBucket]
  cases fUpdateBucket <;> rfl

variable (env smsg payload fUpdateBucket s) in
/-- A message is stored, or refused; where it arrives its bucket is there
afterwards. -/
theorem secureMsgStore_cases :
    (Storable env smsg payload s ∧
      secureMsgStore env smsg payload fUpdateBucket s = .ok () (s.stored env smsg payload fUpdateBucket)) ∨
    (¬ Storable env smsg payload s ∧ ∃ s', secureMsgStore env smsg payload fUpdateBucket s = .error (.rv 1) s' ∧
      ((¬ Arrives env smsg ∧ s'.smsgBuckets = s.smsgBuckets) ∨
        (Arrives env smsg ∧ s'.smsgBuckets = (s.updateBucket (bucketTime smsg.timestamp.toInt) id).smsgBuckets))) := by
  by_cases harrives : Arrives env smsg
  · by_cases hknows : s.Knows smsg payload
    · exact .inr ⟨fun h => h.2.1 hknows, _, secureMsgStore_of_knows harrives hknows, .inr ⟨harrives, rfl⟩⟩
    · by_cases hwrites : Writes env (.dat (bucketTime smsg.timestamp.toInt))
      · exact .inl ⟨⟨harrives, hknows, hwrites⟩, secureMsgStore_of_writes harrives hknows hwrites⟩
      · obtain ⟨s', hrun, -, hbuckets, -⟩ := secureMsgStore_of_not_writes fUpdateBucket harrives hknows hwrites
        exact .inr ⟨fun h => hwrites h.2.2, s', hrun, .inr ⟨harrives, hbuckets⟩⟩
  · exact .inr ⟨fun h => harrives h.1, s, secureMsgStore_of_not_arrives harrives, .inl ⟨harrives, rfl⟩⟩

end

theorem succeeds_ok {α : Type} {x : SmsgM α} {s s' : Smsg} {a : α} (h : x s = .ok a s') : succeeds x s = .ok (some a) s' := by
  simp only [succeeds, h]

theorem succeeds_keyError {α : Type} {x : SmsgM α} {s s' : Smsg} (h : x s = .error .keyError s') :
    succeeds x s = .error .keyError s' := by
  simp only [succeeds, h]

theorem succeeds_error {α : Type} {x : SmsgM α} {s s' : Smsg} {n : Nat} (h : x s = .error (.rv n) s') :
    succeeds x s = .ok none s' := by
  simp only [succeeds, h]

theorem secureMsgStore_error {env : SmsgEnv} {s s' : Smsg} {smsg : SecureMessage} {payload : List UInt8} {fUpdateBucket : Bool}
    {e : SmsgError} (h : secureMsgStore env smsg payload fUpdateBucket s = .error e s') : e = .rv 1 := by
  obtain ⟨-, hrun⟩ | ⟨-, _, hrun, -⟩ := secureMsgStore_cases env s smsg payload fUpdateBucket
  · simp [hrun] at h
  · rw [hrun] at h
    exact (EStateM.Result.error.inj h).1.symm

/-! ## What scanning leaves alone -/

/-- The buckets and their files stay as they are, and the addresses. Only the
files of messages that wait for the wallet, the keys and the inbox may change. -/
structure SameStore (s s' : Smsg) : Prop where
  enabled : s'.fSecMsgenabled = s.fSecMsgenabled
  buckets : s'.smsgBuckets = s.smsgBuckets
  addresses : s'.smsgAddresses = s.smsgAddresses
  files : ∀ time, s'.files.lookup (.dat time) = s.files.lookup (.dat time)

namespace SameStore

variable {s s' s'' : Smsg}

theorem refl : SameStore s s := ⟨rfl, rfl, rfl, fun _ => rfl⟩

theorem trans (h : SameStore s s') (h' : SameStore s' s'') : SameStore s s'' :=
  ⟨h'.enabled.trans h.enabled, h'.buckets.trans h.buckets, h'.addresses.trans h.addresses,
    fun time => (h'.files time).trans (h.files time)⟩

end SameStore

/-- The buckets stay as they are. -/
def SameBuckets (s s' : Smsg) : Prop := s'.smsgBuckets = s.smsgBuckets

instance : Std.Refl SameBuckets := ⟨fun _ => rfl⟩
instance : IsTrans Smsg SameBuckets := ⟨fun _ _ _ h h' => Eq.trans h' h⟩
instance : Std.Refl SameStore := ⟨fun _ => .refl⟩
instance : IsTrans Smsg SameStore := ⟨fun _ _ _ h h' => h.trans h'⟩

section

variable {P : SmsgParams} {env : SmsgEnv} {s : Smsg} {smsg : SecureMessage} {payload : List UInt8}

theorem keeps_succeeds {α : Type} {R : Smsg → Smsg → Prop} {x : SmsgM α} (h : Keeps R x) : Keeps R (succeeds x) := by
  intro s
  have hs := h s
  unfold succeeds
  split
  next heq => simpa only [heq, endState_ok] using hs
  next heq => simpa only [heq, endState_error, endState_ok] using hs
  next heq => simpa only [heq, endState_error] using hs

theorem sameStore_setFile (time : Int) (content : List UInt8) : SameStore s (s.setFile (.wl time) content) :=
  ⟨rfl, rfl, rfl, fun _ => by rw [Smsg.lookup_setFile, if_neg (by simp)]⟩

theorem keeps_secureMsgStoreUnscanned : Keeps SameStore (secureMsgStoreUnscanned env smsg payload) := by
  refine keeps_bind (keeps_rejectIf _ _) fun _ => keeps_bind (keeps_rejectIf _ _) fun _ => ?_
  refine keeps_bind (keeps_bind (keeps_rejectIf _ _) fun _ => keeps_modify fun s => sameStore_setFile _ _) fun _ => ?_
  exact keeps_bind (keeps_modify fun s => sameStore_setFile _ _) fun _ => keeps_rejectIf _ _

theorem keeps_secureMsgInsertAddress (hashKey : CKeyID) (pubKey : List UInt8) :
    Keeps SameStore (secureMsgInsertAddress env hashKey pubKey) := by
  refine keeps_modify fun s => ?_
  split
  · exact ⟨rfl, rfl, rfl, fun _ => rfl⟩
  · exact .refl

theorem keeps_secureMsgDecrypt (address : List Char) : Keeps SameStore (secureMsgDecrypt P env address smsg payload) := by
  refine keeps_bind (keeps_lift _) fun key_e => ?_
  split
  next => exact keeps_throw _
  next vchPayload _ =>
    refine keeps_bind (keeps_lift _) fun vchMessage => keeps_ite ?_ (keeps_bind ?_ fun _ => keeps_pure _)
    · exact keeps_bind (keeps_pure _) fun _ => keeps_pure _
    · refine keeps_bind (keeps_rejectIf _ _) fun _ => keeps_bind (keeps_lift _) fun _ => ?_
      exact keeps_bind (keeps_secureMsgInsertAddress _ _) fun _ => keeps_pure _

theorem keeps_findAddress (addresses : List SecMsgAddress) : Keeps SameStore (findAddress P env smsg payload addresses) := by
  induction addresses with
  | nil => exact keeps_pure _
  | cons it rest ih =>
    refine keeps_ite ih (keeps_ite (keeps_ite (keeps_pure _) ih) ?_)
    refine keeps_bind (keeps_succeeds (keeps_secureMsgDecrypt _)) fun msg => ?_
    cases msg with
    | none => exact ih
    | some msg => exact keeps_pure _

theorem keeps_secureMsgScanMessage : Keeps SameStore (secureMsgScanMessage P env smsg payload) := by
  refine keeps_ite (keeps_bind (keeps_succeeds keeps_secureMsgStoreUnscanned) fun rv => ?_) ?_
  · cases rv with
    | none => exact keeps_throw _
    | some _ => exact keeps_throw _
  · refine keeps_bind keeps_get fun s => keeps_bind (keeps_findAddress _) fun addressTo => ?_
    cases addressTo with
    | none => exact keeps_pure _
    | some addressTo =>
      refine keeps_modify fun s => ?_
      split
      · exact ⟨rfl, rfl, rfl, fun _ => rfl⟩
      · exact .refl

theorem keeps_scanMessages (envs : Nat → SmsgEnv) (i : Nat) (messages : List (SecureMessage × List UInt8)) :
    Keeps SameStore (scanMessages P envs i messages) := by
  induction messages generalizing i with
  | nil => exact keeps_pure _
  | cons m rest ih => exact keeps_bind (keeps_succeeds keeps_secureMsgScanMessage) fun _ => ih _

theorem keeps_scanFile (envs : Nat → SmsgEnv) (f : SmsgFile) : Keeps SameBuckets (scanFile P envs f) := by
  refine keeps_bind keeps_get fun s => keeps_bind ?_ fun _ => keeps_bind (keeps_rejectIf _ _) fun _ => ?_
  · exact (keeps_scanMessages _ _ _).mono fun _ _ h => h.buckets
  · exact keeps_modify fun s => Smsg.smsgBuckets_removeFile

theorem keeps_scanBucket (envs : Nat → SmsgEnv) (f : SmsgFile) : Keeps SameBuckets (scanBucket P envs f) := by
  refine keeps_ite (keeps_modify fun s => Smsg.smsgBuckets_removeFile) ?_
  cases f with
  | wl time => exact keeps_pure _
  | dat time => exact keeps_ite (keeps_scanFile _ _) (keeps_pure _)

theorem keeps_scanUnlocked (envs : Nat → SmsgEnv) (f : SmsgFile) : Keeps SameBuckets (scanUnlocked P envs f) := by
  cases f with
  | dat time => exact keeps_pure _
  | wl time =>
    refine keeps_ite ?_ (keeps_ite (keeps_scanFile _ _) (keeps_pure _))
    exact keeps_bind (keeps_rejectIf _ _) fun _ => keeps_modify fun s => Smsg.smsgBuckets_removeFile

end

/-! ## Inventories -/

/-- A bucket is the same apart from its lock. -/
def OnlyLocks (f : SecMsgBucket → SecMsgBucket) : Prop := ∀ bucket,
  f bucket = { bucket with nLockCount := (f bucket).nLockCount, nLockPeerId := (f bucket).nLockPeerId }

section

variable {R : Smsg → Smsg → Prop} [Std.Refl R] [IsTrans Smsg R]
  (hlocks : ∀ s time f, OnlyLocks f → R s (s.updateBucket time f)) {env : SmsgEnv} {vchData : List UInt8}

include hlocks

theorem keeps_answerInvs (indices : List Nat) : Keeps R (answerInvs env vchData indices) := by
  induction indices with
  | nil => exact keeps_pure _
  | cons i rest ih =>
    refine keeps_bind (keeps_ite (keeps_pure _) ?_) fun _ => keeps_bind ih fun _ => keeps_pure _
    refine keeps_bind (keeps_modify fun s => hlocks s _ _ fun _ => rfl) fun _ => keeps_bind keeps_get fun s => ?_
    exact keeps_ite (keeps_pure _) (keeps_ite (keeps_pure _) (keeps_pure _))

/-- `smsgInv` makes buckets, and changes none. -/
theorem keeps_smsgInv (ignoreUntil : Int) : Keeps R (smsgInv env ignoreUntil vchData) := by
  refine keeps_bind (keeps_rejectIf _ _) fun _ => keeps_bind (keeps_rejectIf _ _) fun _ => ?_
  refine keeps_bind (keeps_rejectIf _ _) fun _ => keeps_bind (keeps_rejectIf _ _) fun _ => ?_
  refine keeps_bind (keeps_answerInvs hlocks _) fun _ => ?_
  exact keeps_ite (keeps_pure _) (keeps_ite (keeps_pure _) (keeps_pure _))

/-- `smsgHave` locks the bucket. -/
theorem keeps_smsgHave (nPeerId : Nat) : Keeps R (smsgHave env nPeerId vchData) := by
  refine keeps_bind (keeps_rejectIf _ _) fun _ => keeps_bind (keeps_rejectIf _ _) fun _ => ?_
  refine keeps_bind (keeps_rejectIf _ _) fun _ => ?_
  refine keeps_bind (keeps_modify fun s => hlocks s _ _ fun _ => rfl) fun _ => keeps_bind keeps_get fun s => ?_
  refine keeps_bind (keeps_rejectIf _ _) fun _ => keeps_ite (keeps_bind (keeps_modify fun s => ?_) fun _ => keeps_pure _) (keeps_pure _)
  exact hlocks s _ _ fun _ => rfl

end

/-! ## A message of this node -/

/-- Scanning the message afterwards changes neither buckets nor their files. -/
theorem powMessage_ok {P : SmsgParams} {s : Smsg} {env env' : SmsgEnv} {smsg : SecureMessage} {vchData : List UInt8}
    (h : secureMsgSetHash P env (bunchMessage env vchData 0).1 (bunchMessage env vchData 0).2 = .ok smsg) :
    SameStore (endState (secureMsgStore env smsg (bunchMessage env vchData 0).2 true s)) (endState (powMessage P env env' vchData s)) := by
  rw [powMessage]
  simp only [h]
  rw [bind_run (lift_ok.mpr ⟨rfl, rfl⟩)]
  cases hrun : secureMsgStore env smsg (bunchMessage env vchData 0).2 true s with
  | ok _ t =>
    rw [bind_run hrun]
    exact keeps_secureMsgScanMessage t
  | error e t =>
    rw [bind_run_error hrun]
    exact .refl

theorem powMessage_error {P : SmsgParams} {s : Smsg} {env env' : SmsgEnv} {vchData : List UInt8} {e : SmsgError}
    (h : secureMsgSetHash P env (bunchMessage env vchData 0).1 (bunchMessage env vchData 0).2 = .error e) :
    endState (powMessage P env env' vchData s) = s := by
  rw [powMessage]
  simp only [h]
  rw [bind_run_error (lift_error.mpr ⟨rfl, rfl⟩)]
  rfl

/-! ## The loop over a bunch -/

section

variable (P : SmsgParams) (Q : SmsgEnv → SecureMessage → List UInt8 → Smsg → Prop)

/-- `Q` holds of each message of a bunch that `SecureMsgStore` is asked to
store, in the state it is asked in. -/
def EachMessage (envs : Nat → SmsgEnv) (vchData : List UInt8) : Nat → Nat → Nat → Smsg → Prop
  | 0, _, _, _ => True
  | left + 1, i, n, s =>
    (vchData.length + 2 ^ 64 - n) % 2 ^ 64 < SMSG_HDR_LEN ∨
    let (smsg, payload) := bunchMessage (envs i) vchData n
    match secureMsgValidate P smsg payload smsg.nPayload.toNat with
    | .error _ => EachMessage envs vchData left (i + 1) n s
    | .ok _ =>
      Q (envs i) smsg payload s ∧
        match secureMsgStore (envs i) smsg payload false s with
        | .error _ _ => True
        | .ok _ s' =>
          match secureMsgScanMessage P (envs i) smsg payload s' with
          | .error .keyError _ => True
          | r => EachMessage envs vchData left (i + 1) ((n + SMSG_HDR_LEN + smsg.nPayload.toNat) % 2 ^ 32) (endState r)

variable {P Q} {R : Smsg → Smsg → Prop} [Std.Refl R] [IsTrans Smsg R] {envs : Nat → SmsgEnv} {vchData : List UInt8} {s : Smsg}

/-- What storing and scanning each message keeps, the loop keeps. -/
theorem receiveLoop_keeps {left i n : Nat} (h : EachMessage P Q envs vchData left i n s)
    (hstore : ∀ env smsg payload s, payload.length = smsg.nPayload.toNat → Q env smsg payload s →
      R s (endState (secureMsgStore env smsg payload false s)))
    (hscan : ∀ s s', SameStore s s' → R s s') : R s (endState (receiveLoop P envs vchData left i n s)) := by
  induction left generalizing i n s with
  | zero => exact Std.Refl.refl s
  | succ left ih =>
    rw [receiveLoop]
    split
    next => exact Std.Refl.refl s
    next hlong =>
      replace h := h.resolve_left hlong
      cases hvalid : secureMsgValidate P (bunchMessage (envs i) vchData n).1 (bunchMessage (envs i) vchData n).2
          (bunchMessage (envs i) vchData n).1.nPayload.toNat with
      | error e =>
        simp only [hvalid] at h ⊢
        exact ih h
      | ok _ =>
        simp only [hvalid] at h ⊢
        have hfirst := hstore _ _ _ s ((envs i).length_memory _ _ _) h.1
        cases hrun : secureMsgStore (envs i) (bunchMessage (envs i) vchData n).1 (bunchMessage (envs i) vchData n).2 false s with
        | error e t =>
          obtain rfl := secureMsgStore_error hrun
          rw [bind_run (succeeds_error hrun)]
          exact (congrArg (fun r => R s (endState r)) hrun).mp hfirst
        | ok _ t =>
          have hmid : R s t := (congrArg (fun r => R s (endState r)) hrun).mp hfirst
          simp only [hrun] at h
          rw [bind_run (succeeds_ok hrun)]
          dsimp only
          have hsame : SameStore t (endState (secureMsgScanMessage P (envs i) (bunchMessage (envs i) vchData n).1
            (bunchMessage (envs i) vchData n).2 t)) := keeps_secureMsgScanMessage t
          cases hscanned : secureMsgScanMessage P (envs i) (bunchMessage (envs i) vchData n).1
              (bunchMessage (envs i) vchData n).2 t with
          | ok _ t' =>
            simp only [hscanned] at h hsame
            rw [bind_run (succeeds_ok hscanned)]
            exact IsTrans.trans _ _ _ hmid (IsTrans.trans _ _ _ (hscan _ _ hsame) (ih h.2))
          | error e t' =>
            cases e with
            | keyError =>
              rw [bind_run_error (succeeds_keyError hscanned)]
              rw [hscanned] at hsame
              exact IsTrans.trans _ _ _ hmid (hscan _ _ hsame)
            | rv rv =>
              simp only [hscanned] at h hsame
              rw [bind_run (succeeds_error hscanned)]
              exact IsTrans.trans _ _ _ hmid (IsTrans.trans _ _ _ (hscan _ _ hsame) (ih h.2))

/-- The scan of a stored message ends with an exception. -/
def ScanThrows (P : SmsgParams) (env : SmsgEnv) (smsg : SecureMessage) (payload : List UInt8) (s : Smsg) : Prop :=
  ∃ s' s'', secureMsgStore env smsg payload false s = .ok () s' ∧ secureMsgScanMessage P env smsg payload s' = .error .keyError s''

/-- Without an exception the loop ends. -/
theorem receiveLoop_ok {left i n : Nat} (h : EachMessage P Q envs vchData left i n s)
    (hQ : ∀ env smsg payload s, Q env smsg payload s → ¬ ScanThrows P env smsg payload s) :
    ∃ s', receiveLoop P envs vchData left i n s = .ok () s' := by
  induction left generalizing i n s with
  | zero => exact ⟨s, rfl⟩
  | succ left ih =>
    rw [receiveLoop]
    split
    next => exact ⟨s, rfl⟩
    next hlong =>
      replace h := h.resolve_left hlong
      cases hvalid : secureMsgValidate P (bunchMessage (envs i) vchData n).1 (bunchMessage (envs i) vchData n).2
          (bunchMessage (envs i) vchData n).1.nPayload.toNat with
      | error e =>
        simp only [hvalid] at h ⊢
        exact ih h
      | ok _ =>
        simp only [hvalid] at h ⊢
        cases hrun : secureMsgStore (envs i) (bunchMessage (envs i) vchData n).1 (bunchMessage (envs i) vchData n).2 false s with
        | error e t =>
          obtain rfl := secureMsgStore_error hrun
          exact ⟨t, bind_run (succeeds_error hrun)⟩
        | ok _ t =>
          simp only [hrun] at h
          rw [bind_run (succeeds_ok hrun)]
          dsimp only
          cases hscanned : secureMsgScanMessage P (envs i) (bunchMessage (envs i) vchData n).1
              (bunchMessage (envs i) vchData n).2 t with
          | ok _ t' =>
            simp only [hscanned] at h
            rw [bind_run (succeeds_ok hscanned)]
            exact ih h.2
          | error e t' =>
            cases e with
            | keyError => exact absurd ⟨t, t', hrun, hscanned⟩ (hQ _ _ _ _ h.1)
            | rv rv =>
              simp only [hscanned] at h
              rw [bind_run (succeeds_error hscanned)]
              exact ih h.2

end

end Pinkcoin
