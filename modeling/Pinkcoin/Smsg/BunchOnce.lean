/-
A bunch of messages in one call of `SecureMsgReceive`: which of them end up in
the store, and how often each is validated. A message that is not valid is
come to again, and one that is not stored ends the loop.
-/
import Pinkcoin.Net.Message
import Pinkcoin.Smsg.Index
import Pinkcoin.Smsg.Visits

namespace Pinkcoin

open CScript (leBytes leNat)
open StateError
open RecordLog (log index)

/-! ## Well-formed bunches -/

/-- A bunch as a peer sends it: the number of messages, the bucket, and the
messages. -/
def bunchBytes (time : BitVec 64) (messages : List StoredMessage) : List UInt8 :=
  leBytes 4 messages.length ++ (leBytes 8 time.toNat ++ log StoredMessage.bytes messages)

/-- The messages of a bunch that can be sent: some, at most 500, each with the
payload its header announces, and no larger than a message may be. -/
structure WellFormed (messages : List StoredMessage) : Prop where
  some : messages ≠ []
  few : messages.length ≤ 500
  sizes : ∀ m ∈ messages, m.2.length = m.1.nPayload.toNat
  total : 12 + (log StoredMessage.bytes messages).length ≤ MAX_SIZE

/-- The offsets the messages lie at. -/
def offsets (n : Nat) (messages : List StoredMessage) : List Nat := (index StoredMessage.bytes n messages).map Prod.fst

namespace StoredMessage

/-- `SecureMsgValidate` accepts the message. -/
def Valid (P : SmsgParams) (m : StoredMessage) : Prop := secureMsgValidate P m.1 m.2 m.1.nPayload.toNat = .ok ()

/-- Looking for the address of a message ends with an exception. -/
def Throws (P : SmsgParams) (env : SmsgEnv) (s : Smsg) (m : StoredMessage) : Prop :=
  ¬ env.isLocked ∧ outcome (findAddress P env m.1 m.2 s.smsgAddresses s) = .error .keyError

end StoredMessage

/-- Every file operation of a call succeeds. -/
def AllWrites (envs : Nat → SmsgEnv) : Prop := ∀ i, (envs i).createDirectory ∧ ∀ f, Writes (envs i) f

/-- Each message that is valid, and in the window when its turn comes, is in
the store after the call, and each message is validated exactly once. -/
structure EachOnce (P : SmsgParams) (envs : Nat → SmsgEnv) (time : BitVec 64) (messages : List StoredMessage) (s : Smsg) :
    Prop where
  stored : ∀ k m, messages[k]? = some m → m.Valid P → inWindow (envs k) m.1.timestamp.toInt →
    (endState (secureMsgReceive P envs (bunchBytes time messages) s)).HasToken (tokenOf m.1 m.2)
  once : ∀ ofs ∈ offsets 12 messages, ((receiveVisits P envs (bunchBytes time messages) s).map Visit.ofs).count ofs = 1

/-- Each message but the last is valid, in the window, neither in the store
already nor a repeat, and is scanned without an exception. -/
def NewButLast (P : SmsgParams) (envs : Nat → SmsgEnv) (s : Smsg) : Nat → List SecMsgToken → List StoredMessage → Prop
  | i, seen, m :: m' :: rest =>
    (m.Valid P ∧ inWindow (envs i) m.1.timestamp.toInt ∧ ¬ s.HasToken (tokenOf m.1 m.2) ∧
      (∀ token ∈ seen, token.key ≠ (tokenOf m.1 m.2).key) ∧ ¬ m.Throws P (envs i) s) ∧
        NewButLast P envs s (i + 1) (tokenOf m.1 m.2 :: seen) (m' :: rest)
  | _, _, _ => True

section

variable {P : SmsgParams} {env : SmsgEnv} {envs : Nat → SmsgEnv} {smsg : SecureMessage} {payload vchData : List UInt8}
  {s t : Smsg} {m : StoredMessage} {rest messages : List StoredMessage} {i n : Nat} {seen : List SecMsgToken}

/-! ## Exceptions -/

theorem blind_succeeds {α : Type} {x : SmsgM α} (h : Blind x) : Blind (succeeds x) := by
  intro s t
  have houtcome := h s t
  unfold succeeds
  cases hs : x s with
  | ok a s' =>
    cases ht : x t with
    | ok b t' =>
      rw [hs, ht] at houtcome
      cases houtcome
      rfl
    | error e t' =>
      rw [hs, ht] at houtcome
      cases houtcome
  | error e s' =>
    cases ht : x t with
    | ok b t' =>
      rw [hs, ht] at houtcome
      cases houtcome
    | error e' t' =>
      rw [hs, ht] at houtcome
      cases houtcome
      cases e <;> rfl

theorem blind_secureMsgDecrypt (address : List Char) : Blind (secureMsgDecrypt P env address smsg payload) := by
  refine blind_bind (blind_lift _) fun key_e => ?_
  split
  next => exact blind_throw _
  next vchPayload _ =>
    refine blind_bind (blind_lift _) fun vchMessage => blind_ite ?_ (blind_bind ?_ fun _ => blind_pure _)
    · exact blind_bind (blind_pure _) fun _ => blind_pure _
    · refine blind_bind (blind_rejectIf _ _) fun _ => blind_bind (blind_lift _) fun _ => ?_
      exact blind_bind (blind_modify _) fun _ => blind_pure _

/-- Which address is found does not depend on the state. -/
theorem blind_findAddress (addresses : List SecMsgAddress) : Blind (findAddress P env smsg payload addresses) := by
  induction addresses with
  | nil => exact blind_pure _
  | cons it rest ih =>
    refine blind_ite ih (blind_ite (blind_ite (blind_pure _) ih) ?_)
    refine blind_bind (blind_succeeds (blind_secureMsgDecrypt _)) fun msg => ?_
    cases msg with
    | none => exact ih
    | some msg => exact blind_pure _

/-- Nor does the exception of a scan. -/
theorem throws_iff (h : t.smsgAddresses = s.smsgAddresses) : m.Throws P env t ↔ m.Throws P env s := by
  rw [StoredMessage.Throws, StoredMessage.Throws, h, blind_findAddress _ t s]

theorem throws_stored {env' : SmsgEnv} (fUpdateBucket : Bool) :
    m.Throws P env (s.stored env' m.1 m.2 fUpdateBucket) ↔ m.Throws P env s := throws_iff rfl

theorem secureMsgStoreUnscanned_error {e : SmsgError} {s' : Smsg}
    (h : secureMsgStoreUnscanned env smsg payload s = .error e s') : e = .rv 1 := by
  simp only [secureMsgStoreUnscanned, openAppend, writeRecord, bind_error, bind_ok, rejectIf_error, rejectIf_ok, modify_error,
    modify_ok, false_or] at h
  grind

theorem scan_keyError_iff :
    (∃ s', secureMsgScanMessage P env m.1 m.2 s = .error .keyError s') ↔ m.Throws P env s := by
  rw [StoredMessage.Throws, secureMsgScanMessage]
  by_cases hlock : env.isLocked
  · rw [if_pos hlock]
    simp only [hlock, not_true_eq_false, false_and, iff_false, not_exists]
    intro s' h
    obtain h | ⟨rv, t, -, h⟩ := bind_error.mp h
    · cases hrun : secureMsgStoreUnscanned env m.1 m.2 s with
      | ok a t => simp [succeeds, hrun] at h
      | error e t =>
        cases e with
        | rv n => simp [succeeds, hrun] at h
        | keyError => cases secureMsgStoreUnscanned_error hrun
    · cases rv <;> simp at h
  · rw [if_neg hlock, bind_get_run]
    cases hfind : findAddress P env m.1 m.2 s.smsgAddresses s with
    | ok addressTo s' =>
      rw [bind_run hfind]
      cases addressTo <;> simp [outcome, hlock]
    | error e s' =>
      rw [bind_run_error hfind]
      simp [outcome, hlock]

/-! ## Where the messages lie -/

/-- The messages from an offset on, in a bunch that is not too large. -/
structure LiesAt (vchData : List UInt8) (n : Nat) (rest : List StoredMessage) : Prop where
  bytes : vchData.drop n = log StoredMessage.bytes rest
  before : n ≤ vchData.length
  small : vchData.length < 2 ^ 32
  sizes : ∀ m ∈ rest, m.2.length = m.1.nPayload.toNat

theorem LiesAt.length (h : LiesAt vchData n (m :: rest)) :
    vchData.length = n + (SMSG_HDR_LEN + m.1.nPayload.toNat) + (log StoredMessage.bytes rest).length := by
  have hlen := congrArg List.length h.bytes
  rw [List.length_drop, RecordLog.log_cons, List.length_append, m.length_bytes, h.sizes m List.mem_cons_self] at hlen
  have hbefore := h.before
  omega

theorem LiesAt.tail (h : LiesAt vchData n (m :: rest)) : LiesAt vchData (n + (SMSG_HDR_LEN + m.1.nPayload.toNat)) rest := by
  have hlen := h.length
  refine ⟨?_, by omega, h.small, fun m' hm' => h.sizes m' (List.mem_cons_of_mem _ hm')⟩
  rw [← List.drop_drop, h.bytes, RecordLog.log_cons, List.drop_left']
  rw [m.length_bytes, h.sizes m List.mem_cons_self]

/-- The loop reads the message that lies there. -/
theorem LiesAt.messageAt (h : LiesAt vchData n (m :: rest)) : messageAt vchData n = m := by
  have hlen := h.length
  have hsmall := h.small
  have hheader : field vchData n SMSG_HDR_LEN = ⟨m.1.bytes, m.1.length_bytes⟩ := by
    refine Subtype.ext ((memory_eq_field SmsgSample.env (by omega)).symm.trans ?_)
    rw [SmsgEnv.memory_eq _ (by omega), h.bytes, RecordLog.log_cons, StoredMessage.bytes, List.append_assoc,
      List.take_left' m.1.length_bytes]
  have hpayload : (field vchData (n + SMSG_HDR_LEN) m.1.nPayload.toNat).toList = m.2 := by
    refine (memory_eq_field SmsgSample.env (by omega)).symm.trans ?_
    rw [SmsgEnv.memory_eq _ (by omega), ← List.drop_drop, h.bytes, RecordLog.log_cons, StoredMessage.bytes, List.append_assoc,
      List.drop_left' m.1.length_bytes, List.take_left' (h.sizes m List.mem_cons_self)]
  have hmod : (n + SMSG_HDR_LEN) % 2 ^ 32 = n + SMSG_HDR_LEN := Nat.mod_eq_of_lt (by omega)
  have hsmsg : SecureMessage.ofBytes (field vchData n SMSG_HDR_LEN) = m.1 := by rw [hheader, SecureMessage.ofBytes_bytes]
  refine Prod.ext hsmsg ?_
  change (field vchData ((n + SMSG_HDR_LEN) % 2 ^ 32)
    (SecureMessage.ofBytes (field vchData n SMSG_HDR_LEN)).nPayload.toNat).toList = m.2
  rw [hsmsg, hmod]
  exact hpayload

theorem LiesAt.inside (h : LiesAt vchData n (m :: rest)) : n + SMSG_HDR_LEN + m.1.nPayload.toNat ≤ vchData.length := by
  have hlen := h.length
  omega

theorem LiesAt.enough (h : LiesAt vchData n (m :: rest)) : ¬ (vchData.length + 2 ^ 64 - n) % 2 ^ 64 < SMSG_HDR_LEN := by
  have hlen := h.length
  have hsmall := h.small
  have hmod : (vchData.length + 2 ^ 64 - n) % 2 ^ 64 = vchData.length - n := by
    rw [show vchData.length + 2 ^ 64 - n = vchData.length - n + 2 ^ 64 by omega, Nat.add_mod_right]
    exact Nat.mod_eq_of_lt (by omega)
  rw [hmod]
  omega

theorem LiesAt.next (h : LiesAt vchData n (m :: rest)) :
    (n + SMSG_HDR_LEN + m.1.nPayload.toNat) % 2 ^ 32 = n + (SMSG_HDR_LEN + m.1.nPayload.toNat) := by
  have hlen := h.length
  have hsmall := h.small
  rw [Nat.add_assoc]
  exact Nat.mod_eq_of_lt (by omega)

/-! ## One message of a bunch -/

/-- What the state of the loop keeps of the state before the call: the tokens
are those and the ones seen since, and the addresses are the same. -/
structure Since (s : Smsg) (seen : List SecMsgToken) (t : Smsg) : Prop where
  tokens : ∀ token, t.HasToken token ↔ s.HasToken token ∨ ∃ token' ∈ seen, token'.key = token.key
  addresses : t.smsgAddresses = s.smsgAddresses

theorem Since.refl : Since s [] s := ⟨fun token => by simp, rfl⟩

/-- The message is stored, and its scan ends without an exception. -/
def Passes (P : SmsgParams) (env : SmsgEnv) (m : StoredMessage) (t : Smsg) : Prop :=
  m.Valid P ∧ Storable env m.1 m.2 t ∧ ¬ m.Throws P env t

theorem Since.passes_iff (h : Since s seen t) (hwrites : AllWrites envs) :
    Passes P (envs i) m t ↔ m.Valid P ∧ inWindow (envs i) m.1.timestamp.toInt ∧ ¬ s.HasToken (tokenOf m.1 m.2) ∧
      (∀ token ∈ seen, token.key ≠ (tokenOf m.1 m.2).key) ∧ ¬ m.Throws P (envs i) s := by
  have hknows : ¬ t.Knows m.1 m.2 ↔ ¬ s.HasToken (tokenOf m.1 m.2) ∧ ∀ token ∈ seen, token.key ≠ (tokenOf m.1 m.2).key := by
    rw [knows_iff_hasToken, h.tokens, not_or]
    simp only [not_exists, not_and, ne_eq]
  rw [Passes, Storable, Arrives, throws_iff h.addresses, hknows]
  constructor
  · intro hpasses
    obtain ⟨hvalid, ⟨⟨-, hwindow⟩, ⟨hnew, hrepeat⟩, -⟩, hthrows⟩ := hpasses
    exact ⟨hvalid, hwindow, hnew, hrepeat, hthrows⟩
  · intro hgood
    obtain ⟨hvalid, hwindow, hnew, hrepeat, hthrows⟩ := hgood
    exact ⟨hvalid, ⟨⟨(hwrites i).1, hwindow⟩, ⟨hnew, hrepeat⟩, (hwrites i).2 _⟩, hthrows⟩

/-- The state after a message that passes. -/
def passed (P : SmsgParams) (env : SmsgEnv) (m : StoredMessage) (t : Smsg) : Smsg :=
  endState (secureMsgScanMessage P env m.1 m.2 (t.stored env m.1 m.2 false))

theorem hasToken_passed {token : SecMsgToken} (hnew : ¬ t.Knows m.1 m.2) :
    (passed P env m t).HasToken token ↔ t.HasToken token ∨ token.key = (tokenOf m.1 m.2).key :=
  (hasToken_of_buckets (smsgBuckets_scan _ _ _ _ _)).trans (hasToken_stored hnew)

theorem Since.passed (h : Since s seen t) (hpasses : Passes P env m t) :
    Since s (tokenOf m.1 m.2 :: seen) (passed P env m t) := by
  refine ⟨fun token => ?_, ?_⟩
  · rw [hasToken_passed hpasses.2.1.2.1, h.tokens, or_assoc]
    simp only [List.mem_cons, exists_eq_or_imp, eq_comm (a := token.key), or_comm (a := ∃ _, _)]
  · exact (keeps_secureMsgScanMessage (t.stored env m.1 m.2 false)).addresses.trans h.addresses

/-- A message that passes is come to once, and the next one after it. -/
theorem visits_passes (h : LiesAt vchData n (m :: rest)) (left : Nat) (hpasses : Passes P (envs i) m t) :
    ∃ b, visits P envs vchData (left + 1) i n t = ⟨n, m.1.nPayload.toNat, b⟩ ::
      visits P envs vchData left (i + 1) (n + (SMSG_HDR_LEN + m.1.nPayload.toNat)) (passed P (envs i) m t) := by
  obtain ⟨hvalid, hstorable, hthrows⟩ := hpasses
  refine ⟨_, (visits_valid hvalid h.enough (bunchMessage_eq h.messageAt h.inside) hstorable).trans (congrArg _ ?_)⟩
  have hno : ∀ s', secureMsgScanMessage P (envs i) m.1 m.2 (t.stored (envs i) m.1 m.2 false) ≠ .error .keyError s' :=
    fun s' hs' => hthrows ((throws_stored false).mp (scan_keyError_iff.mp ⟨s', hs'⟩))
  rw [h.next, passed]
  split
  next s' hs' => exact absurd hs' (hno s')
  next => rfl

/-- Otherwise the loop does not get past it. -/
theorem visits_stays (h : LiesAt vchData n (m :: rest)) (left : Nat) (hpasses : ¬ Passes P (envs i) m t) :
    (∀ v ∈ visits P envs vchData (left + 1) i n t, v.ofs = n) ∧ (visits P envs vchData 1 i n t).map Visit.ofs = [n] := by
  have hmessage : bunchMessage (envs i) vchData n = m := bunchMessage_eq h.messageAt h.inside
  cases hvalid : secureMsgValidate P m.1 m.2 m.1.nPayload.toNat with
  | error e =>
    refine ⟨fun v hv => ?_, ?_⟩
    · rw [visits_invalid h.messageAt h.inside hvalid v hv]
    · rw [visits_error hvalid h.enough hmessage]
      rfl
  | ok u =>
    by_cases hstorable : Storable (envs i) m.1 m.2 t
    · have hthrows : m.Throws P (envs i) t := not_not.mp fun hno => hpasses ⟨hvalid, hstorable, hno⟩
      obtain ⟨s', hs'⟩ := scan_keyError_iff.mpr ((throws_stored false).mpr hthrows)
      have hvisits : ∀ left, visits P envs vchData (left + 1) i n t = [⟨n, m.1.nPayload.toNat, _⟩] := fun left =>
        (visits_valid hvalid h.enough hmessage hstorable).trans (by rw [hs'])
      rw [hvisits, hvisits]
      simp
    · have hvisits : ∀ left, visits P envs vchData (left + 1) i n t = [⟨n, m.1.nPayload.toNat, false⟩] := fun left =>
        visits_refused hvalid h.enough hmessage hstorable
      rw [hvisits, hvisits]
      simp

/-! ## Each once -/

/-- The loop does not go back. -/
theorem visits_ge (h : LiesAt vchData n rest) : ∀ v ∈ visits P envs vchData rest.length i n t, n ≤ v.ofs := by
  induction rest generalizing i n t with
  | nil => simp [visits]
  | cons m rest ih =>
    intro v hv
    rw [List.length_cons] at hv
    by_cases hpasses : Passes P (envs i) m t
    · obtain ⟨b, hvisits⟩ := visits_passes h rest.length hpasses
      rw [hvisits] at hv
      rcases List.mem_cons.mp hv with rfl | hv
      · exact Nat.le_refl n
      · exact Nat.le_trans (Nat.le_add_right n _) (ih h.tail v hv)
    · exact Nat.le_of_eq ((visits_stays h rest.length hpasses).1 v hv).symm

theorem offsets_cons (hsize : m.2.length = m.1.nPayload.toNat) :
    offsets n (m :: rest) = n :: offsets (n + (SMSG_HDR_LEN + m.1.nPayload.toNat)) rest := by
  rw [offsets, offsets, RecordLog.index, List.map_cons, m.length_bytes, hsize]

theorem offsets_ge {ofs : Nat} (h : ofs ∈ offsets n rest) : n ≤ ofs := by
  obtain ⟨⟨_, a⟩, hmem, rfl⟩ := List.mem_map.mp h
  obtain ⟨before, after, -, hofs⟩ := RecordLog.mem_index hmem
  exact hofs ▸ Nat.le_add_right n _

/-- **Each message is come to once exactly if each but the last is new.** -/
theorem visits_once_iff (hwrites : AllWrites envs) (h : LiesAt vchData n rest) (hsince : Since s seen t) :
    (∀ ofs ∈ offsets n rest, ((visits P envs vchData rest.length i n t).map Visit.ofs).count ofs = 1) ↔
      NewButLast P envs s i seen rest := by
  induction rest generalizing i n t seen with
  | nil => simp [offsets, RecordLog.index, NewButLast]
  | cons m rest ih =>
    rw [offsets_cons (h.sizes m List.mem_cons_self), List.length_cons]
    by_cases hpasses : Passes P (envs i) m t
    · obtain ⟨b, hvisits⟩ := visits_passes h rest.length hpasses
      have hrest := ih (i := i + 1) h.tail (hsince.passed hpasses)
      have hfirst : ∀ ofs ∈ offsets (n + (SMSG_HDR_LEN + m.1.nPayload.toNat)) rest, n ≠ ofs := by
        intro ofs hofs heq
        have hge := offsets_ge hofs
        have hpos : 0 < SMSG_HDR_LEN := by decide
        omega
      have hzero : ((visits P envs vchData rest.length (i + 1) (n + (SMSG_HDR_LEN + m.1.nPayload.toNat))
          (passed P (envs i) m t)).map Visit.ofs).count n = 0 := by
        refine List.count_eq_zero.mpr fun hmem => ?_
        obtain ⟨v, hv, hofs⟩ := List.mem_map.mp hmem
        have hge := visits_ge h.tail v hv
        have hpos : 0 < SMSG_HDR_LEN := by decide
        omega
      rw [hvisits, List.forall_mem_cons, List.map_cons, List.count_cons_self, hzero]
      have htail : (∀ ofs ∈ offsets (n + (SMSG_HDR_LEN + m.1.nPayload.toNat)) rest,
          (n :: (visits P envs vchData rest.length (i + 1) (n + (SMSG_HDR_LEN + m.1.nPayload.toNat))
            (passed P (envs i) m t)).map Visit.ofs).count ofs = 1) ↔
          NewButLast P envs s (i + 1) (tokenOf m.1 m.2 :: seen) rest := by
        rw [← hrest]
        refine forall₂_congr fun ofs hofs => ?_
        rw [List.count_cons_of_ne (hfirst ofs hofs)]
      rw [htail]
      cases rest with
      | nil => simp [NewButLast]
      | cons m' rest =>
        exact ⟨fun honce => ⟨(hsince.passes_iff hwrites).mp hpasses, honce.2⟩, fun hnew => ⟨rfl, hnew.2⟩⟩
    · obtain ⟨hall, hone⟩ := visits_stays h rest.length hpasses
      cases rest with
      | nil =>
        rw [List.length_nil, hone]
        simp [offsets, RecordLog.index, NewButLast]
      | cons m' rest =>
        refine iff_of_false (fun honce => ?_) fun hnew => hpasses ((hsince.passes_iff hwrites).mpr hnew.1)
        rw [offsets_cons (h.tail.sizes m' List.mem_cons_self)] at honce
        have hsecond := honce _ (List.mem_cons_of_mem _ List.mem_cons_self)
        have hmem := List.count_pos_iff.mp (hsecond ▸ Nat.one_pos)
        obtain ⟨v, hv, hofs⟩ := List.mem_map.mp hmem
        have hpos : 0 < SMSG_HDR_LEN := by decide
        rw [hall v hv] at hofs
        omega

/-! ## What is in the store afterwards -/

/-- No message leaves the store. -/
def KeepsTokens (s s' : Smsg) : Prop := ∀ token, s.HasToken token → s'.HasToken token

instance : Std.Refl KeepsTokens := ⟨fun _ _ h => h⟩
instance : IsTrans Smsg KeepsTokens := ⟨fun _ _ _ h h' token ht => h' token (h token ht)⟩

theorem keepsTokens_updateBucket {time : Int} {f : SecMsgBucket → SecMsgBucket}
    (hf : ∀ bucket, (f bucket).setTokens = bucket.setTokens) : KeepsTokens s (s.updateBucket time f) := by
  intro token htoken
  rw [Smsg.HasToken] at htoken ⊢
  by_cases htime : bucketTime token.timestamp = time
  · rw [htime, Smsg.bucketAt_updateBucket, hf, ← htime]
    exact htoken
  · rwa [Smsg.bucketAt_updateBucket_of_ne htime]

theorem keepsTokens_of_buckets (h : t.smsgBuckets = s.smsgBuckets) : KeepsTokens s t :=
  fun _ htoken => (hasToken_of_buckets h).mpr htoken

theorem keepsTokens_secureMsgStore : KeepsTokens s (endState (secureMsgStore env smsg payload false s)) := by
  obtain ⟨hstorable, hrun⟩ | ⟨-, s', hrun, ⟨-, hb⟩ | ⟨-, hb⟩⟩ := secureMsgStore_cases env s smsg payload false
  · rw [hrun]
    exact fun token htoken => (hasToken_stored hstorable.2.1).mpr (.inl htoken)
  · rw [hrun]
    exact keepsTokens_of_buckets hb
  · rw [hrun]
    exact fun token htoken => (hasToken_of_buckets hb).mpr (keepsTokens_updateBucket (fun _ => rfl) token htoken)

theorem eachMessage_trivial {left : Nat} : EachMessage P (fun _ _ _ _ => True) envs vchData left i n s := by
  induction left generalizing i n s with
  | zero => trivial
  | succ left ih =>
    rw [EachMessage]
    refine .inr ?_
    dsimp only
    split
    · exact ih
    · refine ⟨trivial, ?_⟩
      split
      · trivial
      · split
        · trivial
        · exact ih

theorem keepsTokens_receiveLoop {left : Nat} : KeepsTokens s (endState (receiveLoop P envs vchData left i n s)) :=
  receiveLoop_keeps (Q := fun _ _ _ _ => True) eachMessage_trivial (fun _ _ _ _ _ _ => keepsTokens_secureMsgStore)
    fun _ _ h => keepsTokens_of_buckets h.buckets

/-- The loop goes on after a message that passes. -/
theorem receiveLoop_passes (h : LiesAt vchData n (m :: rest)) {left : Nat} (hpasses : Passes P (envs i) m t) :
    receiveLoop P envs vchData (left + 1) i n t =
      receiveLoop P envs vchData left (i + 1) (n + (SMSG_HDR_LEN + m.1.nPayload.toNat)) (passed P (envs i) m t) := by
  obtain ⟨hvalid, hstorable, hthrows⟩ := hpasses
  have hmessage : bunchMessage (envs i) vchData n = m := bunchMessage_eq h.messageAt h.inside
  have hvalid' : secureMsgValidate P m.1 m.2 m.1.nPayload.toNat = .ok () := hvalid
  rw [receiveLoop, if_neg h.enough, hmessage]
  simp only [hvalid']
  rw [bind_run (succeeds_ok (secureMsgStore_of_writes hstorable.1 hstorable.2.1 hstorable.2.2))]
  dsimp only
  rw [passed]
  cases hscan : secureMsgScanMessage P (envs i) m.1 m.2 (t.stored (envs i) m.1 m.2 false) with
  | ok a s' => rw [bind_run (succeeds_ok hscan), h.next, endState_ok]
  | error e s' =>
    cases e with
    | keyError => exact absurd ((throws_stored false).mp (scan_keyError_iff.mp ⟨s', hscan⟩)) hthrows
    | rv rv => rw [bind_run (succeeds_error hscan), h.next, endState_error]

/-- A message that is valid and in the window is in the store after its turn. -/
theorem hasToken_turn (hwrites : AllWrites envs) (h : LiesAt vchData n (m :: rest)) {left : Nat} (hvalid : m.Valid P)
    (hwindow : inWindow (envs i) m.1.timestamp.toInt) :
    (endState (receiveLoop P envs vchData (left + 1) i n t)).HasToken (tokenOf m.1 m.2) := by
  have hmessage : bunchMessage (envs i) vchData n = m := bunchMessage_eq h.messageAt h.inside
  have hvalid' : secureMsgValidate P m.1 m.2 m.1.nPayload.toNat = .ok () := hvalid
  have harrives : Arrives (envs i) m.1 := ⟨(hwrites i).1, hwindow⟩
  rw [receiveLoop, if_neg h.enough, hmessage]
  simp only [hvalid']
  by_cases hknows : t.Knows m.1 m.2
  · rw [bind_run (succeeds_error (secureMsgStore_of_knows harrives hknows))]
    exact keepsTokens_updateBucket (fun _ => rfl) _ hknows
  · rw [bind_run (succeeds_ok (secureMsgStore_of_writes harrives hknows ((hwrites i).2 _)))]
    dsimp only
    have hstored : (t.stored (envs i) m.1 m.2 false).HasToken (tokenOf m.1 m.2) := (hasToken_stored hknows).mpr (.inr rfl)
    have hscanned : (passed P (envs i) m t).HasToken (tokenOf m.1 m.2) := keepsTokens_of_buckets (smsgBuckets_scan _ _ _ _ _) _ hstored
    rw [passed] at hscanned
    cases hscan : secureMsgScanMessage P (envs i) m.1 m.2 (t.stored (envs i) m.1 m.2 false) with
    | ok a s' =>
      rw [hscan] at hscanned
      rw [bind_run (succeeds_ok hscan)]
      exact keepsTokens_receiveLoop _ hscanned
    | error e s' =>
      rw [hscan] at hscanned
      cases e with
      | keyError =>
        rw [bind_run_error (succeeds_keyError hscan)]
        exact hscanned
      | rv rv =>
        rw [bind_run (succeeds_error hscan)]
        exact keepsTokens_receiveLoop _ hscanned

theorem hasToken_receiveLoop (hwrites : AllWrites envs) (h : LiesAt vchData n rest) (hsince : Since s seen t)
    (hnew : NewButLast P envs s i seen rest) {k : Nat} (hm : rest[k]? = some m) (hvalid : m.Valid P)
    (hwindow : inWindow (envs (i + k)) m.1.timestamp.toInt) :
    (endState (receiveLoop P envs vchData rest.length i n t)).HasToken (tokenOf m.1 m.2) := by
  induction rest generalizing i n t seen k with
  | nil => simp at hm
  | cons m₀ rest ih =>
    cases k with
    | zero =>
      obtain rfl := Option.some.inj hm
      exact hasToken_turn hwrites h hvalid hwindow
    | succ k =>
      cases rest with
      | nil => simp at hm
      | cons m' rest =>
        have hpasses : Passes P (envs i) m₀ t := (hsince.passes_iff hwrites).mpr hnew.1
        rw [List.length_cons, receiveLoop_passes h hpasses]
        exact ih h.tail (hsince.passed hpasses) hnew.2 hm (by rwa [Nat.add_assoc, Nat.add_comm 1 k])

/-! ## The call -/

theorem nBunch_bunchBytes (time : BitVec 64) (h : messages.length ≤ 500) : nBunch (bunchBytes time messages) = messages.length := by
  rw [nBunch, bunchBytes, List.take_left' (CScript.length_leBytes 4 _), leNat_leBytes]
  exact Nat.mod_eq_of_lt (by omega)

theorem WellFormed.liesAt (h : WellFormed messages) (time : BitVec 64) : LiesAt (bunchBytes time messages) 12 messages := by
  have htotal := h.total
  have hlen : (bunchBytes time messages).length = 12 + (log StoredMessage.bytes messages).length := by
    simp only [bunchBytes, List.length_append, CScript.length_leBytes]
    omega
  rw [MAX_SIZE] at htotal
  refine ⟨?_, by omega, by omega, h.sizes⟩
  rw [bunchBytes, ← List.append_assoc, List.drop_left']
  rw [List.length_append, CScript.length_leBytes, CScript.length_leBytes]

/-- What the loop has stored stays in the store. -/
theorem keepsTokens_receive (hwindow : bunchInWindow (envs 0) vchData) (hsome : nBunch vchData ≠ 0) (hfew : nBunch vchData ≤ 500) :
    KeepsTokens (endState (receiveLoop P envs vchData (nBunch vchData) 0 12 s)) (endState (secureMsgReceive P envs vchData s)) := by
  rw [secureMsgReceive, bind_run (rejectIf_run (not_not.mpr hwindow))]
  dsimp only
  rw [bind_get_run, if_neg (by omega)]
  cases hloop : receiveLoop P envs vchData (nBunch vchData) 0 12 s with
  | error e s' =>
    rw [bind_run_error hloop]
    exact Std.Refl.refl s'
  | ok u s' =>
    rw [bind_run hloop, bind_get_run, endState_ok]
    split
    · exact Std.Refl.refl s'
    · change KeepsTokens s' (s'.updateBucket _ fun bucket =>
        SecMsgBucket.hashBucket _ { bucket with nLockCount := 0, nLockPeerId := 0 })
      exact keepsTokens_updateBucket fun _ => rfl

/-- **A bunch is taken message by message exactly if every message but the
last is new.** -/
theorem eachOnce_iff {time : BitVec 64} (hbunch : WellFormed messages)
    (hwindow : bunchInWindow (envs 0) (bunchBytes time messages)) (hwrites : AllWrites envs) :
    EachOnce P envs time messages s ↔ NewButLast P envs s 0 [] messages := by
  have hcount := nBunch_bunchBytes time hbunch.few
  have hsome : nBunch (bunchBytes time messages) ≠ 0 := by
    rw [hcount]
    exact fun h => hbunch.some (List.length_eq_zero_iff.mp h)
  have hfew : nBunch (bunchBytes time messages) ≤ 500 := hcount ▸ hbunch.few
  have hvisits : receiveVisits P envs (bunchBytes time messages) s =
      visits P envs (bunchBytes time messages) messages.length 0 12 s := by
    rw [receiveVisits, if_pos ⟨hwindow, hsome, hfew⟩, hcount]
  have honce := visits_once_iff (P := P) hwrites (hbunch.liesAt time) (Since.refl (s := s)) (i := 0)
  rw [← hvisits] at honce
  constructor
  · intro h
    exact honce.mp h.once
  · intro h
    refine ⟨fun k m hm hvalid hin => ?_, honce.mpr h⟩
    refine keepsTokens_receive hwindow hsome hfew _ ?_
    rw [hcount]
    exact hasToken_receiveLoop hwrites (hbunch.liesAt time) .refl h hm hvalid (by rwa [Nat.zero_add])

end

namespace SmsgSample

/-- A message without a payload, of a version and a time. -/
def empty (version : UInt8) (timestamp : BitVec 64) : StoredMessage :=
  ({ blank with version := ⟨[version, 1], rfl⟩, timestamp := timestamp }, [])

theorem wellFormed_empty (v v' : UInt8) (time time' : BitVec 64) : WellFormed [empty v time, empty v' time'] := by
  refine ⟨List.cons_ne_nil _ _, by simp, fun m hm => ?_, ?_⟩
  · simp only [List.mem_cons, List.not_mem_nil, or_false] at hm
    rcases hm with rfl | rfl <;> rfl
  · rw [RecordLog.log_cons, RecordLog.log_singleton, List.length_append, StoredMessage.length_bytes, StoredMessage.length_bytes]
    simp only [empty, List.length_nil]
    decide

end SmsgSample

theorem eachOnce_iff_sample :
    EachOnce SmsgSample.params (fun _ => SmsgSample.env) 1500000000
        [SmsgSample.empty 1 1500000000, SmsgSample.empty 1 1500000001] SmsgSample.node ↔
      NewButLast SmsgSample.params (fun _ => SmsgSample.env) SmsgSample.node 0 []
        [SmsgSample.empty 1 1500000000, SmsgSample.empty 1 1500000001] :=
  eachOnce_iff (SmsgSample.wellFormed_empty 1 1 1500000000 1500000001) (by decide +kernel) fun _ => ⟨rfl, fun _ => ⟨rfl, rfl, rfl⟩⟩

/-- Of a bunch whose first message has another version, the first is validated
twice, and the second, which is valid, not at all. -/
theorem not_eachOnce_version :
    receiveVisits SmsgSample.params (fun _ => SmsgSample.env)
        (bunchBytes 1500000000 [SmsgSample.empty 0 1500000000, SmsgSample.empty 1 1500000001]) SmsgSample.node =
      [⟨12, 0, false⟩, ⟨12, 0, false⟩] ∧
    ¬ EachOnce SmsgSample.params (fun _ => SmsgSample.env) 1500000000
      [SmsgSample.empty 0 1500000000, SmsgSample.empty 1 1500000001] SmsgSample.node :=
  ⟨by decide +kernel, fun h => absurd (h.once 12 (by decide +kernel)) (by decide +kernel)⟩

end Pinkcoin
