/-
The messages of a bunch the loop of `SecureMsgReceive` comes to. The size a
header gives for its payload is not compared with what was received, and a
message that reaches an inbox is filed under its first eight bytes, however
many it has.
-/
import Pinkcoin.Smsg.PlainReads
import Pinkcoin.Smsg.StoreFacts

namespace Pinkcoin

/-! ## The trace of the loop -/

/-- A message the loop has come to: where its header lies, the size its
payload is said to have, and whether the first bytes of the payload are taken
for the inbox. -/
structure Visit where
  ofs : Nat
  nPayload : Nat
  sampled : Bool
  deriving DecidableEq

/-- The message lies inside, and the sample inside its payload. -/
def Visit.Inside (size : Nat) (v : Visit) : Prop :=
  (⟨v.ofs, SMSG_HDR_LEN + v.nPayload⟩ : Access).Inside size ∧ (v.sampled → 8 ≤ v.nPayload)

instance (size : Nat) (v : Visit) : Decidable (v.Inside size) := inferInstanceAs (Decidable (_ ∧ _))

/-- `SecureMsgScanMessage` finds an address the message is for, and builds the
key of the inbox. -/
def delivers (P : SmsgParams) (env : SmsgEnv) (smsg : SecureMessage) (payload : List UInt8) (s : Smsg) : Bool :=
  !env.isLocked && match findAddress P env smsg payload s.smsgAddresses s with
    | .ok (some _) _ => true
    | _ => false

/-- The messages `receiveLoop` comes to, in this order. One that is not valid
is come to again. -/
def visits (P : SmsgParams) (envs : Nat → SmsgEnv) (vchData : List UInt8) : Nat → Nat → Nat → Smsg → List Visit
  | 0, _, _, _ => []
  | left + 1, i, n, s =>
    if (vchData.length + 2 ^ 64 - n) % 2 ^ 64 < SMSG_HDR_LEN then []
    else
      let (smsg, payload) := bunchMessage (envs i) vchData n
      let nPayload := smsg.nPayload.toNat
      match secureMsgValidate P smsg payload nPayload with
      | .error _ => ⟨n, nPayload, false⟩ :: visits P envs vchData left (i + 1) n s
      | .ok _ =>
        match secureMsgStore (envs i) smsg payload false s with
        | .error _ _ => [⟨n, nPayload, false⟩]
        | .ok _ s' =>
          ⟨n, nPayload, delivers P (envs i) smsg payload s'⟩ ::
            match secureMsgScanMessage P (envs i) smsg payload s' with
            | .error .keyError _ => []
            | r => visits P envs vchData left (i + 1) ((n + SMSG_HDR_LEN + nPayload) % 2 ^ 32) (StateError.endState r)

/-- The messages a call of `SecureMsgReceive` comes to. -/
def receiveVisits (P : SmsgParams) (envs : Nat → SmsgEnv) (vchData : List UInt8) (s : Smsg) : List Visit :=
  if bunchInWindow (envs 0) vchData ∧ nBunch vchData ≠ 0 ∧ nBunch vchData ≤ 500 then
    visits P envs vchData (nBunch vchData) 0 12 s
  else []

/-! ## What makes a bunch harmless -/

/-- The token of a message. -/
def tokenOf (smsg : SecureMessage) (payload : List UInt8) : SecMsgToken :=
  SecMsgToken.ofPayload smsg.timestamp.toInt payload 0

/-- The message at an offset of a bunch that holds it. -/
def messageAt (vchData : List UInt8) (n : Nat) : SecureMessage × List UInt8 :=
  let smsg := SecureMessage.ofBytes (field vchData n SMSG_HDR_LEN)
  (smsg, (field vchData ((n + SMSG_HDR_LEN) % 2 ^ 32) smsg.nPayload.toNat).toList)

/-- There is a wallet with a key, and an address, the message is for. -/
def Addressed (P : SmsgParams) (smsg : SecureMessage) (payload : List UInt8) : Prop :=
  ∃ (env : SmsgEnv) (address : List Char), secureMsgDecryptTest P env (canonical P address) smsg payload

/-- The message at offset `n` lies in the bunch. If it is valid, of the time at
which it is stored, and not a repeat of one before it, then it has the bytes of
a sample or is not `addressed`, and the messages behind it are as good. -/
def FramedFrom (P : SmsgParams) (addressed : SecureMessage → List UInt8 → Prop) (now : Nat → Int) (vchData : List UInt8) :
    Nat → Nat → Nat → List SecMsgToken → Prop
  | 0, _, _, _ => True
  | left + 1, i, n, seen =>
    (vchData.length + 2 ^ 64 - n) % 2 ^ 64 < SMSG_HDR_LEN ∨
      let (smsg, payload) := messageAt vchData n
      let nPayload := smsg.nPayload.toNat
      n + SMSG_HDR_LEN + nPayload ≤ vchData.length ∧
        (secureMsgValidate P smsg payload nPayload = .ok () →
          smsg.timestamp.toInt ≤ now i + SMSG_TIME_LEEWAY → now i - SMSG_RETENTION ≤ smsg.timestamp.toInt →
          (∀ token ∈ seen, token.key ≠ (tokenOf smsg payload).key) →
          (addressed smsg payload → 8 ≤ nPayload) ∧
            FramedFrom P addressed now vchData left (i + 1) ((n + SMSG_HDR_LEN + nPayload) % 2 ^ 32)
              (tokenOf smsg payload :: seen))

/-- The messages of a bunch that is looked at, from the first on. -/
def BunchFramed (P : SmsgParams) (now : Nat → Int) (vchData : List UInt8) : Prop :=
  12 ≤ vchData.length → bktTime vchData ≤ now 0 + SMSG_TIME_LEEWAY → now 0 - SMSG_RETENTION ≤ bktTime vchData →
    nBunch vchData ≠ 0 → nBunch vchData ≤ 500 → FramedFrom P (Addressed P) now vchData (nBunch vchData) 0 12 []

/-- Whatever the node holds and the files do, a bunch received at these times
is read inside. -/
def BunchInside (P : SmsgParams) (now : Nat → Int) (vchData : List UInt8) : Prop :=
  ∀ (envs : Nat → SmsgEnv) (s : Smsg), (∀ i, (envs i).adjustedTime = now i) →
    ∀ v ∈ receiveVisits P envs vchData s, v.Inside vchData.length

/-! ## Tokens -/

/-- The message of a token is in the store. -/
def Smsg.HasToken (s : Smsg) (token : SecMsgToken) : Prop :=
  ∃ held ∈ (s.bucketAt (bucketTime token.timestamp)).setTokens, held.key = token.key

section

variable {P : SmsgParams} {env : SmsgEnv} {envs : Nat → SmsgEnv} {vchData payload : List UInt8} {smsg : SecureMessage}
  {s s' : Smsg} {token : SecMsgToken} {now : Nat → Int} {left i n : Nat} {seen : List SecMsgToken}

theorem knows_iff_hasToken : s.Knows smsg payload ↔ s.HasToken (tokenOf smsg payload) := Iff.rfl

theorem hasToken_of_buckets (h : s'.smsgBuckets = s.smsgBuckets) : s'.HasToken token ↔ s.HasToken token := by
  rw [Smsg.HasToken, Smsg.HasToken, Smsg.bucketAt, Smsg.bucketAt, h]

/-- **A message that is stored adds its token.** -/
theorem hasToken_stored (hnew : ¬ s.Knows smsg payload) :
    (s.stored env smsg payload false).HasToken token ↔ s.HasToken token ∨ token.key = (tokenOf smsg payload).key := by
  rw [Smsg.HasToken, Smsg.HasToken]
  by_cases htime : bucketTime token.timestamp = bucketTime smsg.timestamp.toInt
  · rw [htime, setTokens_stored]
    simp only [OrderedSet.mem_insert]
    constructor
    · intro h
      obtain ⟨held, hheld | ⟨rfl, -⟩, hkey⟩ := h
      · exact .inl ⟨held, hheld, hkey⟩
      · exact .inr hkey.symm
    · intro h
      rcases h with ⟨held, hheld, hkey⟩ | hkey
      · exact ⟨held, .inl hheld, hkey⟩
      · exact ⟨_, .inr ⟨rfl, fun z hz hzkey => hnew ⟨z, hz, hzkey⟩⟩, hkey.symm⟩
  · rw [Smsg.bucketAt, lookup_stored_of_ne htime]
    refine ⟨.inl, fun h => h.resolve_right fun hkey => htime ?_⟩
    rw [(SecMsgToken.key_eq.mp hkey).1]
    rfl

/-- A message that is read inside is the one of the bunch. -/
theorem bunchMessage_eq (hmessage : messageAt vchData n = (smsg, payload))
    (h : n + SMSG_HDR_LEN + smsg.nPayload.toNat ≤ vchData.length) : bunchMessage env vchData n = (smsg, payload) := by
  obtain ⟨rfl, rfl⟩ := Prod.mk.inj hmessage
  have hheader := memoryBytes_eq_field env (show n + SMSG_HDR_LEN ≤ vchData.length by omega)
  have hplace : (n + SMSG_HDR_LEN) % 2 ^ 32 + (SecureMessage.ofBytes (field vchData n SMSG_HDR_LEN)).nPayload.toNat ≤
      vchData.length := by
    have hmod := Nat.mod_le (n + SMSG_HDR_LEN) (2 ^ 32)
    omega
  have hpayload := memory_eq_field env hplace
  simp only [bunchMessage, hheader]
  exact Prod.ext rfl hpayload

/-- Where the header lies inside, so does the size in it. -/
theorem header_eq (hmessage : messageAt vchData n = (smsg, payload)) (h : n + SMSG_HDR_LEN ≤ vchData.length) :
    (bunchMessage env vchData n).1 = smsg := by
  obtain ⟨rfl, -⟩ := Prod.mk.inj hmessage
  simp only [bunchMessage, memoryBytes_eq_field _ h]

variable {addressed : SecureMessage → List UInt8 → Prop}

theorem framedFrom_succ (hmessage : messageAt vchData n = (smsg, payload)) :
    FramedFrom P addressed now vchData (left + 1) i n seen ↔
      (vchData.length + 2 ^ 64 - n) % 2 ^ 64 < SMSG_HDR_LEN ∨
        n + SMSG_HDR_LEN + smsg.nPayload.toNat ≤ vchData.length ∧
          (secureMsgValidate P smsg payload smsg.nPayload.toNat = .ok () →
            smsg.timestamp.toInt ≤ now i + SMSG_TIME_LEEWAY → now i - SMSG_RETENTION ≤ smsg.timestamp.toInt →
            (∀ token ∈ seen, token.key ≠ (tokenOf smsg payload).key) →
            (addressed smsg payload → 8 ≤ smsg.nPayload.toNat) ∧
              FramedFrom P addressed now vchData left (i + 1) ((n + SMSG_HDR_LEN + smsg.nPayload.toNat) % 2 ^ 32)
                (tokenOf smsg payload :: seen)) := by
  rw [FramedFrom]
  simp only [hmessage]

variable (P env smsg payload s) in
theorem smsgBuckets_scan : (StateError.endState (secureMsgScanMessage P env smsg payload s)).smsgBuckets = s.smsgBuckets :=
  (keeps_secureMsgScanMessage s).buckets

theorem hasToken_of_key {token' : SecMsgToken} (h : token'.key = token.key) : s.HasToken token' ↔ s.HasToken token := by
  rw [Smsg.HasToken, Smsg.HasToken, (SecMsgToken.key_eq.mp h).1, h]

/-- The three outcomes of a message that is valid. -/
theorem visits_valid (hvalid : secureMsgValidate P smsg payload smsg.nPayload.toNat = .ok ()) (hlong : ¬ (vchData.length + 2 ^ 64 - n) % 2 ^ 64 < SMSG_HDR_LEN)
    (hmessage : bunchMessage (envs i) vchData n = (smsg, payload)) (hstored : Storable (envs i) smsg payload s) :
    visits P envs vchData (left + 1) i n s =
      ⟨n, smsg.nPayload.toNat, delivers P (envs i) smsg payload (s.stored (envs i) smsg payload false)⟩ ::
        match secureMsgScanMessage P (envs i) smsg payload (s.stored (envs i) smsg payload false) with
        | .error .keyError _ => []
        | r => visits P envs vchData left (i + 1) ((n + SMSG_HDR_LEN + smsg.nPayload.toNat) % 2 ^ 32) (StateError.endState r) := by
  rw [visits, if_neg hlong]
  simp only [hmessage, hvalid, secureMsgStore_of_writes hstored.1 hstored.2.1 hstored.2.2] <;> rfl

theorem visits_refused (hvalid : secureMsgValidate P smsg payload smsg.nPayload.toNat = .ok ()) (hlong : ¬ (vchData.length + 2 ^ 64 - n) % 2 ^ 64 < SMSG_HDR_LEN)
    (hmessage : bunchMessage (envs i) vchData n = (smsg, payload)) (hstored : ¬ Storable (envs i) smsg payload s) :
    visits P envs vchData (left + 1) i n s = [⟨n, smsg.nPayload.toNat, false⟩] := by
  obtain ⟨h, -⟩ | ⟨-, s', hrun, -⟩ := secureMsgStore_cases (envs i) s smsg payload false
  · exact absurd h hstored
  · rw [visits, if_neg hlong]
    simp only [hmessage, hvalid, hrun]

theorem visits_short (hlong : (vchData.length + 2 ^ 64 - n) % 2 ^ 64 < SMSG_HDR_LEN) :
    visits P envs vchData (left + 1) i n s = [] := by
  rw [visits, if_pos hlong]

theorem visits_error {e : SmsgError} (herror : secureMsgValidate P smsg payload smsg.nPayload.toNat = .error e)
    (hlong : ¬ (vchData.length + 2 ^ 64 - n) % 2 ^ 64 < SMSG_HDR_LEN) (hmessage : bunchMessage (envs i) vchData n = (smsg, payload)) :
    visits P envs vchData (left + 1) i n s = ⟨n, smsg.nPayload.toNat, false⟩ :: visits P envs vchData left (i + 1) n s := by
  rw [visits, if_neg hlong]
  simp only [hmessage, herror]

/-- The loop does not get past a message that is not valid. -/
theorem visits_invalid {e : SmsgError} (hmessage : messageAt vchData n = (smsg, payload))
    (hinside : n + SMSG_HDR_LEN + smsg.nPayload.toNat ≤ vchData.length)
    (herror : secureMsgValidate P smsg payload smsg.nPayload.toNat = .error e) :
    ∀ v ∈ visits P envs vchData left i n s, v = ⟨n, smsg.nPayload.toNat, false⟩ := by
  induction left generalizing i with
  | zero => simp [visits]
  | succ left ih =>
    by_cases hlong : (vchData.length + 2 ^ 64 - n) % 2 ^ 64 < SMSG_HDR_LEN
    · rw [visits_short hlong]
      intro v hv
      cases hv
    · rw [visits_error herror hlong (bunchMessage_eq hmessage hinside)]
      intro v hv
      rcases List.mem_cons.mp hv with rfl | hv
      · rfl
      · exact ih v hv

/-- **A bunch whose messages are framed is read inside**, from any state that
holds what was seen. -/
theorem visits_inside (haddressed : ∀ i smsg payload s, delivers P (envs i) smsg payload s → addressed smsg payload)
    (hclock : ∀ i, (envs i).adjustedTime = now i) (hframed : FramedFrom P addressed now vchData left i n seen)
    (hseen : ∀ token ∈ seen, s.HasToken token) : ∀ v ∈ visits P envs vchData left i n s, v.Inside vchData.length := by
  induction left generalizing i n seen s with
  | zero => simp [visits]
  | succ left ih =>
    by_cases hlong : (vchData.length + 2 ^ 64 - n) % 2 ^ 64 < SMSG_HDR_LEN
    · rw [visits_short hlong]
      intro v hv
      cases hv
    obtain ⟨smsg, payload, hat⟩ : ∃ smsg payload, messageAt vchData n = (smsg, payload) := ⟨_, _, rfl⟩
    obtain ⟨hinside, hnext⟩ := ((framedFrom_succ hat).mp hframed).resolve_left hlong
    have hmessage : bunchMessage (envs i) vchData n = (smsg, payload) := bunchMessage_eq hat hinside
    have hplace : n + (SMSG_HDR_LEN + smsg.nPayload.toNat) ≤ vchData.length := by omega
    cases hvalid : secureMsgValidate P smsg payload smsg.nPayload.toNat with
    | error e =>
      intro v hv
      rw [visits_invalid hat hinside hvalid v hv]
      exact ⟨hplace, fun h => Bool.noConfusion h⟩
    | ok u =>
      by_cases hstored : Storable (envs i) smsg payload s
      · have hwindow := hstored.1.2
        rw [inWindow, hclock i] at hwindow
        have hnew : ∀ token ∈ seen, token.key ≠ (tokenOf smsg payload).key :=
          fun token htoken hkey => hstored.2.1 ((hasToken_of_key hkey).mp (hseen token htoken))
        obtain ⟨hsample, hrest⟩ := hnext hvalid hwindow.1 hwindow.2 hnew
        have hseen' : ∀ token ∈ tokenOf smsg payload :: seen,
            (StateError.endState (secureMsgScanMessage P (envs i) smsg payload (s.stored (envs i) smsg payload false))).HasToken
              token := by
          intro token htoken
          refine (hasToken_of_buckets (smsgBuckets_scan _ _ _ _ _)).mpr ((hasToken_stored hstored.2.1).mpr ?_)
          rcases List.mem_cons.mp htoken with rfl | htoken
          · exact .inr rfl
          · exact .inl (hseen token htoken)
        rw [visits_valid hvalid hlong hmessage hstored]
        refine List.forall_mem_cons.mpr ⟨⟨hplace, fun h => hsample (haddressed _ _ _ _ h)⟩, ?_⟩
        split
        next => exact List.forall_mem_nil _
        next => exact ih hrest hseen'
      · rw [visits_refused hvalid hlong hmessage hstored]
        exact List.forall_mem_cons.mpr ⟨⟨hplace, fun h => Bool.noConfusion h⟩, List.forall_mem_nil _⟩

/-! ## A node that stores what it can -/

/-- A node with one address, which takes anonymous messages, whose files can
be written and whose wallet is not locked. -/
structure Willing (P : SmsgParams) (address : List Char) (addressed : SecureMessage → List UInt8 → Prop) (env : SmsgEnv) :
    Prop where
  directory : env.createDirectory
  writes : ∀ f, Writes env f
  unlocked : ¬ env.isLocked
  finds : ∀ {smsg payload}, addressed smsg payload → secureMsgDecryptTest P env (canonical P address) smsg payload

theorem findAddress_anonymous {address : List Char} :
    findAddress P env smsg payload [⟨address, true, true⟩] s =
      .ok (if secureMsgDecryptTest P env (canonical P address) smsg payload then some (canonical P address) else none) s := by
  by_cases htest : secureMsgDecryptTest P env (canonical P address) smsg payload
  · simp [findAddress, htest, pure, EStateM.pure]
  · simp [findAddress, htest, pure, EStateM.pure]

variable (P smsg payload) in
/-- The scan ends without an exception. -/
theorem scan_anonymous {address : List Char} (hlock : ¬ env.isLocked) (haddress : s.smsgAddresses = [⟨address, true, true⟩]) :
    ∃ s', secureMsgScanMessage P env smsg payload s = .ok () s' ∧ s'.smsgAddresses = s.smsgAddresses := by
  rw [secureMsgScanMessage, if_neg hlock, bind_get_run, haddress, bind_run findAddress_anonymous]
  by_cases htest : secureMsgDecryptTest P env (canonical P address) smsg payload
  · simp only [if_pos htest]
    refine ⟨_, rfl, ?_⟩
    dsimp only
    split
    · exact haddress
    · exact haddress
  · simp only [if_neg htest]
    exact ⟨s, rfl, haddress⟩

variable (P envs left i s) in
/-- The message the loop is at is visited. -/
theorem visits_head (hlong : ¬ (vchData.length + 2 ^ 64 - n) % 2 ^ 64 < SMSG_HDR_LEN) :
    ∃ b rest, visits P envs vchData (left + 1) i n s =
      ⟨n, (bunchMessage (envs i) vchData n).1.nPayload.toNat, b⟩ :: rest := by
  rw [visits, if_neg hlong]
  obtain ⟨smsg, payload, hmessage⟩ : ∃ smsg payload, bunchMessage (envs i) vchData n = (smsg, payload) := ⟨_, _, rfl⟩
  simp only [hmessage]
  split
  · exact ⟨_, _, rfl⟩
  · split
    · exact ⟨_, _, rfl⟩
    · exact ⟨_, _, rfl⟩

/-- **A bunch that such a node reads inside is framed.** -/
theorem framed_of_inside {address : List Char} (hwilling : ∀ i, Willing P address addressed (envs i))
    (hclock : ∀ i, (envs i).adjustedTime = now i) (haddress : s.smsgAddresses = [⟨address, true, true⟩])
    (hseen : ∀ token, s.HasToken token → ∃ t ∈ seen, t.key = token.key)
    (hinside : ∀ v ∈ visits P envs vchData left i n s, v.Inside vchData.length) :
    FramedFrom P addressed now vchData left i n seen := by
  induction left generalizing i n seen s with
  | zero => trivial
  | succ left ih =>
    obtain ⟨smsg, payload, hat⟩ : ∃ smsg payload, messageAt vchData n = (smsg, payload) := ⟨_, _, rfl⟩
    refine (framedFrom_succ hat).mpr ?_
    by_cases hlong : (vchData.length + 2 ^ 64 - n) % 2 ^ 64 < SMSG_HDR_LEN
    · exact .inl hlong
    obtain ⟨b, rest, hhead⟩ := visits_head P envs s left i hlong
    have hfirst : n + (SMSG_HDR_LEN + (bunchMessage (envs i) vchData n).1.nPayload.toNat) ≤ vchData.length :=
      (hinside _ (hhead.symm ▸ List.mem_cons_self : (⟨n, _, b⟩ : Visit) ∈ _)).1
    rw [header_eq hat (by omega)] at hfirst
    have hmessage : bunchMessage (envs i) vchData n = (smsg, payload) := bunchMessage_eq hat (by omega)
    refine .inr ⟨by omega, fun hvalid hfuture hpast hnew => ?_⟩
    have hstored : Storable (envs i) smsg payload s := by
      refine ⟨⟨(hwilling i).directory, ?_⟩, fun hknows => ?_, (hwilling i).writes _⟩
      · rw [inWindow, hclock i]
        exact ⟨hfuture, hpast⟩
      · obtain ⟨t, ht, hkey⟩ := hseen (tokenOf smsg payload) hknows
        exact hnew t ht hkey
    have haddress' : (s.stored (envs i) smsg payload false).smsgAddresses = [⟨address, true, true⟩] := haddress
    obtain ⟨s', hscan, hsame⟩ := scan_anonymous P payload smsg (hwilling i).unlocked haddress'
    rw [visits_valid hvalid hlong hmessage hstored, hscan] at hinside
    obtain ⟨⟨-, hsample⟩, hrest⟩ := List.forall_mem_cons.mp hinside
    refine ⟨fun h => hsample ?_, ih (hsame.trans haddress') (fun token htoken => ?_) hrest⟩
    · simp [delivers, haddress', findAddress_anonymous, (hwilling i).unlocked, (hwilling i).finds h]
    · have hbuckets := smsgBuckets_scan P (envs i) payload smsg (s.stored (envs i) smsg payload false)
      rw [hscan] at hbuckets
      rcases (hasToken_stored hstored.2.1).mp ((hasToken_of_buckets hbuckets).mp htoken) with hold | hkey
      · obtain ⟨t, ht, hkey⟩ := hseen token hold
        exact ⟨t, List.mem_cons_of_mem _ ht, hkey⟩
      · exact ⟨_, List.mem_cons_self, hkey.symm⟩

/-- A bunch is framed for a family of addresses if it is for each of them. -/
theorem framedFrom_exists {ι : Type} [Nonempty ι] {addressedBy : ι → SecureMessage → List UInt8 → Prop}
    (h : ∀ a, FramedFrom P (addressedBy a) now vchData left i n seen) :
    FramedFrom P (fun smsg payload => ∃ a, addressedBy a smsg payload) now vchData left i n seen := by
  induction left generalizing i n seen with
  | zero => trivial
  | succ left ih =>
    obtain ⟨smsg, payload, hat⟩ : ∃ smsg payload, messageAt vchData n = (smsg, payload) := ⟨_, _, rfl⟩
    refine (framedFrom_succ hat).mpr ?_
    by_cases hlong : (vchData.length + 2 ^ 64 - n) % 2 ^ 64 < SMSG_HDR_LEN
    · exact .inl hlong
    have hall := fun a => ((framedFrom_succ hat).mp (h a)).resolve_left hlong
    refine .inr ⟨(hall (Classical.arbitrary ι)).1, fun hvalid hfuture hpast hnew => ⟨fun ⟨a, ha⟩ => ?_, ih fun a => ?_⟩⟩
    · exact ((hall a).2 hvalid hfuture hpast hnew).1 ha
    · exact ((hall a).2 hvalid hfuture hpast hnew).2

/-! ## Bunches -/

theorem decryptTest_of_decrypt {address : List Char} {msg : MessageData}
    (h : secureMsgDecrypt P env address smsg payload s = .ok msg s') : secureMsgDecryptTest P env address smsg payload := by
  rw [secureMsgDecryptTest]
  cases hopen : openMessage P env address smsg payload with
  | ok key_e => rfl
  | error e => simp [secureMsgDecrypt, bind, EStateM.bind, StateError.lift, hopen] at h

/-- An address that is found is one the message is for. -/
theorem findAddress_some {addresses : List SecMsgAddress} {addressTo : List Char}
    (h : findAddress P env smsg payload addresses s = .ok (some addressTo) s') :
    ∃ address, secureMsgDecryptTest P env (canonical P address) smsg payload := by
  induction addresses generalizing s with
  | nil => simp [findAddress, pure, EStateM.pure] at h
  | cons it rest ih =>
    rw [findAddress] at h
    split at h
    next => exact ih h
    next =>
      split at h
      next =>
        split at h
        next htest => exact ⟨it.sAddress, htest⟩
        next => exact ih h
      next =>
        cases hdecrypt : secureMsgDecrypt P env (canonical P it.sAddress) smsg payload s with
        | ok msg t => exact ⟨it.sAddress, decryptTest_of_decrypt hdecrypt⟩
        | error e t =>
          cases e with
          | rv n =>
            rw [bind_run (succeeds_error hdecrypt)] at h
            exact ih h
          | keyError =>
            rw [bind_run_error (succeeds_keyError hdecrypt)] at h
            cases h

theorem addressed_of_delivers (h : delivers P env smsg payload s) : Addressed P smsg payload := by
  rw [delivers, Bool.and_eq_true] at h
  replace h := h.2
  split at h
  next hfind => exact ⟨env, findAddress_some hfind⟩
  next => cases h

/-- **A bunch is read inside exactly if it is framed.** -/
theorem bunchInside_iff : BunchInside P now vchData ↔ BunchFramed P now vchData := by
  constructor
  · intro h hsize hfuture hpast hnone hmany
    have hfamily : (fun smsg payload => ∃ a : SmsgEnv × List Char,
        secureMsgDecryptTest P a.1 (canonical P a.2) smsg payload) = Addressed P := by
      funext smsg payload
      rw [Addressed, Prod.exists]
    rw [← hfamily]
    have hnonempty : Nonempty (SmsgEnv × List Char) := ⟨SmsgSample.env, []⟩
    refine framedFrom_exists fun a => ?_
    let envs : Nat → SmsgEnv := fun i => { a.1 with
      adjustedTime := now i, isLocked := false, createDirectory := true, fopen := fun _ => true, fseek := true, fwriteOk := true }
    let node : Smsg := ⟨true, ∅, [⟨a.2, true, true⟩], ∅, ∅, ∅⟩
    have hwilling : ∀ i, Willing P a.2 (fun smsg payload => secureMsgDecryptTest P a.1 (canonical P a.2) smsg payload) (envs i) :=
      fun i => ⟨rfl, fun f => ⟨rfl, rfl, rfl⟩, Bool.false_ne_true, fun htest => htest⟩
    refine framed_of_inside (s := node) hwilling (fun _ => rfl) rfl (fun token htoken => ?_) fun v hv => ?_
    · obtain ⟨held, hheld, -⟩ := htoken
      exact absurd hheld OrderedSet.notMem_empty
    · refine h envs node (fun _ => rfl) v ?_
      rw [receiveVisits, if_pos ⟨⟨hsize, hfuture, hpast⟩, hnone, hmany⟩]
      exact hv
  · intro h envs s hclock v hv
    rw [receiveVisits] at hv
    split at hv
    next hlooked =>
      obtain ⟨⟨hsize, hfuture, hpast⟩, hnone, hmany⟩ := hlooked
      rw [hclock 0] at hfuture hpast
      exact visits_inside (fun _ _ _ _ => addressed_of_delivers) hclock (h hsize hfuture hpast hnone hmany)
        (List.forall_mem_nil _) v hv
    next => cases hv

end

/-- A bunch of one valid message whose header gives its payload 100 bytes,
and that ends with the header. -/
theorem not_bunchInside_short :
    ¬ BunchInside SmsgSample.params (fun _ => 1500000000) (CScript.leBytes 4 1 ++ (CScript.leBytes 8 1500000000 ++
      { SmsgSample.blank with version := ⟨[1, 1], rfl⟩, timestamp := 1500000000, nPayload := 100 }.bytes)) := by
  intro h
  have hvisit := h (fun _ => SmsgSample.env) SmsgSample.node (fun _ => rfl) ⟨12, 100, false⟩ (by decide +kernel)
  exact absurd hvisit (by decide +kernel)

end Pinkcoin
