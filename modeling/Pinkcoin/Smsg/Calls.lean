/-
What peers, threads and the user have the message store do, and the runs of
these calls. Each of them holds the lock of the module, `cs_smsg`; where one
gives it back between two files, each file is a call of its own.
-/
import Pinkcoin.Smsg.Store

namespace Pinkcoin

open CScript (leNat)
open StateError (endState rejectIf lift)

/-! ## What peers send -/

section

variable (P : SmsgParams)

/-- A signed number of eight bytes. -/
def readInt64 (bytes : List UInt8) : Int := (BitVec.ofNat 64 (leNat bytes)).toInt

/-- The message at offset `n` of a bunch. The size of the payload is not
compared with the size of the bunch. -/
def bunchMessage (env : SmsgEnv) (vchData : List UInt8) (n : Nat) : SecureMessage × List UInt8 :=
  let smsg := SecureMessage.ofBytes ⟨env.memory vchData n SMSG_HDR_LEN, env.length_memory _ _ _⟩
  (smsg, env.memory vchData ((n + SMSG_HDR_LEN) % 2 ^ 32) smsg.nPayload.toNat)

/-- The loop of `SecureMsgReceive` over the `i`-th message and those after it.
A message that is not valid is looked at again, the offset stays. -/
def receiveLoop (envs : Nat → SmsgEnv) (vchData : List UInt8) : Nat → Nat → Nat → SmsgM Unit
  | 0, _, _ => pure ()
  | left + 1, i, n => do
    let env := envs i
    if (vchData.length + 2 ^ 64 - n) % 2 ^ 64 < SMSG_HDR_LEN then pure ()
    else
      let (smsg, payload) := bunchMessage env vchData n
      match secureMsgValidate P smsg payload smsg.nPayload.toNat with
      | .error _ => receiveLoop envs vchData left (i + 1) n
      | .ok _ =>
        match ← succeeds (secureMsgStore env smsg payload false) with
        | none => pure ()
        | some _ =>
          let _ ← succeeds (secureMsgScanMessage P env smsg payload)
          receiveLoop envs vchData left (i + 1) ((n + SMSG_HDR_LEN + smsg.nPayload.toNat) % 2 ^ 32)

/-- The number of messages a bunch announces. -/
def nBunch (vchData : List UInt8) : Nat := leNat (vchData.take 4)

/-- The bucket a bunch is announced for. -/
def bktTime (vchData : List UInt8) : Int := readInt64 ((vchData.drop 4).take 8)

/-- A bunch whose bucket is neither of the future nor past the time it is
kept. -/
def bunchInWindow (env : SmsgEnv) (vchData : List UInt8) : Prop :=
  12 ≤ vchData.length ∧ bktTime vchData ≤ env.adjustedTime + SMSG_TIME_LEEWAY ∧
    env.adjustedTime - SMSG_RETENTION ≤ bktTime vchData

instance (env : SmsgEnv) (vchData : List UInt8) : Decidable (bunchInWindow env vchData) :=
  inferInstanceAs (Decidable (_ ∧ _ ∧ _))

/-- `SecureMsgReceive`. -/
def secureMsgReceive (envs : Nat → SmsgEnv) (vchData : List UInt8) : SmsgM Unit := do
  rejectIf (¬ bunchInWindow (envs 0) vchData) (SmsgError.rv 1)
  let time := bktTime vchData
  let s ← get
  if nBunch vchData = 0 ∨ 500 < nBunch vchData then
    if (s.smsgBuckets.lookup time).isSome then modify fun s => s.updateBucket time fun bucket => { bucket with nLockCount := 0 }
    throw (.rv 1)
  else
    receiveLoop P envs vchData (nBunch vchData) 0 12
    let s ← get
    if (s.smsgBuckets.lookup time).isNone then throw (.rv 1)
    else modify fun s => s.updateBucket time fun bucket =>
      SecMsgBucket.hashBucket (envs (nBunch vchData)).adjustedTime { bucket with nLockCount := 0, nLockPeerId := 0 }

end

/-- What is done about a bucket of a peer. -/
inductive InvAnswer
  | ignored
  | locked
  | requested
  | matched
  deriving DecidableEq

/-- The body of the loop of `smsgInv` over the buckets of a peer. -/
def answerInv (env : SmsgEnv) (time : Int) (ncontent : Nat) (hash : BitVec 32) : SmsgM InvAnswer := do
  if time < env.adjustedTime - SMSG_RETENTION ∨ env.adjustedTime + SMSG_TIME_LEEWAY < time ∨ ncontent < 1 then pure .ignored
  else
    modify fun s => s.updateBucket time id
    let s ← get
    let bucket := s.bucketAt time
    let size := bucket.setTokens.toList.length
    if 0 < bucket.nLockCount then pure .locked
    else if size < ncontent ∨ (size = ncontent ∧ bucket.hash ≠ hash) then pure .requested
    else pure .matched

/-- The reply to `smsgInv`: the buckets whose tokens the peer is to show, or
that there is nothing to ask for. -/
inductive InvReply
  | smsgShow (times : List Int)
  | smsgMatch (now : Int)
  | nothing
  deriving DecidableEq

/-- The loop of `smsgInv`. -/
def answerInvs (env : SmsgEnv) (vchData : List UInt8) : List Nat → SmsgM (List (Int × InvAnswer))
  | [] => pure []
  | i :: rest => do
    let p := vchData.drop (4 + 16 * i)
    let time := readInt64 (p.take 8)
    let answer ← answerInv env time (leNat ((p.drop 8).take 4)) (BitVec.ofNat 32 (leNat ((p.drop 12).take 4)))
    pure ((time, answer) :: (← answerInvs env vchData rest))

/-- `smsgInv`, of a peer that is ignored until `ignoreUntil`. -/
def smsgInv (env : SmsgEnv) (ignoreUntil : Int) (vchData : List UInt8) : SmsgM InvReply := do
  rejectIf (vchData.length < 4) (SmsgError.rv 1)
  rejectIf (env.adjustedTime < ignoreUntil) (SmsgError.rv 1)
  let nInvBuckets := leNat (vchData.take 4)
  rejectIf (SMSG_RETENTION / SMSG_BUCKET_LEN + 1 < nInvBuckets) (SmsgError.rv 1)
  rejectIf (vchData.length < 4 + nInvBuckets * 16) (SmsgError.rv 1)
  let answers ← answerInvs env vchData (List.range nInvBuckets)
  let requested := answers.filter (·.2 = .requested)
  if requested ≠ [] then pure (.smsgShow (requested.map (·.1)))
  else if (answers.filter (·.2 = .locked)).length < 1 then pure (.smsgMatch env.adjustedTime)
  else pure .nothing

/-- The `i`-th token of a `smsgHave`, or a `smsgWant`. -/
def tokenAt (vchData : List UInt8) (i : Nat) : SecMsgToken :=
  let p := vchData.drop (8 + 16 * i)
  SecMsgToken.ofPayload (readInt64 (p.take 8)) ((p.drop 8).take 8) 0

/-- `smsgHave`: the tokens of the peer that are not in the bucket, which is
locked until the peer has sent their messages. -/
def smsgHave (env : SmsgEnv) (nPeerId : Nat) (vchData : List UInt8) : SmsgM (List SecMsgToken) := do
  rejectIf (vchData.length < 8) (SmsgError.rv 1)
  let time := readInt64 (vchData.take 8)
  rejectIf (time < env.adjustedTime - SMSG_RETENTION) (SmsgError.rv 1)
  rejectIf (env.adjustedTime + SMSG_TIME_LEEWAY < time) (SmsgError.rv 1)
  modify fun s => s.updateBucket time id
  let s ← get
  let bucket := s.bucketAt time
  rejectIf (0 < bucket.nLockCount) (SmsgError.rv 1)
  let wanted := ((List.range ((vchData.length - 8) / 16)).map (tokenAt vchData)).filter fun token =>
    (bucket.setTokens.find token.key).isNone
  if wanted ≠ [] then
    modify fun s => s.updateBucket time fun bucket => { bucket with nLockCount := 3, nLockPeerId := nPeerId }
  pure wanted

/-! ## The threads -/

/-- A round of `ThreadSecureMsgPow`: a queued message gets its proof of work,
is stored and, with the lock given back, scanned. -/
def powMessage (P : SmsgParams) (env env' : SmsgEnv) (vchMessage : List UInt8) : SmsgM Unit := do
  let (smsg, payload) := bunchMessage env vchMessage 0
  let smsg ← lift (secureMsgSetHash P env smsg payload)
  secureMsgStore env smsg payload true
  secureMsgScanMessage P env' smsg payload

/-- The body of the loop of `ThreadSecureMsg` over the buckets. -/
def tickBucket (env : SmsgEnv) (time : Int) (s : Smsg) : Smsg :=
  match s.smsgBuckets.lookup time with
  | none => s
  | some bucket =>
    if time < env.adjustedTime - SMSG_RETENTION then
      let s := (s.removeFile env (.dat time)).removeFile env (.wl time)
      { s with smsgBuckets := s.smsgBuckets.erase time }
    else if 0 < bucket.nLockCount then
      s.setBucket time { bucket with
        nLockCount := bucket.nLockCount - 1
        nLockPeerId := if bucket.nLockCount = 1 then 0 else bucket.nLockPeerId }
    else s

/-- `ThreadSecureMsg`, every `SMSG_THREAD_DELAY` seconds. -/
def threadSecureMsg (env : SmsgEnv) (s : Smsg) : Smsg := s.smsgBuckets.keys.foldl (fun s time => tickBucket env time s) s

/-! ## Scanning the files -/

/-- The messages of a file, up to the first that cannot be read as a whole. -/
def storedMessages (content : List UInt8) : Nat → Nat → List (SecureMessage × List UInt8)
  | 0, _ => []
  | fuel + 1, ofs =>
    match readHeader content ofs with
    | none => []
    | some smsg =>
      let payload := (content.drop (ofs + SMSG_HDR_LEN)).take smsg.nPayload.toNat
      if payload.length ≠ smsg.nPayload.toNat then []
      else (smsg, payload) :: storedMessages content fuel (ofs + SMSG_HDR_LEN + smsg.nPayload.toNat)

def scanMessages (P : SmsgParams) (envs : Nat → SmsgEnv) : Nat → List (SecureMessage × List UInt8) → SmsgM Unit
  | _, [] => pure ()
  | i, (smsg, payload) :: rest => do
    let _ ← succeeds (secureMsgScanMessage P (envs i) smsg payload)
    scanMessages P envs (i + 1) rest

/-- The messages of a file are scanned, and the file is removed. -/
def scanFile (P : SmsgParams) (envs : Nat → SmsgEnv) (f : SmsgFile) : SmsgM Unit := do
  let s ← get
  let content := (s.file f).take ((envs 0).fread f)
  scanMessages P envs 0 (storedMessages content (content.length + 1) 0)
  rejectIf (¬ (envs 0).remove f) (SmsgError.rv 1)
  modify fun s => s.removeFile (envs 0) f

/-- The body of the loop of `SecureMsgScanBuckets` over the directory. -/
def scanBucket (P : SmsgParams) (envs : Nat → SmsgEnv) (f : SmsgFile) : SmsgM Unit := do
  if f.bucket < (envs 0).adjustedTime - SMSG_RETENTION then modify fun s => s.removeFile (envs 0) f
  else
    match f with
    | .wl _ => pure ()
    | .dat _ => if (envs 0).fopen f then scanFile P envs f else pure ()

/-- The body of the loop of `SecureMsgWalletUnlocked` over the directory. -/
def scanUnlocked (P : SmsgParams) (envs : Nat → SmsgEnv) (f : SmsgFile) : SmsgM Unit := do
  match f with
  | .dat _ => pure ()
  | .wl _ =>
    if f.bucket < (envs 0).adjustedTime - SMSG_RETENTION then
      rejectIf (¬ (envs 0).remove f) (SmsgError.rv 1)
      modify fun s => s.removeFile (envs 0) f
    else if (envs 0).fopen f then scanFile P envs f
    else pure ()

/-! ## Starting and stopping -/

/-- `smsgbuckets dump`. -/
def dumpBuckets (env : SmsgEnv) (s : Smsg) : Smsg :=
  { s.smsgBuckets.keys.foldl (fun s time => s.removeFile env (.dat time)) s with smsgBuckets := ∅ }

/-- `SecureMsgDisable`. -/
def secureMsgDisable (s : Smsg) : Smsg :=
  if s.fSecMsgenabled then { s with fSecMsgenabled := false, smsgBuckets := ∅, smsgAddresses := [] } else s

/-- `SecureMsgStart` of a node that starts again, and `SecureMsgEnable`. -/
def secureMsgStart (env : SmsgEnv) (smsgAddresses : List SecMsgAddress) (s : Smsg) : Smsg :=
  secureMsgBuildBucketSet env { s with fSecMsgenabled := true, smsgBuckets := ∅, smsgAddresses := smsgAddresses }

/-- A call of the module. -/
inductive SmsgCall
  | receive (envs : Nat → SmsgEnv) (vchData : List UInt8)
  | pow (env env' : SmsgEnv) (vchMessage : List UInt8)
  | inv (env : SmsgEnv) (ignoreUntil : Int) (vchData : List UInt8)
  | have (env : SmsgEnv) (nPeerId : Nat) (vchData : List UInt8)
  | thread (env : SmsgEnv)
  | scanBucket (envs : Nat → SmsgEnv) (f : SmsgFile)
  | scanUnlocked (envs : Nat → SmsgEnv) (f : SmsgFile)
  | dump (env : SmsgEnv)
  | disable
  | start (env : SmsgEnv) (smsgAddresses : List SecMsgAddress)
  /-- The keys, the inbox and the addresses change otherwise. -/
  | aside (smsgAddresses : List SecMsgAddress) (pubkeys : Map CKeyID (List UInt8)) (inbox : Map (List UInt8) SecMsgStored)

/-- A message of a peer, which is not looked at while the module is off. -/
def whenEnabled {α : Type} (x : SmsgM α) (s : Smsg) : Smsg := if s.fSecMsgenabled then endState (x s) else s

/-- The state after a call. -/
def SmsgCall.run (P : SmsgParams) : SmsgCall → Smsg → Smsg
  | receive envs vchData, s => whenEnabled (secureMsgReceive P envs vchData) s
  | pow env env' vchMessage, s => endState (powMessage P env env' vchMessage s)
  | inv env ignoreUntil vchData, s => whenEnabled (smsgInv env ignoreUntil vchData) s
  | .have env nPeerId vchData, s => whenEnabled (smsgHave env nPeerId vchData) s
  | thread env, s => threadSecureMsg env s
  | scanBucket envs f, s => endState (Pinkcoin.scanBucket P envs f s)
  | scanUnlocked envs f, s => endState (Pinkcoin.scanUnlocked P envs f s)
  | dump env, s => dumpBuckets env s
  | disable, s => secureMsgDisable s
  | start env smsgAddresses, s => secureMsgStart env smsgAddresses s
  | aside smsgAddresses pubkeys inbox, s => { s with smsgAddresses := smsgAddresses, pubkeys := pubkeys, inbox := inbox }

end Pinkcoin
