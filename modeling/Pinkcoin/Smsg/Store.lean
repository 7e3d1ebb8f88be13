/-
The message store: the buckets in memory, and the files of the directory
`smsgStore` they are written to and read back from.
-/
import Pinkcoin.Smsg.Crypt

namespace Pinkcoin

open CScript (leBytes leNat)
open StateError (rejectIf onlyIf attempt lift)

/-! ## Buckets and files -/

/-- The bucket of a message. -/
def bucketTime (timestamp : Int) : Int := timestamp - timestamp.tmod SMSG_BUCKET_LEN

namespace Smsg

/-- `smsgBuckets[time]`, where there may be no bucket yet. -/
def bucketAt (s : Smsg) (time : Int) : SecMsgBucket := (s.smsgBuckets.lookup time).getD .new

def setBucket (s : Smsg) (time : Int) (bucket : SecMsgBucket) : Smsg :=
  { s with smsgBuckets := s.smsgBuckets.insert time bucket }

/-- Change `smsgBuckets[time]`. The bucket is there afterwards, also when the
change is none. -/
def updateBucket (s : Smsg) (time : Int) (f : SecMsgBucket → SecMsgBucket) : Smsg := s.setBucket time (f (s.bucketAt time))

/-- The bytes of a file. A file that is not there has none. -/
def file (s : Smsg) (f : SmsgFile) : List UInt8 := (s.files.lookup f).getD []

def setFile (s : Smsg) (f : SmsgFile) (content : List UInt8) : Smsg := { s with files := s.files.insert f content }

/-- `fs::remove`, which can fail. -/
def removeFile (s : Smsg) (env : SmsgEnv) (f : SmsgFile) : Smsg :=
  if env.remove f then { s with files := s.files.erase f } else s

end Smsg

/-! ## Writing -/

/-- `fopen(…, "ab")`: the file is there afterwards. -/
def openAppend (env : SmsgEnv) (f : SmsgFile) : SmsgM Unit := do
  rejectIf (¬ env.fopen f) (SmsgError.rv 1)
  modify fun s => s.setFile f (s.file f)

/-- `fwrite` at the end of a file. A write that fails may have written a part. -/
def writeRecord (env : SmsgEnv) (f : SmsgFile) (record : List UInt8) : SmsgM Unit := do
  modify fun s => s.setFile f (s.file f ++ record.take (env.fwrite record))
  rejectIf (¬ env.fwriteOk) (SmsgError.rv 1)

/-- A message is neither of the future nor past the time it is kept. -/
def inWindow (env : SmsgEnv) (timestamp : Int) : Prop :=
  timestamp ≤ env.adjustedTime + SMSG_TIME_LEEWAY ∧ env.adjustedTime - SMSG_RETENTION ≤ timestamp

instance (env : SmsgEnv) (timestamp : Int) : Decidable (inWindow env timestamp) := inferInstanceAs (Decidable (_ ∧ _))

/-- `SecureMsgStoreUnscanned`. -/
def secureMsgStoreUnscanned (env : SmsgEnv) (smsg : SecureMessage) (payload : List UInt8) : SmsgM Unit := do
  rejectIf (¬ env.createDirectory) (SmsgError.rv 1)
  rejectIf (¬ inWindow env smsg.timestamp.toInt) (SmsgError.rv 1)
  let f := SmsgFile.wl (bucketTime smsg.timestamp.toInt)
  openAppend env f
  writeRecord env f (smsg.bytes ++ payload)

/-- The part of `SecureMsgStore` that writes the message and its token. -/
def storeToken (env : SmsgEnv) (smsg : SecureMessage) (payload : List UInt8) : SmsgM Unit := do
  let time := bucketTime smsg.timestamp.toInt
  openAppend env (.dat time)
  rejectIf (¬ env.fseek) (SmsgError.rv 1)
  let s ← get
  let ofs := (s.file (.dat time)).length
  writeRecord env (.dat time) (smsg.bytes ++ payload)
  modify fun s => s.updateBucket time fun bucket =>
    { bucket with setTokens := bucket.setTokens.insert (SecMsgToken.ofPayload smsg.timestamp.toInt payload ofs) }

/-- `SecureMsgStore`. -/
def secureMsgStore (env : SmsgEnv) (smsg : SecureMessage) (payload : List UInt8) (fUpdateBucket : Bool) : SmsgM Unit := do
  rejectIf (¬ env.createDirectory) (SmsgError.rv 1)
  rejectIf (¬ inWindow env smsg.timestamp.toInt) (SmsgError.rv 1)
  let time := bucketTime smsg.timestamp.toInt
  let token := SecMsgToken.ofPayload smsg.timestamp.toInt payload 0
  modify fun s => s.updateBucket time id
  let s ← get
  rejectIf (((s.bucketAt time).setTokens.find token.key).isSome) (SmsgError.rv 1)
  storeToken env smsg payload
  onlyIf fUpdateBucket (modify fun s => s.updateBucket time (SecMsgBucket.hashBucket env.adjustedTime))

/-! ## Reading -/

/-- The header at an offset of a file, if all its bytes can be read. -/
def readHeader (content : List UInt8) (ofs : Nat) : Option SecureMessage :=
  let hdr := (content.drop ofs).take SMSG_HDR_LEN
  if h : hdr.length = SMSG_HDR_LEN then some (SecureMessage.ofBytes ⟨hdr, h⟩) else none

/-- `SecureMsgRetrieve`: the message of a token. -/
def secureMsgRetrieve (env : SmsgEnv) (s : Smsg) (token : SecMsgToken) : Option (List UInt8) := do
  let f := SmsgFile.dat (bucketTime token.timestamp)
  let content := (← s.files.lookup f).take (env.fread f)
  if ¬ (env.fopen f ∧ env.fseek) then none
  else
    let smsg ← readHeader content token.offset
    let vchData := (content.drop token.offset).take (SMSG_HDR_LEN + smsg.nPayload.toNat)
    if vchData.length = SMSG_HDR_LEN + smsg.nPayload.toNat then some vchData else none

/-- The loop of `SecureMsgBuildBucketSet` over the records of a file. A record
with a payload too short to sample is passed over by its header only. -/
def readTokens (fseek : Bool) (content : List UInt8) : Nat → Nat → TokenSet → TokenSet
  | 0, _, setTokens => setTokens
  | fuel + 1, ofs, setTokens =>
    match readHeader content ofs with
    | none => setTokens
    | some smsg =>
      let nPayload := smsg.nPayload.toNat
      if nPayload < 8 then readTokens fseek content fuel (ofs + SMSG_HDR_LEN) setTokens
      else
        let sample := (content.drop (ofs + SMSG_HDR_LEN)).take 8
        if sample.length < 8 ∨ ¬ fseek then setTokens
        else readTokens fseek content fuel (ofs + SMSG_HDR_LEN + nPayload)
          (setTokens.insert (SecMsgToken.ofPayload smsg.timestamp.toInt sample ofs))

/-- The body of the loop of `SecureMsgBuildBucketSet` over the directory. -/
def buildBucket (env : SmsgEnv) (f : SmsgFile) (s : Smsg) : Smsg :=
  if f.bucket < env.adjustedTime - SMSG_RETENTION then s.removeFile env f
  else match f with
    | .wl _ => s
    | .dat time =>
      if env.fopen f then
        let content := (s.file f).take (env.fread f)
        s.updateBucket time fun bucket => SecMsgBucket.hashBucket env.adjustedTime
          { bucket with setTokens := readTokens env.fseek content (content.length + 1) 0 bucket.setTokens }
      else s.updateBucket time id

/-- `SecureMsgBuildBucketSet`. -/
def secureMsgBuildBucketSet (env : SmsgEnv) (s : Smsg) : Smsg := s.files.keys.foldl (fun s f => buildBucket env f s) s

/-! ## Messages to this node -/

/-- Run `x` and say whether its return value was 0. An exception goes on. -/
def succeeds {α : Type} (x : SmsgM α) : SmsgM (Option α) := fun s =>
  match x s with
  | .ok a s' => .ok (some a) s'
  | .error (.rv _) s' => .ok none s'
  | .error .keyError s' => .error .keyError s'

/-- `CBitcoinAddress(address).ToString()`. -/
def canonical (P : SmsgParams) (address : List Char) : List Char :=
  ((CBitcoinAddress.setString P.hash address).getD ⟨0, []⟩).toString P.hash

/-- The loop of `SecureMsgScanMessage` over the addresses: the one the message
is for. An address that takes no anonymous messages has to know the sender. -/
def findAddress (P : SmsgParams) (env : SmsgEnv) (smsg : SecureMessage) (payload : List UInt8) :
    List SecMsgAddress → SmsgM (Option (List Char))
  | [] => pure none
  | it :: rest => do
    let addressTo := canonical P it.sAddress
    if ¬ it.fReceiveEnabled then findAddress P env smsg payload rest
    else if it.fReceiveAnon then
      if secureMsgDecryptTest P env addressTo smsg payload then pure (some addressTo)
      else findAddress P env smsg payload rest
    else
      match ← succeeds (secureMsgDecrypt P env addressTo smsg payload) with
      | some msg => pure (if msg.sFromAddress = anon then none else some addressTo)
      | none => findAddress P env smsg payload rest

/-- The key of a message in the inbox. -/
def inboxKey (env : SmsgEnv) (smsg : SecureMessage) (payload : List UInt8) : List UInt8 :=
  leBytes 8 smsg.timestamp.toNat ++ env.memory payload 0 8

/-- `SecureMsgScanMessage`. -/
def secureMsgScanMessage (P : SmsgParams) (env : SmsgEnv) (smsg : SecureMessage) (payload : List UInt8) : SmsgM Unit := do
  if env.isLocked then
    match ← succeeds (secureMsgStoreUnscanned env smsg payload) with
    | some _ => throw (.rv 3)
    | none => throw (.rv 1)
  else
    let s ← get
    match ← findAddress P env smsg payload s.smsgAddresses with
    | none => pure ()
    | some addressTo =>
      let key := inboxKey env smsg payload
      modify fun s =>
        if env.dbOpen ∧ s.inbox.lookup key = none ∧ env.dbWritten then
          { s with inbox := s.inbox.insert key ⟨env.adjustedTime, 1, addressTo, smsg.bytes ++ payload⟩ }
        else s

end Pinkcoin
