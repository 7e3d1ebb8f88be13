/-
What a node is configured with: the network it is on, the constants of the
chain, the checkpoints. The cryptography and the script interpreter come in
as functions here; nothing is assumed of them unless a theorem says so.
-/
import Pinkcoin.BigNum

namespace Pinkcoin

/-- The keys, redeem scripts and stealth addresses of a wallet. -/
abbrev CKeyStore := List (List UInt8)

/-- `Checkpoints::CPMode`, the `-cppolicy` argument. -/
inductive CPMode
  | STRICT
  | ADVISORY
  | PERMISSIVE
  deriving DecidableEq, Repr

/-- The configuration of a node, with the functions it takes from outside
the chain code. -/
structure Params where
  /-- `-testnet` -/
  fTestNet : Bool
  /-- `CheckpointsMode` -/
  checkpointsMode : CPMode
  /-- The scrypt hash of a block header. -/
  scryptBlockHash : CBlockHeader → Uint256
  /-- `SerializeHash` of a transaction. -/
  serializeHash : CTransaction → Uint256
  /-- `Hash` of two hashes one after the other. -/
  hashPair : Uint256 → Uint256 → Uint256
  /-- `Hash` of a string of bytes. -/
  hashBytes : List UInt8 → Uint256
  /-- `VerifySignature(txFrom, txTo, nIn, 0)`. -/
  verifySignature : CTransaction → CTransaction → Nat → Bool
  /-- `CBlock::CheckBlockSignature`. -/
  checkBlockSignature : CBlock → Bool
  /-- `CTransaction::IsStandard` and `AreInputsStandard`. -/
  isStandard : CTransaction → Bool
  areInputsStandard : CTransaction → MapPrevTx → Bool
  /-- The `-checkpoint` arguments. -/
  configCheckpoints : List (Nat × Uint256)
  /-- `IsMine(keystore, scriptPubKey)`. -/
  isMineScript : CKeyStore → CScript → Bool
  /-- `FindStealthTransactions`: the keys it adds and the notes it finds. -/
  findStealthTransactions : CKeyStore → CTransaction → CKeyStore × List (String × String)
  /-- The smallest output the wallet takes as a payment to it. -/
  nMinimumInputValue : Int

namespace CTransaction

/-- `GetHash`. -/
def getHash (P : Params) (tx : CTransaction) : Uint256 := P.serializeHash tx

end CTransaction

namespace CBlock

/-- `GetHash`. The cached variant returns the same value. -/
def getHash (P : Params) (block : CBlock) : Uint256 := P.scryptBlockHash block.toCBlockHeader

/-- `GetStakeEntropyBit`: the last bit of the hash. -/
def getStakeEntropyBit (P : Params) (block : CBlock) : Bool := block.getHash P % 2 = 1

end CBlock

/-! ## Constants of the chain -/

def hashGenesisBlockMain : Uint256 := 0x00000f79b700e6444665c4d090c9b8833664c4e2597c7087a6ba6391b956cc89
def hashGenesisBlockTestNet : Uint256 := 0x000076a007b949e5f8cdee6c18817d26bc224bfde575ce3f2ecb0dd000f7ec19

def nTargetSpacing : Nat := 120
def nTargetSpacing_Staking : Nat := 360
def nTargetSpacing_FlashStaking : Nat := 60
def nStakeMinAge : Nat := 1 * 60 * 60
def nStakeMaxAge : Nat := 24 * 60 * 60 * 30
def nFlashStakeMaxAge : Nat := 24 * 60 * 60 * 7
def nModifierInterval : Nat := 5 * 60

def nTargetTimespan : Int := 60 * 60
def nStakeTargetTimespan : Int := 2 * 60 * 60
def nFlashStakeTargetTimespan : Int := 10 * 60

/-- The consensus update of version 2.2.1.0. -/
def nTimeV221 : Nat := 1540771200
/-- The end of proof-of-work, version 3.0.1.0. -/
def nTimeV231 : Nat := 1565308800

def bnProofOfStakeLimit : CBigNum := 2 ^ 246 - 1
def bnProofOfFlashStakeLimit : CBigNum := 2 ^ 246 - 1

def futureDrift (nTime : Int) : Int := nTime + 10 * 60

/-- The hours of the day (UTC) of flash staking. -/
def isFlashStake (nTime : Nat) : Bool := [15, 20, 1, 6].contains (nTime / 3600 % 24)

namespace Params

variable (P : Params)

def hashGenesisBlock : Uint256 := if P.fTestNet then hashGenesisBlockTestNet else hashGenesisBlockMain
def bnProofOfWorkLimit : CBigNum := if P.fTestNet then 2 ^ 240 - 1 else 2 ^ 236 - 1
def nCoinbaseMaturity : Nat := if P.fTestNet then 10 else 20

/-! ## Hardened checkpoints -/

def builtinCheckpoints : List (Nat × Uint256) := [
  (0, hashGenesisBlockMain),
  (50000, 0x000000000f794eac0e68cbd44f803cf6efb5eb31ce88444f9dd5b9f183c71b47),
  (150000, 0x00000000016f84533d463b761dc14eb2efcc2f79ef6e799930da0880bd86bdaa),
  (250000, 0x0000000000432587031f1a05ff8ca58a9dd2e19d34c4b473068b5a06307011c6),
  (320000, 0x6d4459626f9f36ff37cc63cc30f10d3d5864e109554dbadce6c84b038008769e),
  (400000, 0x6577afbb84a390974330442dc2f28959b7ec992b0717d11451f6e916eea81ab4),
  (500000, 0x6ad56723745d551909fb772be2a23d4ad6ad5eddc93a47773f0631e3c341c936),
  (580000, 0x0dc57093e52d8148e4da6660530e22e433dda6555d8c64bef781d92832a628a6),
  (590000, 0x5727cf32aaba496383e1fd8fbc182eb7b2fbaa87150d2e965a2d9fee9ac7f270),
  (600000, 0x000000000011c3a26936c1726549311b49dc1922d1ca8efeadc7133c435437da),
  (610000, 0x0000000000090088e2b22d5ef14f2e63fb64b0ca6656a7b7d4b3e37da25f5d59),
  (620000, 0x000000000000c4ba0b8b56e707858ec912014f7538f0fe3dd67f4ceac169fbc7),
  (630000, 0x000000000023154bdf6cb7546ba146d9b973591cdd2e12638b711af66c004a1c),
  (640000, 0x0000000000256123ab4a8ac67758f0a779dd31fb853f54bfc97ca6b97c653320),
  (728000, 0x00000000002984a1ea9ce4967fca19765a55724234e8479a7f7644c22ee5b30c)]

/-- `mapCheckpoints`, or its testnet counterpart. A `-checkpoint` argument
does not replace a built-in one, and is read for the main network only. -/
def mapCheckpoints : List (Nat × Uint256) :=
  if P.fTestNet then [(0, hashGenesisBlockTestNet)] else builtinCheckpoints ++ P.configCheckpoints

/-- `Checkpoints::CheckHardened`. -/
def checkHardened (nHeight : Nat) (hash : Uint256) : Bool :=
  match P.mapCheckpoints.lookup nHeight with
  | none => true
  | some h => hash == h

/-- `Checkpoints::GetTotalBlocksEstimate`: the highest checkpoint. -/
def getTotalBlocksEstimate : Nat := (P.mapCheckpoints.map Prod.fst).foldl max 0

end Params

end Pinkcoin
