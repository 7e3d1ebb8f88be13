import Pinkcoin.Lib.StateError
import Pinkcoin.Lib.Ledger
import Pinkcoin.Lib.BatchStore
import Pinkcoin.Lib.Forest
import Pinkcoin.Types
import Pinkcoin.BigNum
import Pinkcoin.Script
import Pinkcoin.Params
import Pinkcoin.TxDB
import Pinkcoin.BatchReads
import Pinkcoin.Disk
import Pinkcoin.BlockTree
import Pinkcoin.Merkle
import Pinkcoin.MemPool
import Pinkcoin.Wallet
import Pinkcoin.Wire
import Pinkcoin.SigHash
import Pinkcoin.Node
import Pinkcoin.Target
import Pinkcoin.Emission
import Pinkcoin.CheckBlock
import Pinkcoin.Inputs
import Pinkcoin.ConnectBlock
import Pinkcoin.Accept
import Pinkcoin.BestChain
import Pinkcoin.Trust
import Pinkcoin.Kernel
import Pinkcoin.Checkpoints
import Pinkcoin.AcceptBlock
import Pinkcoin.ConnectFacts
import Pinkcoin.RoundTrip
import Pinkcoin.MintBound
import Pinkcoin.MerkleRoot
import Pinkcoin.Frames
import Pinkcoin.ChainState
import Pinkcoin.MainChain
import Pinkcoin.TipFacts
import Pinkcoin.ChainRuns
import Pinkcoin.TipAgrees
import Pinkcoin.MoneySupply
import Pinkcoin.Placement
import Pinkcoin.PoolFacts
import Pinkcoin.SyncCheckpoint
import Pinkcoin.FailedSwitch
import Pinkcoin.PoolConflicts
import Pinkcoin.PoolAgrees
import Pinkcoin.JustCheck
import Pinkcoin.Interp.Machine
import Pinkcoin.Interp.Bounds
import Pinkcoin.Interp.SigOps
import Pinkcoin.Lib.Greedy
import Pinkcoin.Interp.Templates
import Pinkcoin.Interp.Standard
import Pinkcoin.Interp.Signing
import Pinkcoin.Interp.Verify
import Pinkcoin.Interp.MineSpends
import Pinkcoin.Lib.Costs
import Pinkcoin.Lib.Depth
import Pinkcoin.WalletOrder
import Pinkcoin.WalletRecord
import Pinkcoin.WalletSpent
import Pinkcoin.Smsg.Sealed
import Pinkcoin.Smsg.BucketHash
import Pinkcoin.Smsg.Index
import Pinkcoin.Solver
import Pinkcoin.Smsg.Directory
import Pinkcoin.Smsg.Offers
import Pinkcoin.Smsg.SendQueue
import Pinkcoin.Stake.StakeOut
import Pinkcoin.Stealth
import Pinkcoin.Stake.CoinStake
import Pinkcoin.Net.Address
import Pinkcoin.Net.AddrMan
import Pinkcoin.Net.AddrManTables
import Pinkcoin.Net.AddrManMoves
import Pinkcoin.Net.AddrManFacts
import Pinkcoin.Net.AddrManCheck
import Pinkcoin.Net.AddrManRuns
import Pinkcoin.Net.AddrManDisk
import Pinkcoin.Net.AddrManReload
import Pinkcoin.Net.AddrManPersist
import Pinkcoin.BlockFile
import Pinkcoin.Retarget.Compact
import Pinkcoin.Retarget.Step
import Pinkcoin.Retarget.Spacing
import Pinkcoin.Retarget.Flood
import Pinkcoin.TreeFrames
import Pinkcoin.ProcessBlock
import Pinkcoin.Orphans
import Pinkcoin.TrustReads
import Pinkcoin.Lib.Frames
import Pinkcoin.Net.Message
import Pinkcoin.Net.Framing
import Pinkcoin.Keys.KeyPool
import Pinkcoin.Keys.KeyPoolFacts
import Pinkcoin.Keys.KeyPoolRuns
import Pinkcoin.Smsg.PlainReads
import Pinkcoin.Smsg.Handlers
import Pinkcoin.Smsg.Visits
import Pinkcoin.Smsg.BunchOnce
import Pinkcoin.Lib.Greedy
import Pinkcoin.Alert
import Pinkcoin.Lib.Inverted
import Pinkcoin.OrphanTxs
import Pinkcoin.Lib.Picked
import Pinkcoin.Coins
import Pinkcoin.CreateTransaction
import Pinkcoin.Notes
import Pinkcoin.SpentCoins
import Pinkcoin.Lib.Components
import Pinkcoin.AddressGroups
import Pinkcoin.Lib.BestDraw
import Pinkcoin.Stake.Modifier
import Pinkcoin.Keys.KeyForm
import Pinkcoin.Text.Base64
import Pinkcoin.Text.NetText
import Pinkcoin.Text.Base58
import Pinkcoin.Text.StealthText
import Pinkcoin.LoadFile
import Pinkcoin.Locator
import Pinkcoin.MerkleBranch
import Pinkcoin.Assembly
import Pinkcoin.Interp.DerSignature
import Pinkcoin.Interp.SolverForms
import Pinkcoin.Lib.Shuffle
import Pinkcoin.Net.Eviction
import Pinkcoin.Text.Amount
import Pinkcoin.Lib.Pass
import Pinkcoin.LockedPages
import Pinkcoin.Lib.Hull
import Pinkcoin.Net.NTP
import Pinkcoin.Keys.Birthday
import Pinkcoin.SendCoins
import Pinkcoin.Amounts
import Pinkcoin.Balances
import Pinkcoin.History
import Pinkcoin.BalanceCaches
import Pinkcoin.Startup
import Pinkcoin.Text.Units
import Pinkcoin.Net.TimeData
import Pinkcoin.Paging
import Pinkcoin.SinceBlock
import Pinkcoin.Keys.ImportRescan
import Pinkcoin.StealthNotes
import Pinkcoin.Keys.Dump
import Pinkcoin.WalletScan
import Pinkcoin.Rescan
import Pinkcoin.CompactCodec
import Pinkcoin.Lib.ReadyQueue
import Pinkcoin.Miner
import Pinkcoin.MinerChecks
import Pinkcoin.MinerTurns
import Pinkcoin.Clock
