import Sidechain.Mempool.FeeEstimator
import Sidechain.Wallet.Money
import Sidechain.Primitives.Prevector
import Sidechain.Primitives.Base64
import Sidechain.Primitives.Base58
import Sidechain.Net.BloomRelevance
import Sidechain.Chain.Announce
import Sidechain.Chain.Retarget
import Sidechain.Chain.BlockFiles
import Sidechain.Chain.Canonical
import Sidechain.Chain.Deployment
import Sidechain.Chain.MerkleLevels
import Sidechain.Chain.MerkleProof
import Sidechain.Chain.Locator
import Sidechain.Coins.UndoFormat
import Sidechain.Index.ObjectRoundTrip
import Sidechain.Mempool.AncestorVerdict
import Sidechain.Mempool.LockPointRun
import Sidechain.Mempool.PoolRun
import Sidechain.Mempool.RefusedAccept
import Sidechain.Miner.DepositCredit
import Sidechain.Miner.DrivechainClient
import Sidechain.Miner.SelectionOrder
import Sidechain.Miner.CoinbaseValue
import Sidechain.Miner.FullBlock
import Sidechain.Miner.ObjectHeight
import Sidechain.Miner.WTJoinPeriod
import Sidechain.Miner.WTJoinReuse
import Sidechain.Miner.WithdrawnValue
import Sidechain.Net.AddrManReadBack
import Sidechain.Net.DownloadTracking
import Sidechain.Net.DownloadWindow
import Sidechain.Wallet.PaymentAccount
import Sidechain.Net.SendQueue
import Sidechain.Net.Eviction
import Sidechain.Net.LimitedMap
import Sidechain.Net.NetAddr
import Sidechain.Net.SubNet
import Sidechain.Net.OrphanPool
import Sidechain.Net.TorReply
import Sidechain.Primitives.VarInt
import Sidechain.Script.DrivechainScript
import Sidechain.Script.CombineSpend
import Sidechain.Script.SigHashOld
import Sidechain.Script.SolverAnswer
import Sidechain.Script.StackBounds
import Sidechain.Validation.CheckQueueRun
import Sidechain.Validation.DryRun
import Sidechain.Validation.FlushBlock
import Sidechain.Validation.MalformedPayload
import Sidechain.Validation.MerkleMutation
import Sidechain.Validation.NoDoubleSpend
import Sidechain.Validation.SigOps
import Sidechain.Wallet.ConflictRun
import Sidechain.Wallet.KeyPool
import Sidechain.Chain.ExternalBlocks
import Sidechain.Chain.Pruning
import Sidechain.Crypto.Hasher
import Sidechain.Primitives.DataStream
import Sidechain.Script.LaxSignature
import Sidechain.Script.ScriptText
import Sidechain.Wallet.Abandon
import Sidechain.Wallet.CoinsReached
import Sidechain.Wallet.OrderGaps
