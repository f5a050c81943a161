import Rbtc.Node.BlockResponses
import Rbtc.Headers.ConfigIdentity
import Rbtc.Fees.FeeEstimator
import Rbtc.Fees.FeerateDiagram
import Rbtc.Node.HeaderSyncConvergence
import Rbtc.WriteBack.Refinement
import Rbtc.Execution.Recovery
import Rbtc.Chainstate.ExecutionStore
import Rbtc.Chainstate.SpentAgeExactness
import Rbtc.SnapshotOverlay.Swap
import Rbtc.SnapshotOverlay.PlainRefinement
import Rbtc.SnapshotOverlay.CoreVarint
import Rbtc.Chainstate.TierRuns
import Rbtc.Chainstate.CompactCoin
import Rbtc.Chainstate.MdbxRuns
import Rbtc.Chainstate.Compaction
import Rbtc.Peers.PeerStoreProperties
import Rbtc.Ledger.LedgerCrashSafety
import Rbtc.Chainstate.MdbxPaging
import Rbtc.Node.SubmittedBlocks
import Rbtc.Node.TransactionRequests
import Rbtc.Headers.RequiredWork
import Rbtc.Node.DisconnectedTransactions
import Rbtc.Execution.ChainHistory
import Rbtc.Headers.MedianTime
import Rbtc.Headers.ServingSnapshot
import Rbtc.Node.HeaderReload
