import Floresta.Consensus.Conservation
import Floresta.Consensus.MerkleRoot
import Floresta.Consensus.SigOps
import Floresta.Udata.CompactLeaf
import Floresta.SwiftSync.Slots
import Floresta.SwiftSync.StumpUpdater
import Floresta.Store.Histories
import Floresta.ChainState.PartialChain
import Floresta.ChainState.Tips
import Floresta.ChainState.StaleSlots
import Floresta.ChainState.ChainWork
import Floresta.ChainState.MedianTime
import Floresta.ChainState.Difficulty
import Floresta.Wire.AccumulatorSelection
import Floresta.Wire.AlternativeTips
import Floresta.Wire.SwiftSyncSession
import Floresta.Wallet.GapLimit
import Floresta.Electrum.Subscriptions
import Floresta.Wallet.Rescan
import Floresta.Mempool.Conflicts
import Floresta.Filters.Download
import Floresta.Filters.NetworkFilters
import Floresta.ChainState.HeaderArithmetic
import Floresta.ChainState.HeightQueries
import Floresta.Mempool.Templates
import Floresta.Lib.Smearing
import Floresta.Store.IndexSize
