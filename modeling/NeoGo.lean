import NeoGo.Sort
import NeoGo.Mempool.Item
import NeoGo.Mempool.Inputs
import NeoGo.Mempool.Pool
import NeoGo.Mempool.Step
import NeoGo.Mempool.Invariant
import NeoGo.Mempool.Commute
import NeoGo.Mempool.Spec
import NeoGo.Mempool.Ledger
import NeoGo.Mpt.Node
import NeoGo.Mpt.Proof
import NeoGo.Mpt.Traverse
import NeoGo.Mpt.Expand
import NeoGo.Dao.Store
import NeoGo.Dao.Dao
import NeoGo.Dao.Wrapped
import NeoGo.Dao.TransferLog
import NeoGo.Dao.Commit
import NeoGo.Dao.Block
import NeoGo.Dao.Layers
import NeoGo.Dao.Version
import NeoGo.Dao.Notification
import NeoGo.Dao.Transaction
import NeoGo.Dao.Storage
import NeoGo.Dao.Headers
import NeoGo.Dao.System
import NeoGo.Storage.LevelDB
import NeoGo.Network.Peer
import NeoGo.Network.Queues
import NeoGo.Dao.Isolation
