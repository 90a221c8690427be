import PaqusNode.Base.Saturating
import PaqusNode.Base.BTreeMap
import PaqusNode.Base.Except
import PaqusNode.Base.Forest
import PaqusNode.Base.Framing
import PaqusNode.Base.Codec
import PaqusNode.Base.Guarded
import PaqusNode.Base.Pairing
import PaqusNode.Base.Mutating
import PaqusNode.Base.Mutex
import PaqusNode.Base.Gapless
import PaqusNode.Base.Trace
import PaqusNode.Base.Draw
import PaqusNode.Base.While
import PaqusNode.Base.Window
import PaqusNode.Base.Utf8
import PaqusNode.Base.Str
import PaqusNode.Base.Retain
import PaqusNode.Base.Hex
import PaqusNode.Paqus
import PaqusNode.Paqus.Laws
import PaqusNode.Paqus.Chain
import PaqusNode.Paqus.Reference
import PaqusNode.Mempool
import PaqusNode.Mempool.Admission
import PaqusNode.Mempool.Slots
import PaqusNode.Mempool.Capacity
import PaqusNode.Mempool.Mutation
import PaqusNode.Mempool.Commute
import PaqusNode.Mempool.Queue
import PaqusNode.Mempool.Readmission
import PaqusNode.Mempool.Outbid
import PaqusNode.Miner
import PaqusNode.Mempool.Selection
import PaqusNode.Mempool.Execution
import PaqusNode.Mempool.Selected
import PaqusNode.Cache
import PaqusNode.Storage
import PaqusNode.Storage.Roundtrip
import PaqusNode.Storage.Integrity
import PaqusNode.Storage.Index
import PaqusNode.Storage.Snapshot
import PaqusNode.Node.State
import PaqusNode.Node.Sync
import PaqusNode.Node.Open
import PaqusNode.Node.Replay
import PaqusNode.Node.Invariant
import PaqusNode.Node.Run
import PaqusNode.Node.Tries
import PaqusNode.Node.Reopen
import PaqusNode.Node.Reindex
import PaqusNode.Node.Restart
import PaqusNode.Node.Confirm
import PaqusNode.Node.Validated
import PaqusNode.Node.Reorg
import PaqusNode.Node.Pending
import PaqusNode.Node.Orphans
import PaqusNode.Node.OrphanPool
import PaqusNode.Node.Requests
import PaqusNode.Node.Retry
import PaqusNode.Node.Atomic
import PaqusNode.Node.Redelivery
import PaqusNode.Node.Resolved
import PaqusNode.Node.Difficulty
import PaqusNode.Node.Mining
import PaqusNode.Node.Finality
import PaqusNode.Node.Deliver
import PaqusNode.P2p
import PaqusNode.Network.Message
import PaqusNode.Network.Transport
import PaqusNode.Network.Codec
import PaqusNode.Network.Http
import PaqusNode.Network.Exchange
import PaqusNode.Gossip
import PaqusNode.Service.Peers
import PaqusNode.P2p.Poll
import PaqusNode.Node.Solo
import PaqusNode.Node.Leaving
import PaqusNode.Service.Stream
import PaqusNode.Service.Locks
import PaqusNode.Node.Coherence
import PaqusNode.Wallet
import PaqusNode.Rpc
import PaqusNode.Rpc.Canonical
import PaqusNode.P2p.Rounds
import PaqusNode.Service.PeerTable
import PaqusNode.Service.Broadcast
import PaqusNode.Keys
import PaqusNode.Config
import PaqusNode.Config.Accepted
import PaqusNode.Base.Options
import PaqusNode.Rpc.Stats
import PaqusNode.Rpc.Balance
import PaqusNode.Wallet.Commands
import PaqusNode.Wallet.Payment
import PaqusNode.Service.PeersFile
import PaqusNode.Gateway
