import Swytch.Proto.Replication
import Swytch.Keytrie.TipSet
import Swytch.Lib.FinmapFold
import Swytch.Lib.Reach
import Swytch.Lib.PostOrder
import Swytch.Lib.Sort
import Swytch.Lib.Dominator
import Swytch.Lib.Worklist
import Swytch.Lib.ChainClock
import Swytch.Lib.ChainSearch
import Swytch.Lib.ChainScan
import Swytch.Lib.Run
import Swytch.Effects.Reduce
import Swytch.Effects.Reduce.Stamp
import Swytch.Effects.Reduce.Flat
import Swytch.Effects.Reduce.Partitions
import Swytch.Effects.Reduce.Compose
import Swytch.Effects.Dag
import Swytch.Effects.Dag.Frontier
import Swytch.Effects.Dag.Bfs
import Swytch.Effects.Dag.Order
import Swytch.Effects.Dag.Replay
import Swytch.Effects.Dag.Snapshot
import Swytch.Effects.Predicate
import Swytch.Effects.History
import Swytch.Effects.CausalIndex
import Swytch.Effects.Losers
import Swytch.Effects.Closure
import Swytch.Effects.Closure.Fixpoint
import Swytch.Effects.Closure.Atomic
import Swytch.Effects.Nack
import Swytch.Effects.Reconstruct
import Swytch.Effects.Context
import Swytch.Effects.Prune
import Swytch.Effects.Engine
import Swytch.Effects.FlushTx
import Swytch.Effects.Cluster
import Swytch.Effects.Cluster.Substitute
import Swytch.Effects.Cluster.Node
import Swytch.Effects.Cluster.Arrival
import Swytch.Effects.Cluster.Local
import Swytch.Effects.Cluster.Step
import Swytch.Effects.Cluster.Coverage
import Swytch.Effects.VertexPool
import Swytch.Cluster.Replicator
import Swytch.Cluster.Replicator.FirstAck
import Swytch.Effects.VertexPool.Refcount
import Swytch.Effects.Horizon
import Swytch.Effects.Horizon.Linked
import Swytch.Effects.Ledger
import Swytch.Effects.Ledger.Residue
import Swytch.Effects.Ledger.Redelivery
import Swytch.Keytrie.Critbit
import Swytch.Keytrie.Critbit.Bits
import Swytch.Keytrie.Critbit.Refine
import Swytch.Keytrie.Critbit.Preserve
import Swytch.Keytrie.Critbit.OrderedMap
import Swytch.Lib.CritTree
import Swytch.Effects.SnapshotBatch
import Swytch.Effects.SnapshotBatch.Atomic
import Swytch.Effects.Framing
import Swytch.Effects.Wire
import Swytch.Keytrie.Critbit.Pins
import Swytch.Cluster.CloudOutbox
import Swytch.Lib.LittleEndian
import Swytch.Lib.ByteText
import Swytch.Lib.Distance
import Swytch.Lib.Elimination
import Swytch.Stn.Cardinality
import Swytch.Stn.Network
import Swytch.Stn.Bounds
import Swytch.Stn.Query
import Swytch.Stn.Tag
import Swytch.Stn.Topology
import Swytch.Stn.Exact
import Swytch.Stn.Session
import Swytch.Stn.Clocks
import Swytch.Stn.Elapsed
import Swytch.Stn.Evidence
import Swytch.Lib.ByteImage
import Swytch.Durability.Format
import Swytch.Durability.Store
import Swytch.Durability.Scan
import Swytch.Durability.Layout
import Swytch.Durability.Preserve
import Swytch.Durability.Maintain
import Swytch.Durability.Mirror
import Swytch.Durability.Recover
import Swytch.Durability.History
import Swytch.Durability.Exact
import Swytch.Durability.Crash
import Swytch.Effects.Cuckoo
import Swytch.Lib.Cuckoo
import Swytch.Effects.Cuckoo.Filter
import Swytch.Effects.Cuckoo.Chain
import Swytch.Effects.Cuckoo.Wire
import Swytch.Effects.Cuckoo.Complete
import Swytch.Effects.KeyFilter
import Swytch.Effects.KeyFilter.Peers
import Swytch.Effects.Cuckoo.Growth
import Swytch.Effects.KeyFilter.Authority
import Swytch.Effects.Reduce.Rules
import Swytch.Effects.Dag.Walk
import Swytch.Effects.Dag.Retained
import Swytch.Lib.Linear
import Swytch.Effects.Dag.Chains
import Swytch.Effects.Dag.Cutoff
import Swytch.Effects.Cuckoo.Insert
import Swytch.Effects.Cuckoo.Hostile
import Swytch.Lib.Bitmap
import Swytch.Effects.Bloom
import Swytch.Cluster.CloudGate
import Swytch.Effects.CloudTips
import Swytch.Effects.Prefetch
import Swytch.Effects.Context.Resolve
import Swytch.Effects.Historical
import Swytch.Effects.ValueCompress
import Swytch.Effects.CloudTips.Classify
import Swytch.Effects.Context.Transaction
import Swytch.Keytrie.Glob
import Swytch.Effects.Durability
import Swytch.Keytrie.Arena
import Swytch.Keytrie.Navigation
import Swytch.Beacon.ParseSize
import Swytch.Cluster.NackPacket
import Swytch.Cluster.CloudReconcile
import Swytch.Keytrie.Sweep
import Swytch.Lib.BreadthFirst
import Swytch.Effects.Dag.Routes
