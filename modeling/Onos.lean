import Onos.FlowStoreQueue
import Onos.FlowStoreCluster
import Onos.FlowStoreReplication
import Onos.FlowStoreBatches
import Onos.Lib.LastWriter
import Onos.ECMapConvergence
import Onos.ECMapExchange
import Onos.ECMapListener
import Onos.ECMapPurge
import Onos.ResourceStore
import Onos.ResourceCalls
import Onos.ResourceTree
import Onos.DeviceStoreReplica
import Onos.DeviceStorePresence
import Onos.DeviceStoreAvailability
import Onos.DeviceStorePorts
import Onos.Heap
import Onos.Lib.DirectedWalk
import Onos.Lib.ShortestPaths
import Onos.DijkstraGraphSearch
import Onos.Lib.DeviationSearch
import Onos.SpurPaths
import Onos.LazyKShortestPathsSearch
import Onos.KShortestPathsSearch
import Onos.DijkstraWithFailures
import Onos.SuurballeGraphSearch
import Onos.DagRoutes
import Onos.Lib.FallibleRun
import Onos.DagScheduler
import Onos.DagLedger
import Onos.FlowOperationsStages
import Onos.FlowOperationsOutcome
import Onos.FlowRulePush
import Onos.FlowRuleRepair
import Onos.FlowRuleReallocation
import Onos.FlowRuleTables
import Onos.FlowRuleKept
import Onos.Lib.TablePatch
import Onos.FlowRuleUpdate
import Onos.InstallCoordinator
import Onos.InstallConclusion
import Onos.IntentBatch
import Onos.IntentStore
import Onos.IntentRecords
import Onos.IntentPending
import Onos.Lib.ByteBuffer
import Onos.Lib.OnesComplement
import Onos.Packets
import Onos.IpPackets
import Onos.PacketChecksum
import Onos.PacketRoundTrip
import Onos.EthernetFrame
import Onos.LinkLayerDiscovery
import Onos.Lib.BufferReaders
import Onos.LinkLayerRoundTrip
import Onos.Lib.Texts
import Onos.LinkProbes
import Onos.LinkProbeReadBack
import Onos.Lib.Odometer
import Onos.LinkStateDatabase
import Onos.LsaAging
import Onos.LsaBins
import Onos.LsaIdentity
import Onos.LsRequests
import Onos.Lib.Packing
import Onos.LsUpdates
import Onos.DrElection
import Onos.GroupMessages
import Onos.NeighborMachine
import Onos.GroupRoundTrip
import Onos.KeyAgreement
import Onos.KeyAgreementRoundTrip
import Onos.JoinPruneMessages
import Onos.JoinPruneRoundTrip
import Onos.NewestLsas
import Onos.DhcpPool
import Onos.BgpRoutes
import Onos.BgpUpdates
import Onos.BgpRibIn
import Onos.BgpRouteSelector
import Onos.BgpMergedTable
import Onos.BgpRouteStores
import Onos.GroupStore
import Onos.GroupStoreSteps
import Onos.GroupStoreDeletion
import Onos.GroupStoreIndexes
import Onos.GroupStoreCluster
import Onos.GroupStoreRequests
import Onos.DdExchange
import Onos.Lib.KeyedQueue
import Onos.RouteManager
import Onos.RouteResolution
import Onos.BellmanFordGraphSearch
import Onos.NegativeCycles
import Onos.PathLimit
import Onos.Lib.Fletcher
import Onos.LsaChecksum
import Onos.Lib.Radix
import Onos.OspfPacketChecksum
import Onos.DagDelays
import Onos.DagReservedRoutes
import Onos.DagRouteFile
import Onos.FloodingPasses
import Onos.ReliableFlooding
import Onos.AdjacencyLists
import Onos.ContinuousCapacities
import Onos.ResourceAvailability
import Onos.ResourceReleases
import Onos.DisjointPaths
import Onos.Lib.RangeSets
import Onos.EncodedResources
import Onos.Lib.RandomDraws
import Onos.RiskDisjointPaths
import Onos.BreadthFirstSearch
import Onos.Lib.GrownTree
import Onos.DepthFirstSearch
import Onos.Lib.StrongComponents
import Onos.TarjanGraphSearch
import Onos.Lib.CausalHistory
import Onos.FlowStoreClock
import Onos.LabelAllocator
import Onos.WorkPartition
import Onos.NeighborOptions
import Onos.PortNumbers
import Onos.RadiusPackets
import Onos.RouteTables
import Onos.ByteSequences
import Onos.BgpAnswers
import Onos.AbstractAccumulator
