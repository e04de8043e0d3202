import NfdPitless.ForwarderLoop
import NfdPitless.ForwarderPending
import NfdPitless.BridgeTimers
import NfdPitless.BridgeFlow
import NfdPitless.BridgeLoop
import NfdPitless.PitlessCache
import NfdPitless.NameTreeIntegrity
import NfdPitless.LinkedTreeStructure
import NfdPitless.TablesGarbage
import NfdPitless.TablesMatch
import NfdPitless.FibAccounting
import NfdPitless.PitEnumeration
import NfdPitless.FibManagerGrowth
import NfdPitless.RibCallbacks
import NfdPitless.RibTree
import NfdPitless.LruPolicy
import NfdPitless.PriorityFifoPolicy
import NfdPitless.CsLeftmost
import NfdPitless.CaptureCount
import NfdPitless.InheritedRoutes
import NfdPitless.StrategyChange
import NfdPitless.RibFaces
import NfdPitless.NdnlpTransport
import NfdPitless.StreamFace
import NfdPitless.RibAtomicity
import NfdPitless.RibExpiration
import NfdPitless.RegisteredFaces
import NfdPitless.RemoteRegistrator
import NfdPitless.StrategyTimers
import NfdPitless.DeadNonceRetention
import NfdPitless.OutgoingInterest
import NfdPitless.DataFanout
import NfdPitless.CommandValidator
import NfdPitless.MeasurementsLifetime
import NfdPitless.StrategyDispatch
import NfdPitless.PropagateTimers
import NfdPitless.HousedMeasurements
import NfdPitless.CsRightmost
import NfdPitless.UpdatedRoutes
import NfdPitless.StrategyResolution
import NfdPitless.SuppressionIntervals
import NfdPitless.PriorityFifoOrder
import NfdPitless.NameTreePreOrder
import NfdPitless.FibUpdateOrder
import NfdPitless.NameTreeIterators
import NfdPitless.BestFaceTimeouts
import NfdPitless.InternalFace
import NfdPitless.NdnlpFormat
import NfdPitless.RegistrationSigning
import NfdPitless.Network
import NfdPitless.SegmentPublisher
import NfdPitless.TablesConfigSection
import NfdPitless.SearchTree
import NfdPitless.CsOrdering
import NfdPitless.NetworkFetching
import NfdPitless.PitlessHops
import NfdPitless.UdpFaces
import NfdPitless.UdpLifetime
import NfdPitless.UdpEndpoints
import NfdPitless.TablesRefinement
import NfdPitless.EthernetFace
import NfdPitless.EthernetSegment
