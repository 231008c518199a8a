import ConfluenceEditor.Engine.Placement
import ConfluenceEditor.Engine.Engine
import ConfluenceEditor.Protocol.RoundTrip
import ConfluenceEditor.Engine.Transparent
import ConfluenceEditor.Engine.Redelivery
import ConfluenceEditor.Replication.Tombstones
import ConfluenceEditor.Replication.CatchUp
import ConfluenceEditor.Replication.Seeding
import ConfluenceEditor.Replication.UndoOwnership
import ConfluenceEditor.Replication.Admission
import ConfluenceEditor.Protocol.Channels
import ConfluenceEditor.Protocol.Malformed
import ConfluenceEditor.Client.Offline
import ConfluenceEditor.Client.Recording
import ConfluenceEditor.Client.Connection
import ConfluenceEditor.Server.Connections
import ConfluenceEditor.Collaboration.SafeDrops
import ConfluenceEditor.Collaboration.Numbers
import ConfluenceEditor.Collaboration.ClosedBase
import ConfluenceEditor.Collaboration.FirstFrames
import ConfluenceEditor.Collaboration.PresenceLiveness
import ConfluenceEditor.Server.Durability
import ConfluenceEditor.Server.SessionOrder
import ConfluenceEditor.Server.Revocation
import ConfluenceEditor.Server.RefreshTokens
import ConfluenceEditor.Server.ReplicaIds
import ConfluenceEditor.Server.LiveReplay
import ConfluenceEditor.Server.CausalLog
import ConfluenceEditor.Server.ExactlyOnce
import ConfluenceEditor.Server.LogRebuild
import ConfluenceEditor.Server.Snapshots
import ConfluenceEditor.Server.Idempotency
import ConfluenceEditor.Server.Ownership
import ConfluenceEditor.Server.SendOrder
import ConfluenceEditor.Replication.VisibleEdits
import ConfluenceEditor.Replication.Collection
import ConfluenceEditor.Engine.Caret
import ConfluenceEditor.Collaboration.Rejections
import ConfluenceEditor.Replication.RoundTrips
import ConfluenceEditor.Server.WarmStart
import ConfluenceEditor.Replication.Clusters
import ConfluenceEditor.Server.Bisection
import ConfluenceEditor.Client.WireHelpers
import ConfluenceEditor.Protocol.DebugProject
import ConfluenceEditor.Client.PresenceCoalescer
import ConfluenceEditor.Protocol.Accepted
import ConfluenceEditor.Replication.Behind
import ConfluenceEditor.Client.SentEdits
import ConfluenceEditor.Server.SweepExact
import ConfluenceEditor.Server.WatchedRoom
import ConfluenceEditor.Binding.UnicodeOffsets
import ConfluenceEditor.Binding.RenderIndex
import ConfluenceEditor.Binding.DomWriter
import ConfluenceEditor.Binding.Laid
import ConfluenceEditor.Binding.Splice
import ConfluenceEditor.Binding.PositionMapping
import ConfluenceEditor.Binding.Mounted
import ConfluenceEditor.Client.TypedText
import ConfluenceEditor.Client.Composition
import ConfluenceEditor.Client.CompositionRuns
import ConfluenceEditor.Client.TextField
import ConfluenceEditor.Client.QueueRuns
import ConfluenceEditor.Server.RateLimiter
import ConfluenceEditor.Server.TicketStore
import ConfluenceEditor.Engine.TreeCounts
import ConfluenceEditor.Protocol.Varint
import ConfluenceEditor.Server.DocumentListing
import ConfluenceEditor.Collaboration.LocalEdits
import ConfluenceEditor.Collaboration.LiveEngine
import ConfluenceEditor.Engine.Attributions
import ConfluenceEditor.Server.StabilityFrontier
