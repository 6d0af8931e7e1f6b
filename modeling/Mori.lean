import Mori.Net
import Mori.Protocol
import Mori.State
import Mori.Table
import Mori.DeadNodes
import Mori.Moves
import Mori.LocalNode
import Mori.Refusals
import Mori.PeerRecord
import Mori.Suspicions
import Mori.Confirmations
import Mori.Timeouts
import Mori.Health
import Mori.Replica
import Mori.EventLog
import Mori.Cluster
import Mori.Decisions
import Mori.Instance
import Mori.Authority
import Mori.LeaveFinal
import Mori.Readers
import Mori.Msgpack
import Mori.Wire
import Mori.Codecs
import Mori.Modes
import Mori.Formats
import Mori.Integers
import Mori.Fields
import Mori.Entries
import Mori.Meters
import Mori.Sources
import Mori.Security
import Mori.Stream
import Mori.Decompression
import Mori.PushPull
import Mori.Metering
import Mori.Traffic
import Mori.Treaps
import Mori.Queue
import Mori.QueueLinks
import Mori.PlainQueue
import Mori.QueueRefinement
import Mori.Packing
import Mori.FirstFit
import Mori.Compound
import Mori.Packet
import Mori.Dispatch
import Mori.Envelopes
import Mori.Probing
import Mori.Merging
import Mori.Compatibility
import Mori.Idempotence
import Mori.Reordering
import Mori.Machines
import Mori.LockQueue
import Mori.Delivery
import Mori.Gossip
import Mori.MetaSize
import Mori.Updates
import Mori.Metadata
import Mori.Leaving
import Mori.Shutdown
import Mori.Teardown
import Mori.Keyrings
import Mori.Encryption
import Mori.Slices
import Mori.Rings
import Mori.Snapshots
import Mori.Selection
import Mori.Connections
import Mori.Buffered
import Mori.LabelStreams
import Mori.Labels
import Mori.Handoffs
import Mori.Acks
import Mori.Relays
import Mori.Reaping
import Mori.Refutations
import Mori.Admission
import Mori.Listeners
import Mori.Starvation
