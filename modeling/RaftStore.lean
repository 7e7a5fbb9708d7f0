import RaftStore.Lib.OrdMap
import RaftStore.Lib.Path
import RaftStore.Consensus.Majority
import RaftStore.Consensus.Chronicle
import RaftStore.Consensus.Protocol
import RaftStore.Consensus.Steps
import RaftStore.Consensus.Configuration
import RaftStore.Consensus.Safety
import RaftStore.Consensus.Agreement
import RaftStore.Consensus.Reading
import RaftStore.Raft.Types
import RaftStore.Raft.Log
import RaftStore.Raft.Node
import RaftStore.Raft.Commit
import RaftStore.Raft.Replication
import RaftStore.Raft.Election
import RaftStore.Raft.Read
import RaftStore.Raft.Boot
import RaftStore.Kv.Store
import RaftStore.Cluster.World
import RaftStore.Cluster.Steps
import RaftStore.Cluster.Requests
import RaftStore.Cluster.Reads
import RaftStore.Cluster.Runs
import RaftStore.Refine.History
import RaftStore.Refine.Scheme
import RaftStore.Refine.Relation
import RaftStore.Refine.Local
import RaftStore.Refine.Applying
import RaftStore.Refine.Leading
import RaftStore.Refine.Winning
import RaftStore.Refine.Sending
import RaftStore.Refine.Receiving
import RaftStore.Refine.Restart
import RaftStore.Refine.Acting
import RaftStore.Refine.Simulation
import RaftStore.Refine.Runs
import RaftStore.Refine.Reading
import RaftStore.Results.Fixed
import RaftStore.Results.Writes
import RaftStore.Results.Reads
import RaftStore.Results.Replication
import RaftStore.Results.Membership
import RaftStore.Cluster.Joiner
import RaftStore.Results.Joining
import RaftStore.Results.Forwarding
import RaftStore.Node.Sections
import RaftStore.Node.Life
import RaftStore.Node.Recovery
import RaftStore.Results.Recovery
import RaftStore.Node.Acknowledge
import RaftStore.Results.Dialing
import RaftStore.Node.Replay
import RaftStore.Results.Store
import RaftStore.Node.Past
import RaftStore.Results.Configuration
import RaftStore.Node.Stop
import RaftStore.Results.Stopping
import RaftStore.Node.Matching
import RaftStore.Results.Tolerance
import RaftStore.Raft.Compaction
import RaftStore.Node.Shadow
import RaftStore.Results.Compaction
import RaftStore.Node.Level
import RaftStore.Results.Applying
import RaftStore.Node.Position
import RaftStore.Node.Round
import RaftStore.Cluster.Rounds
import RaftStore.Results.CatchUp
import RaftStore.Lib.Utf8
import RaftStore.Results.Routing
import RaftStore.Results.Encoding
import RaftStore.Raft.Wire
import RaftStore.Results.Wire
import RaftStore.Results.Following
import RaftStore.Results.Reconfiguring
import RaftStore.Results.Newcomers
import RaftStore.Results.Restoring
import RaftStore.Cluster.Controller
import RaftStore.Results.Adding
import RaftStore.Lib.Slice
import RaftStore.Raft.Slices
import RaftStore.Node.Phases
import RaftStore.Results.Representation
import RaftStore.Lib.Rank
import RaftStore.Results.Committing
import RaftStore.Results.Durability
import RaftStore.Lib.Linearization
import RaftStore.Results.Linearizability
import RaftStore.Results.Agreement
import RaftStore.Node.Content
import RaftStore.Cluster.Content
import RaftStore.Results.Integrity
import RaftStore.Lib.Disk
import RaftStore.Raft.Persist
import RaftStore.Results.Persisting
import RaftStore.Node.Capped
import RaftStore.Cluster.Hearing
import RaftStore.Cluster.Faults
import RaftStore.Results.Isolation
import RaftStore.Node.Terms
import RaftStore.Node.Timers
import RaftStore.Cluster.Clock
import RaftStore.Results.Timeouts
import RaftStore.Results.Stability
import RaftStore.Cluster.Loops
import RaftStore.Node.Campaign
import RaftStore.Node.OneRound
import RaftStore.Results.Electing
import RaftStore.Results.Progress
import RaftStore.Results.Connections
import RaftStore.Results.Flags
import RaftStore.Results.Chaos
