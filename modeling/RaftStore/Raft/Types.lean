import RaftStore.Lib.OrdMap

/-!
# Entries, messages and errors

The data that `raft/node.go`, `raft/rpc.go`, `raft/snapshot.go` and `raft/membership.go`
declare: roles, log entries with an optional membership change, the three RPCs with their
replies, and the errors with their texts. Go's `int` is `Int`, a byte slice is a list of
bytes (`nil` and an empty slice are not told apart, the code never does), and a
`map[string]string` is an `OrdMap`, so that equal maps are equal values.
-/

namespace Raft

/-- `map[string]string`: node ids to addresses. -/
abbrev AddrMap := OrdMap String String

/-- `[]byte`. -/
abbrev Bytes := List UInt8

/-- The role a node currently holds. -/
inductive State
  | follower
  | candidate
  | leader
  deriving DecidableEq, Repr

/-- The errors of `node.go` and `membership.go`, the unnamed ones included. -/
inductive Err
  | notLeader
  | timeout
  | staleLeader
  | stopped
  | unreachable
  | alreadyMember
  | notMember
  | configInProgress
  | lastMember
  | removeLeader
  | addServerArgs
  | removeServerArgs
  | unknownChange
  deriving DecidableEq, Repr

/-- The texts of the errors. -/
def Err.message : Err → String
  | .notLeader => "not leader"
  | .timeout => "timeout"
  | .staleLeader => "stale leader"
  | .stopped => "node stopped"
  | .unreachable => "peer unreachable"
  | .alreadyMember => "already a member"
  | .notMember => "not a member"
  | .configInProgress => "uncommitted membership change"
  | .lastMember => "cannot remove the last member"
  | .removeLeader => "cannot remove the leader; pick a follower"
  | .addServerArgs => "id and raft address required"
  | .removeServerArgs => "id required"
  | .unknownChange => "unknown membership change"

/-- A single-server configuration change stored in the log. `type` is a free string on the
wire, so it is one here. -/
structure MembershipChange where
  type : String
  id : String
  addr : String := ""
  http : String := ""
  peers : AddrMap := .empty
  httpAddrs : AddrMap := .empty
  deriving DecidableEq

def changeAdd : String := "add"

def changeRemove : String := "remove"

/-- A single entry in the Raft log. -/
structure LogEntry where
  term : Int
  index : Int
  command : Bytes := []
  change : Option MembershipChange := none
  deriving DecidableEq

/-- What the state machine is handed once an entry is committed. -/
structure ApplyMsg where
  index : Int
  command : Bytes
  deriving DecidableEq

/-! ## The RPCs -/

/-- `RequestVoteRequest`. -/
structure RequestVoteRequest where
  term : Int
  candidateID : String
  lastLogIndex : Int
  lastLogTerm : Int
  deriving DecidableEq

structure RequestVoteResponse where
  term : Int
  voteGranted : Bool
  deriving DecidableEq

/-- `AppendEntriesRequest`. Without entries it is a heartbeat. -/
structure AppendEntriesRequest where
  term : Int
  leaderID : String
  prevLogIndex : Int
  prevLogTerm : Int
  entries : List LogEntry
  leaderCommit : Int
  deriving DecidableEq

structure AppendEntriesResponse where
  term : Int
  success : Bool
  deriving DecidableEq

/-- `InstallSnapshotRequest`: besides the image, the configuration at its last index. -/
structure InstallSnapshotRequest where
  term : Int
  leaderID : String
  lastIncludedIndex : Int
  lastIncludedTerm : Int
  data : Bytes
  peers : AddrMap
  http : AddrMap
  deriving DecidableEq

structure InstallSnapshotResponse where
  term : Int
  deriving DecidableEq

/-! ## The state machine behind a node -/

/-- The snapshot hook of a state machine with states `σ`. `none` is a returned error; a
failed `restore` leaves the state as it was. -/
structure Snapshotter (σ : Type) where
  snapshot : σ → Option Bytes
  restore : σ → Bytes → Option σ

/-- The callback for committed entries. -/
abbrev ApplyFunc (σ : Type) := σ → ApplyMsg → σ

end Raft
