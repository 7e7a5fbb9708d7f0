import RaftStore.Raft.Boot

/-!
# The events of one node

Everything that can happen to a node as the code sees it: the ticker, the three RPC handlers, the
replies its own goroutines receive, and the calls of clients. Requests and replies have any
contents and come in any order, so a theorem about all sequences of events speaks of every network
and every set of other nodes.
-/

namespace Cluster

open Raft

variable {σ : Type}

/-- What may happen to a node. -/
inductive Event
  | tick (due : Bool)
  | requestVote (req : RequestVoteRequest)
  | appendEntries (req : AppendEntriesRequest)
  | installSnapshot (req : InstallSnapshotRequest)
  | voteReply (peer : String) (req : RequestVoteRequest) (resp : RequestVoteResponse)
  | appendReply (peer : String) (req : AppendEntriesRequest) (resp : AppendEntriesResponse)
  | installReply (peer : String) (req : InstallSnapshotRequest) (resp : InstallSnapshotResponse)
  | confirmReply (term : Int) (resp : AppendEntriesResponse)
  | replicate (peer : String)
  | replicateDone (peer : String)
  | propose (cmd : Bytes)
  | addServer (target addr http : String)
  | removeServer (target : String)
  | readIndex
  | crash
  | restart
  | clusterRestart (raftAddrs httpAddrs : AddrMap)

/-- The critical section that an event runs at a node that is up. -/
def handle (n : RaftNode σ) : Event → RaftNode σ
  | .tick due => n.tick due
  | .requestVote req => (n.handleRequestVote req).1
  | .appendEntries req => (n.handleAppendEntries req).1
  | .installSnapshot req => (n.handleInstallSnapshot req).1
  | .voteReply peer req resp => n.sendRequestVoteReply peer req resp
  | .appendReply peer req resp => n.replicateToAppended peer req resp
  | .installReply peer req resp => n.replicateToInstalled peer req resp
  | .confirmReply term resp => (n.sendConfirmHeartbeatReply term resp).1
  | .replicate peer =>
    match n.replicateToHead peer with
    | (n, none) => n.replicateAgain peer false
    | (n, some _) => n
  | .replicateDone peer => n.replicateToDone peer
  | .propose cmd => (n.propose cmd).1
  | .addServer target addr http => (n.addServer target addr http).1
  | .removeServer target => (n.removeServer target).1
  | .readIndex => n.waitCurrentTermPoll.1
  | .crash | .restart | .clusterRestart _ _ => n

/-- A round of `replicateTo` up to its call, or to its end if there is nothing to call. -/
theorem handle_replicate_cases (n : RaftNode σ) (peer : String) :
    ∃ m, (m = n ∨ m = n.setNext peer (n.log.lastLogIndexLocked + 1)) ∧
      (handle n (.replicate peer) = m ∨
        handle n (.replicate peer) = m.replicateAgain peer false) := by
  refine ⟨(n.replicateToHead peer).1, n.replicateToHead_fst peer, ?_⟩
  simp only [handle]
  rcases n.replicateToHead peer with ⟨m, _ | call⟩
  · exact Or.inr rfl
  · exact Or.inl rfl

end Cluster
