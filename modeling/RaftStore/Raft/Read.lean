import RaftStore.Raft.Election

/-!
# Waiting and reading

The critical sections of `WaitApplied` and of `ReadIndex` with its helpers. Each of them
takes the mutex anew, so what one section saw need not hold in the next; the cluster model
puts them in sequence. A wait that sleeps between two looks at the node is the section
that looks: it says to go on, to return, or to look again.
-/

namespace Raft

variable {σ : Type}

/-- What a section of a waiting call decides: return without error, return an error, or
look again later. -/
inductive Poll
  | done
  | failed (e : Err)
  | again
  deriving DecidableEq

namespace RaftNode

/-- One look of `WaitApplied`. -/
def waitAppliedPoll (n : RaftNode σ) (index : Int) : Poll :=
  if n.lastApplied ≥ index then .done
  else if n.state ≠ .leader ∧ ¬ n.commitIndex ≥ index then .failed .notLeader
  else .again

theorem le_lastApplied_of_poll {n : RaftNode σ} {index : Int}
    (h : n.waitAppliedPoll index = .done) :
    index ≤ n.lastApplied := by
  unfold waitAppliedPoll at h
  split at h
  · next happ => exact happ
  · split at h
    · cases h
    · cases h

def committedCurrentTermLocked (n : RaftNode σ) : Bool :=
  n.log.termAtLocked n.commitIndex = some n.currentTerm

/-- One look of `waitCurrentTermCommitted`, which nudges replication while it waits. -/
def waitCurrentTermPoll (n : RaftNode σ) : RaftNode σ × Poll :=
  if n.state ≠ .leader then (n, .failed .notLeader)
  else if n.committedCurrentTermLocked then (n, .done)
  else (n.broadcastAppendEntriesLocked, .again)

/-- The section of `ReadIndex` that captures the commit index and the term. -/
def captureReadIndex (n : RaftNode σ) : Except Err (Int × Int) :=
  if n.state ≠ .leader then .error .notLeader else .ok (n.commitIndex, n.currentTerm)

/-- The section of `confirmLeadership` that collects the peers to ask. -/
def confirmPeers (n : RaftNode σ) (term : Int) : Except Err (Nat × List String) :=
  if n.state ≠ .leader ∨ n.currentTerm ≠ term then .error .notLeader
  else .ok (n.majority, n.peerIDs.filter (· ≠ n.id))

def confirmHeartbeatLocked (n : RaftNode σ) : AppendEntriesRequest where
  term := n.currentTerm
  leaderID := n.id
  prevLogIndex := n.log.lastLogIndexLocked
  prevLogTerm := n.log.lastLogTermLocked
  entries := []
  leaderCommit := n.commitIndex

/-- `sendConfirmHeartbeat` up to its RPC; `none` reports `false`. -/
def sendConfirmHeartbeatHead (n : RaftNode σ) (term : Int) : Option AppendEntriesRequest :=
  if n.state ≠ .leader ∨ n.currentTerm ≠ term ∨ n.transport.isNone then none
  else some n.confirmHeartbeatLocked

/-- `sendConfirmHeartbeat` after its RPC. -/
def sendConfirmHeartbeatReply (n : RaftNode σ) (term : Int) (resp : AppendEntriesResponse) :
    RaftNode σ × Bool :=
  if resp.term > n.currentTerm then (n.becomeFollowerLocked resp.term "", false)
  else (n, decide (n.state = .leader) && decide (n.currentTerm = term))

end RaftNode

end Raft
