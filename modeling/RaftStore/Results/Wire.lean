import RaftStore.Raft.Wire
import RaftStore.Raft.Replication
import RaftStore.Node.Recovery

/-!
# RPCs over gRPC

A request that is encoded, sent and decoded is the request, and so the node that handles it ends in
the same state with the same reply as if it had been called directly (`wire_round_trip`). The
transport can be left out of the model of the cluster for this reason.

An entry whose change has neither a type nor peers would arrive as an entry without a change. A node
never sends one as long as the changes of its log carry their configuration, which is the last part
of the theorem.
-/

namespace Raft

namespace RaftNode

variable {σ : Type} {n : RaftNode σ}

/-! ## Calls -/

/-- `GRPCTransport.SendRequestVote` to a node behind `raftGRPCServer`. -/
def sendRequestVote (n : RaftNode σ) (req : RequestVoteRequest) :
    RaftNode σ × RequestVoteResponse :=
  let r := n.handleRequestVote (voteReqFromProto (voteReqToProto req))
  (r.1, voteRespFromProto (voteRespToProto r.2))

/-- `GRPCTransport.SendAppendEntries` to a node behind `raftGRPCServer`. -/
def sendAppendEntries (n : RaftNode σ) (req : AppendEntriesRequest) :
    RaftNode σ × AppendEntriesResponse :=
  let r := n.handleAppendEntries (appendReqFromProto (appendReqToProto req))
  (r.1, appendRespFromProto (appendRespToProto r.2))

/-- `GRPCTransport.SendInstallSnapshot` to a node behind `raftGRPCServer`. -/
def sendInstallSnapshot (n : RaftNode σ) (req : InstallSnapshotRequest) :
    RaftNode σ × InstallSnapshotResponse :=
  let r := n.handleInstallSnapshot (installReqFromProto (installReqToProto req))
  (r.1, installRespFromProto (installRespToProto r.2))

/-! ## What a leader sends -/

/-- The entries of a request are entries of the log. -/
theorem mem_tail_of_request {peer : String} {req : AppendEntriesRequest} {e : LogEntry}
    (hreq : (n.makeAppendRequestLocked peer).2 = some req) (he : e ∈ req.entries) :
    e ∈ n.log.tail := by
  have hclamp : ∀ next : Int, (if next > n.log.lastLogIndexLocked + 1 then
      n.setNext peer (n.log.lastLogIndexLocked + 1) else n).log = n.log := by
    intro next
    split <;> rfl
  unfold makeAppendRequestLocked at hreq
  split at hreq
  · cases hreq
  dsimp only at hreq
  rw [hclamp] at hreq
  split at hreq
  · cases hreq
  · cases hreq
    -- both bounds of the start index leave out the first entry
    generalize hstart : (if n.log.sliceIndexLocked _ < 1 then (1 : Int) else _) = start at he
    have hpos : 1 ≤ start := by
      rw [← hstart]
      split <;> omega
    have hone : ∃ k, (if start > n.log.toList.length then (n.log.toList.length : Int)
        else start).toNat = k + 1 := by
      have hlen : 1 ≤ n.log.toList.length := by simp [Log.toList]
      split
      · exact ⟨n.log.toList.length - 1, by omega⟩
      · exact ⟨start.toNat - 1, by omega⟩
    obtain ⟨k, hk⟩ := hone
    unfold Log.slice at he
    rw [hk] at he
    exact List.mem_of_mem_drop he

end RaftNode

/-! ## Round trips -/

open RaftNode in
/-- **Wire round trip.** Every message is decoded to what was encoded, every handler ends in the
same state as on the original request, and an entry is a change after decoding exactly if it was
before. What a node sends meets the condition on changes, if the changes of its log carry their
configuration. -/
theorem wire_round_trip {σ : Type} (n : RaftNode σ) :
    (∀ req : AppendEntriesRequest, req.Ints → (∀ e ∈ req.entries, e.Marked) →
      appendReqFromProto (appendReqToProto req) = req ∧
        (n.sendAppendEntries req).1 = (n.handleAppendEntries req).1 ∧
        (appendReqFromProto (appendReqToProto req)).entries.map (·.change.isSome) =
          req.entries.map (·.change.isSome)) ∧
    (∀ req : RequestVoteRequest, req.Ints → voteReqFromProto (voteReqToProto req) = req ∧
      (n.sendRequestVote req).1 = (n.handleRequestVote req).1) ∧
    (∀ req : InstallSnapshotRequest, req.Ints → installReqFromProto (installReqToProto req) = req ∧
      (n.sendInstallSnapshot req).1 = (n.handleInstallSnapshot req).1) ∧
    (∀ resp : AppendEntriesResponse, IsInt resp.term →
      appendRespFromProto (appendRespToProto resp) = resp) ∧
    (∀ resp : RequestVoteResponse, IsInt resp.term →
      voteRespFromProto (voteRespToProto resp) = resp) ∧
    (∀ resp : InstallSnapshotResponse, IsInt resp.term →
      installRespFromProto (installRespToProto resp) = resp) ∧
    ((∀ e ∈ n.log.tail, Node.Carries e) → ∀ (peer : String) (req : AppendEntriesRequest),
      (n.makeAppendRequestLocked peer).2 = some req → ∀ e ∈ req.entries, e.Marked) := by
  refine ⟨fun req hints hmark => ?_, fun req hints => ?_, fun req hints => ?_,
    fun _ h => appendResp_roundTrip h, fun _ h => voteResp_roundTrip h,
    fun _ h => installResp_roundTrip h,
    fun hlog _ _ hreq e he ch hch => Or.inr (hlog e (mem_tail_of_request hreq he) ch hch)⟩
  · have hsame := appendReq_roundTrip hints hmark
    unfold sendAppendEntries
    rw [hsame]
    exact ⟨rfl, rfl, rfl⟩
  · have hsame := voteReq_roundTrip hints
    unfold sendRequestVote
    rw [hsame]
    exact ⟨rfl, rfl⟩
  · have hsame := installReq_roundTrip hints
    unfold sendInstallSnapshot
    rw [hsame]
    exact ⟨rfl, rfl⟩

/-- A request with a command, a no-op and a change. -/
def mixedRequest : AppendEntriesRequest where
  term := 3
  leaderID := "n1"
  prevLogIndex := 4
  prevLogTerm := 2
  entries :=
    [{ term := 2, index := 5, command := [0x6b] }, { term := 3, index := 6 },
      { term := 3, index := 7, change := some { type := changeAdd, id := "n4", addr := "a4" } }]
  leaderCommit := 4

theorem wire_round_trip_sample : mixedRequest.Ints ∧ (∀ e ∈ mixedRequest.entries, e.Marked) ∧
    appendReqFromProto (appendReqToProto mixedRequest) = mixedRequest := by
  have hints : mixedRequest.Ints := by
    simp [mixedRequest, AppendEntriesRequest.Ints, LogEntry.Ints, IsInt]
  have hmarked : ∀ e ∈ mixedRequest.entries, e.Marked := by
    simp [mixedRequest, LogEntry.Marked, changeAdd]
  have hround := (wire_round_trip (RaftNode.fresh
    { id := "n1", peerAddrs := .empty, snapshotThreshold := 0 } none none ())).1 mixedRequest
  exact ⟨hints, hmarked, (hround hints hmarked).1⟩

end Raft
