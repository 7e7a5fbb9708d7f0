import RaftStore.Node.Event

/-!
# A node that hears nothing

What a node can commit by itself. `Capped L n` says that nothing above index `L` is known to be
anywhere else, and that nothing above it is committed or applied. In a configuration of at least two
this stays so through every event that brings no news from above `L` (`NoNews`): elections,
proposals, late replies, heartbeats. The node may append as much as it likes, but only its own copy
counts.
-/

namespace Node

open Raft Cluster RaftNode

variable {σ : Type} {n : RaftNode σ} {L : Int}

/-- Nothing above `L` is known of the other nodes, committed or applied. -/
structure Capped (L : Int) (n : RaftNode σ) : Prop where
  nonneg : 0 ≤ L
  known : ∀ p, p ≠ n.id → n.matchIndex p ≤ L
  commit : n.commitIndex ≤ L
  applied : n.lastApplied ≤ L

/-- The node is not a majority by itself. -/
structure Crowded (n : RaftNode σ) : Prop where
  nodup : n.peerIDs.Nodup
  majority : 1 < n.majority

/-- The same members, the same crowd. -/
theorem Crowded.congr {m : RaftNode σ} (h : Crowded n) (heq : m.peerIDs = n.peerIDs) :
    Crowded m := by
  refine ⟨heq ▸ h.nodup, ?_⟩
  have hmaj := h.majority
  unfold RaftNode.majority at hmaj ⊢
  rw [heq]
  exact hmaj

/-- The event brings no entries, and it confirms none above `L`. -/
def NoNews (L : Int) : Event → Prop
  | .appendEntries _ | .installSnapshot _ | .addServer _ _ _ | .removeServer _ => False
  | .appendReply _ req _ => req.prevLogIndex + req.entries.length ≤ L
  | .installReply _ req _ => req.lastIncludedIndex ≤ L
  | _ => True

/-! ## Committing and applying -/

/-- Above `L` the node counts itself at most. -/
theorem replicas_le_one (h : Capped L n) (hnd : n.peerIDs.Nodup) {i : Int} (hi : L < i) :
    n.replicas i ≤ 1 := by
  -- of the others, nobody is counted beyond `L`
  have himp : ∀ p ∈ n.peerIDs, decide (i ≤ n.matchIndex p) = true → (p == n.id) = true := by
    intro p _ hp
    by_contra hne
    have hle := h.known p (by simpa using hne)
    have hge : i ≤ n.matchIndex p := by simpa using hp
    omega
  calc n.replicas i ≤ n.peerIDs.countP (· == n.id) := List.countP_mono_left himp
    _ = n.peerIDs.count n.id := rfl
    _ ≤ 1 := List.nodup_iff_count_le_one.mp hnd n.id

/-- A leader that counts nobody beyond `L` commits nothing beyond it. -/
theorem Capped.advanceCommit (h : Capped L n) (hc : Crowded n) :
    Capped L n.advanceCommitLocked := by
  rcases n.advanceCommit_cases with ⟨hsame, _⟩ | ⟨i, heq, _, _, hcommit, _⟩
  · rw [hsame]
    exact h
  -- one node is not a majority
  · have hle : i ≤ L := by
      by_contra hgt
      have hone := replicas_le_one h hc.nodup (not_le.mp hgt)
      have hmany := hcommit.held
      have hmaj := hc.majority
      omega
    rw [heq]
    exact { h with commit := hle }

/-- What is applied has been committed. -/
theorem lastApplied_applyLoop_le (hcommit : n.commitIndex ≤ L) (happlied : n.lastApplied ≤ L)
    (k : Nat) : (applyLoop k n).lastApplied ≤ L := by
  induction k generalizing n with
  | zero => exact happlied
  | succ k ih =>
    unfold applyLoop
    split
    · next hlt =>
      split
      · exact happlied
      · next e _ =>
        obtain ⟨_, _, heq⟩ := n.applyNext_eq (n.lastApplied + 1) e
        rw [heq]
        exact ih hcommit (by show n.lastApplied + 1 ≤ L; omega)
    · exact happlied

/-- Applying keeps the bounds: it goes as far as the commit index. -/
theorem Capped.applyCommitted (h : Capped L n) : Capped L n.applyCommittedLocked := by
  have happlied := lastApplied_applyLoop_le h.commit h.applied (n.commitIndex - n.lastApplied).toNat
  obtain ⟨la, machine, applies, hloop⟩ := n.applyLoop_eq (n.commitIndex - n.lastApplied).toNat
  unfold applyCommittedLocked
  rw [hloop] at happlied ⊢
  have hm : Capped L { n with lastApplied := la, machine := machine, applies := applies } :=
    { h with applied := happlied }
  rcases RaftNode.maybeCompact_cases
    { n with lastApplied := la, machine := machine, applies := applies }
    with ⟨heq, _⟩ | ⟨e, data, _, heq⟩
  · rw [heq]
    exact hm
  · rw [heq]
    exact { hm with }

theorem Capped.settle (h : Capped L n) (hc : Crowded n) :
    Capped L n.advanceCommitLocked.applyCommittedLocked :=
  (h.advanceCommit hc).applyCommitted

/-! ## Sections -/

theorem Capped.broadcast (h : Capped L n) : Capped L n.broadcastAppendEntriesLocked := by
  obtain ⟨r, g, heq⟩ := n.broadcast_eq
  rw [heq]
  exact { h with }

/-- Who steps down keeps the bounds. -/
theorem Capped.becomeFollower (h : Capped L n) (term : Int) (leaderID : String) :
    Capped L (n.becomeFollowerLocked term leaderID) := by
  unfold becomeFollowerLocked
  dsimp only
  split <;> exact { h with }

/-- The node's own index may be anything. -/
theorem Capped.trackSelf (h : Capped L n) (i : Int) : Capped L (n.trackSelf i) := by
  refine { h with known := fun p hp => ?_ }
  have hne : p ≠ n.id := hp
  show Function.update n.matchIndex n.id i p ≤ L
  rw [Function.update_of_ne hne]
  exact h.known p hne

theorem Capped.setLog (h : Capped L n) (log : Log) : Capped L { n with log := log } := { h with }

theorem Capped.persist (h : Capped L n) : Capped L n.persistLocked := { h with }

/-- What follows every append of a leader. -/
theorem Capped.appended (h : Capped L n) (hc : Crowded n) (i : Int) : Capped L (n.appended i) :=
  ((h.persist.trackSelf i).settle (hc.congr rfl)).broadcast

/-- A new leader starts counting anew. -/
theorem Capped.reset (h : Capped L n) (last : Int) : Capped L (n.resetTracking last) :=
  { h with known := fun _ _ => h.nonneg }

/-- A new leader has counted nobody yet. -/
theorem Capped.becomeLeader (h : Capped L n) (hc : Crowded n) : Capped L n.becomeLeaderLocked := by
  have hlead : Capped L { n with state := .leader, leaderID := n.id } := { h with }
  have hlog := (hlead.reset n.log.lastLogIndexLocked).setLog
    (n.log.append [{ term := n.currentTerm, index := n.log.lastLogIndexLocked + 1 }])
  have hself := (hlog.trackSelf (n.log.lastLogIndexLocked + 1)).persist
  refine (hself.settle (hc.congr ?_)).broadcast
  simp only [persistLocked, RaftNode.trackSelf, resetTracking, setMatch, setNext]

/-- An election keeps the bounds. -/
theorem Capped.startElection (h : Capped L n) (hc : Crowded n) :
    Capped L n.startElectionLocked := by
  -- asking for votes starts goroutines only
  have hspawn : ∀ (peers : List String) (req : RequestVoteRequest) (m : RaftNode σ), Capped L m →
      Capped L (peers.foldl (fun n' peer => n'.spawn (.sendRequestVote peer req)) m) := by
    intro peers req
    induction peers with
    | nil => exact fun m hm => hm
    | cons peer rest ih => exact fun m hm => ih _ { hm with }
  unfold startElectionLocked
  split
  · exact h
  dsimp only
  split
  · exact Capped.becomeLeader { h with } (hc.congr rfl)
  · exact hspawn _ _ _ { h with }

/-- A tick keeps the bounds. -/
theorem Capped.tick (h : Capped L n) (hc : Crowded n) (due : Bool) : Capped L (n.tick due) := by
  obtain ⟨m, heq, hm⟩ := n.tick_cases due
  rw [heq]
  refine Capped.applyCommitted ?_
  rcases hm with rfl | ⟨_, rfl⟩ | ⟨_, _, rfl⟩
  · exact h
  · exact h.broadcast
  · exact h.startElection hc

/-- A request for a vote keeps the bounds. -/
theorem Capped.requestVote (h : Capped L n) (req : RequestVoteRequest) :
    Capped L (n.handleRequestVote req).1 := by
  rcases n.handleRequestVote_cases req with ⟨_, heq⟩ | ⟨m, hm, _, hvoted⟩
  · rw [heq]
    exact h
  have hheard : Capped L m := by
    rcases hm with ⟨_, rfl⟩ | ⟨_, rfl⟩
    · exact h
    · exact h.becomeFollower _ _
  rcases hvoted with ⟨_, _, heq⟩ | heq
  · rw [heq]
    exact { hheard with }
  · rw [heq]
    exact hheard

/-- A vote keeps the bounds. -/
theorem Capped.voteReply (h : Capped L n) (hc : Crowded n) (peer : String)
    (req : RequestVoteRequest) (resp : RequestVoteResponse) :
    Capped L (n.sendRequestVoteReply peer req resp) := by
  rcases n.sendRequestVoteReply_cases peer req resp with
    ⟨_, heq⟩ | heq | ⟨_, ⟨_, heq⟩ | ⟨_, heq⟩⟩
  · rw [heq]
    exact h.becomeFollower _ _
  · rw [heq]
    exact h
  · rw [heq]
    exact Capped.becomeLeader { h with } (hc.congr rfl)
  · rw [heq]
    exact { h with }

/-- A peer confirms an index that is not above `L`. -/
theorem Capped.matched (h : Capped L n) (hc : Crowded n) (peer : String) {i : Int} (hi : i ≤ L) :
    Capped L (n.matched peer i) := by
  have hset : Capped L ((n.setMatch peer i).setNext peer (i + 1)) := by
    refine { h with known := fun p hp => ?_ }
    show Function.update n.matchIndex peer i p ≤ L
    -- the peer that has answered, and the others
    by_cases hpeer : p = peer
    · rw [hpeer, Function.update_self]
      exact hi
    · rw [Function.update_of_ne hpeer]
      exact h.known p hp
  exact { hset.settle (hc.congr rfl) with }

/-- The reply to `AppendEntries` keeps the bounds, if the request did not reach beyond them. -/
theorem Capped.appendReply (h : Capped L n) (hc : Crowded n) (peer : String)
    {req : AppendEntriesRequest} (hreq : req.prevLogIndex + req.entries.length ≤ L)
    (resp : AppendEntriesResponse) : Capped L (n.replicateToAppended peer req resp) := by
  rcases n.replicateToAppended_cases peer req resp with
    ⟨_, heq⟩ | ⟨_, ⟨_, heq⟩ | ⟨_, _, heq⟩ | ⟨m, rfl | ⟨i, _, rfl⟩, heq⟩⟩
  · rw [heq]
    exact { h with }
  · rw [heq]
    exact { h.becomeFollower resp.term "" with }
  -- it counts what was sent
  · rw [heq]
    exact h.matched hc peer hreq
  · rw [heq]
    exact { h with }
  · rw [heq]
    exact { h with }

/-- The reply to `InstallSnapshot` keeps the bounds, if the snapshot did not reach beyond them. -/
theorem Capped.installReply (h : Capped L n) (hc : Crowded n) (peer : String)
    {req : InstallSnapshotRequest} (hreq : req.lastIncludedIndex ≤ L)
    (resp : InstallSnapshotResponse) : Capped L (n.replicateToInstalled peer req resp) := by
  rcases n.replicateToInstalled_cases peer req resp with
    ⟨_, heq⟩ | ⟨_, ⟨_, heq⟩ | ⟨_, heq⟩⟩
  · rw [heq]
    exact { h with }
  · rw [heq]
    exact { h.becomeFollower resp.term "" with }
  · rw [heq]
    exact h.matched hc peer hreq

/-- A proposal keeps the bounds: it lengthens the log only. -/
theorem Capped.propose (h : Capped L n) (hc : Crowded n) (cmd : Bytes) :
    Capped L (n.propose cmd).1 := by
  rcases n.propose_cases cmd with ⟨e, heq⟩ | ⟨_, heq⟩
  · rw [heq]
    exact h
  · rw [heq]
    refine Capped.appended ?_ ?_ _
    · exact { h with }
    · exact hc.congr rfl

/-! ## Events -/

/-- **What a node commits by itself** is nothing new. -/
theorem Capped.handle (h : Capped L n) (hc : Crowded n) {ev : Event} (hev : NoNews L ev) :
    Capped L (Cluster.handle n ev) := by
  cases ev with
  | tick due => exact h.tick hc due
  | requestVote req => exact h.requestVote req
  -- requests of a leader and changes of the membership are news
  | appendEntries req => exact hev.elim
  | installSnapshot req => exact hev.elim
  | voteReply peer req resp => exact h.voteReply hc peer req resp
  | appendReply peer req resp => exact h.appendReply hc peer hev resp
  | installReply peer req resp => exact h.installReply hc peer hev resp
  | confirmReply term resp =>
    simp only [Cluster.handle, sendConfirmHeartbeatReply]
    split
    · exact h.becomeFollower _ _
    · exact h
  -- a round of replication may move a position
  | replicate peer =>
    obtain ⟨m, hm, heq⟩ := handle_replicate_cases n peer
    have hcap : Capped L m := by
      rcases hm with rfl | rfl
      · exact h
      · exact { h with }
    rcases heq with heq | heq
    · rw [heq]
      exact hcap
    · rw [heq]
      exact { hcap with }
  | replicateDone peer => exact { h with }
  | propose cmd => exact h.propose hc cmd
  | addServer target addr http => exact hev.elim
  | removeServer target => exact hev.elim
  | readIndex =>
    simp only [Cluster.handle, waitCurrentTermPoll]
    split
    · exact h
    split
    · exact h
    · exact h.broadcast
  | crash => exact h
  | restart => exact h
  | clusterRestart raftAddrs httpAddrs => exact h

end Node
