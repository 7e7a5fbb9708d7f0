import RaftStore.Node.Event

/-!
# Where replication starts

For each peer a leader keeps the index that its next request starts from. It is set when the node
wins its election; a round of `replicateTo` moves it behind what the peer has confirmed, or back by
one when the peer refuses. It stays positive (`Positioned`, `positioned_handle`): the entry before
it is one of the log, or the dummy in front of it.
-/

namespace Node

open Raft Cluster RaftNode

variable {σ : Type} {K : List String} {n m : RaftNode σ} {ev : Event} {i : Int}

/-- A leader starts from a positive index for each of the peers `K`. -/
def Positioned (K : List String) (n : RaftNode σ) : Prop :=
  n.state = .leader → ∀ p ∈ K, 0 < n.next p

theorem positioned_of_ne (h : n.state ≠ .leader) : Positioned K n := fun hl => absurd hl h

/-- The fields that matter. -/
def footing (n : RaftNode σ) : State × (String → Option Int) := (n.state, n.nextIndex)

/-- What leaves the fields alone leaves the positions alone. -/
theorem Positioned.of_footing (h : Positioned K n) (heq : footing m = footing n) :
    Positioned K m := by
  obtain ⟨hstate, hnext⟩ := Prod.mk.inj heq
  unfold Positioned RaftNode.next at h ⊢
  rw [hstate, hnext]
  exact h

/-- A position above zero may be set for any peer. -/
theorem Positioned.setNext (h : Positioned K n) (hi : 0 < i) (peer : String) :
    Positioned K (n.setNext peer i) := by
  intro hl p hp
  by_cases hpeer : p = peer
  · rw [hpeer, next_setNext]
    exact hi
  · have hsame : (n.setNext peer i).next p = n.next p := by
      simp [RaftNode.next, RaftNode.setNext, hpeer]
    rw [hsame]
    exact h hl p hp

/-! ## What leaves the fields alone -/

/-- Applying commands moves no position. -/
theorem footing_applyCommitted (n : RaftNode σ) : footing n.applyCommittedLocked = footing n := by
  refine n.applyCommitted_kept (f := footing) (fun m i e => ?_) (fun _ _ _ _ => rfl)
  obtain ⟨_, _, heq⟩ := m.applyNext_eq i e
  rw [heq]
  rfl

/-- Committing and applying move no position. -/
theorem footing_settle (n : RaftNode σ) :
    footing n.advanceCommitLocked.applyCommittedLocked = footing n := by
  obtain ⟨i, _, heq⟩ := n.advanceCommit_eq
  rw [footing_applyCommitted, heq]
  rfl

/-- A broadcast moves no position: the requests are built later. -/
theorem footing_broadcast (n : RaftNode σ) :
    footing n.broadcastAppendEntriesLocked = footing n := by
  obtain ⟨r, g, heq⟩ := n.broadcast_eq
  rw [heq]
  rfl

/-! ## Sections -/

/-- Who steps down has no positions to keep. -/
theorem positioned_becomeFollower (n : RaftNode σ) (term : Int) (leaderID : String) :
    Positioned K (n.becomeFollowerLocked term leaderID) := by
  refine positioned_of_ne ?_
  show State.follower ≠ .leader
  decide

/-- What follows every append of a leader. -/
theorem Positioned.appended (h : Positioned K n) (hi : 0 ≤ i) : Positioned K (n.appended i) := by
  have hself : Positioned K (n.persistLocked.trackSelf i) :=
    Positioned.setNext (n := n.persistLocked.setMatch n.id i) h (by omega) n.id
  exact hself.of_footing ((footing_broadcast _).trans (footing_settle _))

/-- A new leader starts behind its log, for every member. -/
theorem positioned_becomeLeader (hK : ∀ p ∈ K, p ∈ n.peerIDs)
    (hlast : 0 ≤ n.log.lastLogIndexLocked) : Positioned K n.becomeLeaderLocked := by
  have hreset : Positioned K
      ({ n with state := .leader, leaderID := n.id }.resetTracking n.log.lastLogIndexLocked) := by
    intro _ p hp
    show 0 < (if p ∈ n.peerIDs then some (n.log.lastLogIndexLocked + 1) else none).getD 0
    rw [if_pos (hK p hp)]
    show 0 < n.log.lastLogIndexLocked + 1
    omega
  -- the leader's own position follows its first entry
  have hself := hreset.setNext (i := n.log.lastLogIndexLocked + 1 + 1) (by omega) n.id
  unfold becomeLeaderLocked
  dsimp only
  refine Positioned.of_footing ?_ ((footing_broadcast _).trans (footing_settle _))
  exact hself.of_footing rfl

/-- An election keeps the positions: who loses it does not lead. -/
theorem Positioned.startElection (h : Positioned K n) (hK : ∀ p ∈ K, p ∈ n.peerIDs)
    (hlast : 0 ≤ n.log.lastLogIndexLocked) : Positioned K n.startElectionLocked := by
  -- asking for votes moves none
  have hspawn : ∀ (peers : List String) (req : RequestVoteRequest) (m : RaftNode σ),
      footing (peers.foldl (fun n' peer => n'.spawn (.sendRequestVote peer req)) m) =
        footing m := by
    intro peers req
    induction peers with
    | nil => exact fun m => rfl
    | cons peer rest ih => exact fun m => ih _
  unfold startElectionLocked
  split
  · exact h
  dsimp only
  split
  · exact positioned_becomeLeader hK hlast
  · -- a candidate
    refine Positioned.of_footing (positioned_of_ne ?_) (hspawn _ _ _)
    show State.candidate ≠ .leader
    decide

/-- A tick keeps the positions. -/
theorem Positioned.tick (h : Positioned K n) (hK : ∀ p ∈ K, p ∈ n.peerIDs)
    (hlast : 0 ≤ n.log.lastLogIndexLocked) (due : Bool) : Positioned K (n.tick due) := by
  obtain ⟨m, heq, hm⟩ := n.tick_cases due
  rw [heq]
  refine Positioned.of_footing ?_ (footing_applyCommitted m)
  rcases hm with rfl | ⟨_, rfl⟩ | ⟨_, _, rfl⟩
  · exact h
  · exact h.of_footing (footing_broadcast n)
  · exact h.startElection hK hlast

/-- A request for a vote keeps the positions. -/
theorem Positioned.requestVote (h : Positioned K n) (req : RequestVoteRequest) :
    Positioned K (n.handleRequestVote req).1 := by
  rcases n.handleRequestVote_cases req with ⟨_, heq⟩ | ⟨m, hm, _, hvoted⟩
  · rw [heq]
    exact h
  have hheard : Positioned K m := by
    rcases hm with ⟨_, rfl⟩ | ⟨_, rfl⟩
    · exact h
    · exact positioned_becomeFollower n _ _
  rcases hvoted with ⟨_, _, heq⟩ | heq
  · rw [heq]
    exact hheard
  · rw [heq]
    exact hheard

/-- A vote keeps the positions, also where it decides the election. -/
theorem Positioned.voteReply (h : Positioned K n) (hK : ∀ p ∈ K, p ∈ n.peerIDs)
    (hlast : 0 ≤ n.log.lastLogIndexLocked) (peer : String) (req : RequestVoteRequest)
    (resp : RequestVoteResponse) : Positioned K (n.sendRequestVoteReply peer req resp) := by
  rcases n.sendRequestVoteReply_cases peer req resp with
    ⟨_, heq⟩ | heq | ⟨_, ⟨_, heq⟩ | ⟨_, heq⟩⟩
  · rw [heq]
    exact positioned_becomeFollower n _ _
  · rw [heq]
    exact h
  · rw [heq]
    exact positioned_becomeLeader hK hlast
  · rw [heq]
    exact h

/-- A node that has heard from another leader is none. -/
theorem Positioned.appendEntries (h : Positioned K n) (req : AppendEntriesRequest) :
    Positioned K (n.handleAppendEntries req).1 := by
  rcases n.handleAppendEntries_cases req with ⟨_, heq⟩ | ⟨hle, _, heq⟩ | ⟨hle, _, heq⟩
  · rw [heq]
    exact h
  -- whoever accepts a request of a leader follows it
  all_goals
    have hstate := (n.hearLeader_fields (not_lt.mpr hle) req.leaderID).2.1
    rw [heq]
    refine positioned_of_ne ?_
    dsimp only
  · rw [hstate]
    decide
  · unfold followCommitLocked
    split
    · simp [hstate]
    · simp [hstate]

/-- A snapshot keeps the positions: who accepts it follows. -/
theorem Positioned.installSnapshot (h : Positioned K n) (req : InstallSnapshotRequest) :
    Positioned K (n.handleInstallSnapshot req).1 := by
  rcases n.handleInstallSnapshot_cases req with ⟨_, heq⟩ | ⟨hle, _, heq⟩ | ⟨hle, _, heq⟩
  · rw [heq]
    exact h
  all_goals
    have hstate := (n.hearLeader_fields (not_lt.mpr hle) req.leaderID).2.1
    rw [heq]
    refine positioned_of_ne ?_
    dsimp only
  · rw [hstate]
    decide
  · rw [(RaftNode.installed _ req).state_eq, hstate]
    decide

/-- A successful reply moves the position behind what was matched. -/
theorem Positioned.matched (h : Positioned K n) (hi : 0 ≤ i) (peer : String) :
    Positioned K (n.matched peer i) := by
  have hset : Positioned K ((n.setMatch peer i).setNext peer (i + 1)) :=
    Positioned.setNext (n := n.setMatch peer i) h (by omega) peer
  exact hset.of_footing (footing_settle _)

/-- The reply to `AppendEntries` keeps the positions above zero. -/
theorem Positioned.appendReply (h : Positioned K n) (hbase : 0 ≤ n.log.lastIncludedIndexLocked)
    (peer : String) {req : AppendEntriesRequest} (hprev : 0 ≤ req.prevLogIndex)
    (resp : AppendEntriesResponse) : Positioned K (n.replicateToAppended peer req resp) := by
  rcases n.replicateToAppended_cases peer req resp with
    ⟨_, heq⟩ | ⟨_, ⟨_, heq⟩ | ⟨_, _, heq⟩ | ⟨m, rfl | ⟨i, hi, rfl⟩, heq⟩⟩
  · rw [heq]
    exact h
  · rw [heq]
    exact positioned_becomeFollower n resp.term ""
  · rw [heq]
    exact h.matched (by omega) peer
  · rw [heq]
    exact h
  · -- backing off stops above zero
    rw [heq]
    exact h.setNext (i := i) (by omega) peer

/-- The reply to `InstallSnapshot` keeps the positions above zero. -/
theorem Positioned.installReply (h : Positioned K n) (peer : String)
    {req : InstallSnapshotRequest} (hlast : 0 ≤ req.lastIncludedIndex)
    (resp : InstallSnapshotResponse) : Positioned K (n.replicateToInstalled peer req resp) := by
  rcases n.replicateToInstalled_cases peer req resp with
    ⟨_, heq⟩ | ⟨_, ⟨_, heq⟩ | ⟨_, heq⟩⟩
  · rw [heq]
    exact h
  · rw [heq]
    exact positioned_becomeFollower n resp.term ""
  · rw [heq]
    exact h.matched hlast peer

/-- A proposal keeps the positions. -/
theorem Positioned.propose (h : Positioned K n) (hlast : 0 ≤ n.log.lastLogIndexLocked)
    (cmd : Bytes) : Positioned K (n.propose cmd).1 := by
  rcases n.propose_cases cmd with ⟨e, heq⟩ | ⟨_, heq⟩
  · rw [heq]
    exact h
  · rw [heq]
    exact Positioned.appended (n := { n with log := n.log.append _ }) h (by omega)

/-- Peers that are tracked already stay where they are. -/
theorem Positioned.ensurePeerTracking (h : Positioned K n) :
    Positioned K n.ensurePeerTrackingLocked := by
  unfold ensurePeerTrackingLocked
  refine List.foldlRecOn (motive := fun m : RaftNode σ => Positioned K m) n.peerIDs _ h ?_
  intro m hm q _
  dsimp only
  split
  · exact hm
  -- only a peer without a position gets one, and those of `K` have theirs
  · next hnone =>
    intro hl p hp
    have hpos := hm hl p hp
    have hpq : p ≠ q := by
      rintro rfl
      simp [RaftNode.next, hnone] at hpos
    simpa [RaftNode.next, hpq] using hpos

/-- A change of the membership keeps the positions. -/
theorem Positioned.proposeChange (h : Positioned K n) (hlast : 0 ≤ n.log.lastLogIndexLocked)
    (ch : MembershipChange) : Positioned K (n.proposeChangeLocked ch).1 := by
  rcases n.proposeChange_cases ch with ⟨e, heq⟩ | ⟨c, _, _, heq⟩
  · rw [heq]
    exact h
  · have htracked := Positioned.ensurePeerTracking
      (n := { n with
        log := n.log.append
          [{ term := n.currentTerm, index := n.log.lastLogIndexLocked + 1,
             change := some
               { ch with peers := c.1, httpAddrs := c.2 } }] }.rebuildMembershipLocked) h
    rw [heq]
    exact Positioned.appended (n := RaftNode.notifyPeersLocked _) htracked (by omega)

/-- A round of replication keeps the positions: one that is out of range is set behind the log. -/
theorem Positioned.replicate (h : Positioned K n) (hlast : 0 ≤ n.log.lastLogIndexLocked)
    (peer : String) : Positioned K (handle n (.replicate peer)) := by
  obtain ⟨m, hm, heq⟩ := handle_replicate_cases n peer
  have hset : Positioned K m := by
    rcases hm with rfl | rfl
    · exact h
    · exact h.setNext (by omega) peer
  rcases heq with heq | heq
  · rw [heq]
    exact hset
  · rw [heq]
    exact hset

/-! ## Events -/

/-- The indexes that a reply to `replicateTo` refers to are no less than zero. -/
def Anchored : Event → Prop
  | .appendReply _ req _ => 0 ≤ req.prevLogIndex
  | .installReply _ req _ => 0 ≤ req.lastIncludedIndex
  | _ => True

/-- **No event moves a next index to zero.** -/
theorem positioned_handle (h : Positioned K n) (hK : ∀ p ∈ K, p ∈ n.peerIDs)
    (hbase : 0 ≤ n.log.lastIncludedIndexLocked) (hlast : 0 ≤ n.log.lastLogIndexLocked)
    (hev : Anchored ev) : Positioned K (handle n ev) := by
  cases ev with
  | tick due => exact h.tick hK hlast due
  | requestVote req => exact h.requestVote req
  | appendEntries req => exact h.appendEntries req
  | installSnapshot req => exact h.installSnapshot req
  | voteReply peer req resp => exact h.voteReply hK hlast peer req resp
  | appendReply peer req resp => exact h.appendReply hbase peer hev resp
  | installReply peer req resp => exact h.installReply peer hev resp
  | confirmReply term resp =>
    simp only [handle, sendConfirmHeartbeatReply]
    split
    · exact positioned_becomeFollower n _ _
    · exact h
  | replicate peer => exact h.replicate hlast peer
  | replicateDone peer => exact h
  | propose cmd => exact h.propose hlast cmd
  | addServer target addr http =>
    simp only [handle, addServer]
    split
    · exact h
    · exact h.proposeChange hlast _
  | removeServer target =>
    simp only [handle, removeServer]
    split
    · exact h
    · exact h.proposeChange hlast _
  | readIndex =>
    simp only [handle, waitCurrentTermPoll]
    split
    · exact h
    split
    · exact h
    · exact h.of_footing (footing_broadcast n)
  | crash => exact h
  | restart => exact h
  | clusterRestart raftAddrs httpAddrs => exact h

end Node
