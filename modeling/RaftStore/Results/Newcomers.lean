import RaftStore.Lib.Path
import RaftStore.Cluster.Runs
import RaftStore.Node.Position
import RaftStore.Node.Recovery
import RaftStore.Results.Reconfiguring

/-!
# Servers that are added

A leader tracks a server from zero when it has no next index for it. The tracking of a server that
has been removed is kept, though, and so a server that is added again in the same term counts with
what its predecessor had confirmed, even if it starts from empty storage (`stale_newcomer`).

A server that has not been in the configuration so far, and that no round of `replicateTo` was for,
has no next index (`Governs`, `governs_handle`), and starts from zero (`newcomer_untracked`).
-/

namespace Node

open Raft Cluster RaftNode

variable {σ : Type} {n m : RaftNode σ} {id : String} {e : LogEntry} {peer : String}

/-! ## A server that nobody has heard of -/

/-- The node has the configuration of its log, without the server `id`, and does not track it. -/
structure Governs (id : String) (n : RaftNode σ) : Prop where
  contiguous : n.log.Contiguous
  folded : Folded n
  absent : id ∉ n.peerIDs
  other : id ≠ n.id
  untracked : n.nextIndex id = none

/-- Applying and compacting keep a server unheard of. -/
theorem Governs.applyCommitted (h : Governs id n) : Governs id n.applyCommittedLocked := by
  have hid : n.applyCommittedLocked.id = n.id := by
    refine applyCommitted_kept (f := RaftNode.id) (fun m i e => ?_) (fun _ _ _ _ => rfl) n
    obtain ⟨_, _, heq⟩ := m.applyNext_eq i e
    rw [heq]
  -- positions and members stay as they were
  have hnext := congrArg Prod.snd (footing_applyCommitted n)
  exact
    { contiguous := (compacted_applyCommitted n).contiguous h.contiguous
      folded := folded_applyCommitted h.folded
      absent := by
        rw [(peers_applyCommitted h.folded h.contiguous).2]
        exact h.absent
      other := by
        rw [hid]
        exact h.other
      untracked := (congrFun hnext id).trans h.untracked }

/-- So do committing and applying. -/
theorem Governs.settle (h : Governs id n) :
    Governs id n.advanceCommitLocked.applyCommittedLocked := by
  obtain ⟨i, _, hadvance⟩ := n.advanceCommit_eq
  rw [hadvance]
  exact Governs.applyCommitted (n := { n with commitIndex := i }) { h with }

theorem Governs.setNext (h : Governs id n) (hpeer : id ≠ peer) (i : Int) :
    Governs id (n.setNext peer i) :=
  { h with untracked := (Function.update_of_ne hpeer _ _).trans h.untracked }

theorem Governs.broadcast (h : Governs id n) : Governs id n.broadcastAppendEntriesLocked := by
  obtain ⟨r, g, heq⟩ := n.broadcast_eq
  rw [heq]
  exact { h with }

theorem Governs.appended (h : Governs id n) (i : Int) : Governs id (n.appended i) := by
  have hself : Governs id (n.persistLocked.trackSelf i) :=
    Governs.setNext (n := n.persistLocked.setMatch n.id i) { h with } h.other (i + 1)
  exact hself.settle.broadcast

/-! ## Sections -/

/-- A proposal keeps a server unheard of: it is no change of the membership. -/
theorem Governs.propose (h : Governs id n) (cmd : Bytes) : Governs id (n.propose cmd).1 := by
  rcases n.propose_cases cmd with ⟨e, heq⟩ | ⟨_, heq⟩
  · rw [heq]
    exact h
  · rw [heq]
    refine Governs.appended (n := { n with log := n.log.append _ }) ?_ _
    refine { h with contiguous := h.contiguous.append rfl, folded := ⟨?_, h.folded.2⟩ }
    exact h.folded.1.trans (foldl_applyEntry_snoc rfl).symm

/-- A change that leads to a configuration without the server. -/
theorem Governs.changed (h : Governs id n) (hidx : e.index = n.log.lastLogIndexLocked + 1)
    {ch : MembershipChange} (hch : e.change = some ch) (hne : ch.peers.isEmpty = false)
    (hid : id ∉ ch.peers.keys) : Governs id (Raft.changed n e) := by
  -- the server is not among the members of the change
  have habsent : id ∉ (Raft.changed n e).peerIDs := by
    rw [peerIDs_changed hch hne]
    exact hid
  exact
    { contiguous := by
        rw [log_changed]
        exact h.contiguous.append hidx
      folded := folded_changed
      absent := habsent
      other := by
        rw [id_changed]
        exact h.other
      untracked := by
        rw [nextIndex_changed habsent]
        exact h.untracked }

/-- A change about another server keeps this one unheard of. -/
theorem Governs.proposeChange (h : Governs id n) {ch : MembershipChange} (hid : ch.id ≠ id) :
    Governs id (n.proposeChangeLocked ch).1 := by
  rcases n.proposeChange_cases ch with ⟨e, heq⟩ | ⟨c, hok, _, heq⟩
  · rw [heq]
    exact h
  · rw [heq]
    refine Governs.appended ?_ _
    refine h.changed rfl rfl (changedPeers_isEmpty hok h.folded.2) ?_
    have habsent : id ∉ n.peerAddrs.keys := h.folded.2 ▸ h.absent
    -- another server is added, or one is removed
    rcases changedPeers_cases hok with ⟨_, _, hc⟩ | ⟨_, _, _, _, hc⟩
    · show id ∉ c.1.keys
      simp [hc, habsent, hid.symm]
    · show id ∉ c.1.keys
      simp [hc, habsent]

/-- Who steps down has heard of nobody new. -/
theorem Governs.becomeFollower (h : Governs id n) (term : Int) (leaderID : String) :
    Governs id (n.becomeFollowerLocked term leaderID) := by
  unfold becomeFollowerLocked
  dsimp only
  split
  · exact { h with }
  · exact { h with }

/-- A reply of another server counts for that one. -/
theorem Governs.matched (h : Governs id n) (hpeer : id ≠ peer) (i : Int) :
    Governs id (n.matched peer i) := by
  have hset : Governs id ((n.setMatch peer i).setNext peer (i + 1)) :=
    Governs.setNext (n := n.setMatch peer i) { h with } hpeer (i + 1)
  exact { hset.settle with }

/-- The reply to `AppendEntries` of another server. -/
theorem Governs.appendReply (h : Governs id n) (hpeer : id ≠ peer)
    (req : AppendEntriesRequest) (resp : AppendEntriesResponse) :
    Governs id (n.replicateToAppended peer req resp) := by
  rcases n.replicateToAppended_cases peer req resp with
    ⟨_, heq⟩ | ⟨_, ⟨_, heq⟩ | ⟨_, _, heq⟩ | ⟨m, rfl | ⟨i, _, rfl⟩, heq⟩⟩
  · rw [heq]
    exact { h with }
  · rw [heq]
    exact { h.becomeFollower resp.term "" with }
  · rw [heq]
    exact h.matched hpeer _
  · rw [heq]
    exact { h with }
  · rw [heq]
    exact { h.setNext hpeer i with }

/-- The reply to `InstallSnapshot` of another server. -/
theorem Governs.installReply (h : Governs id n) (hpeer : id ≠ peer)
    (req : InstallSnapshotRequest) (resp : InstallSnapshotResponse) :
    Governs id (n.replicateToInstalled peer req resp) := by
  rcases n.replicateToInstalled_cases peer req resp with
    ⟨_, heq⟩ | ⟨_, ⟨_, heq⟩ | ⟨_, heq⟩⟩
  · rw [heq]
    exact { h with }
  · rw [heq]
    exact { h.becomeFollower resp.term "" with }
  · rw [heq]
    exact h.matched hpeer _

/-- A round of replication for another server. -/
theorem Governs.replicate (h : Governs id n) (hpeer : id ≠ peer) :
    Governs id (handle n (.replicate peer)) := by
  obtain ⟨m, hm, heq⟩ := handle_replicate_cases n peer
  have hset : Governs id m := by
    rcases hm with rfl | rfl
    · exact h
    · exact h.setNext hpeer _
  rcases heq with heq | heq
  · rw [heq]
    exact hset
  · rw [heq]
    exact { hset with }

/-- A leader's tick sends heartbeats. -/
theorem Governs.heartbeat (h : Governs id n) (hs : n.state = .leader) (due : Bool) :
    Governs id (n.tick due) := by
  obtain ⟨m, htick, rfl | ⟨_, rfl⟩ | ⟨hnot, _⟩⟩ := n.tick_cases due
  · rw [htick]
    exact h.applyCommitted
  · rw [htick]
    exact h.broadcast.applyCommitted
  · exact absurd hs hnot

/-- A request for a vote. -/
theorem Governs.requestVote (h : Governs id n) (req : RequestVoteRequest) :
    Governs id (n.handleRequestVote req).1 := by
  rcases n.handleRequestVote_cases req with ⟨_, heq⟩ | ⟨m, hm, _, hcase⟩
  · rw [heq]
    exact h
  have hgoverns : Governs id m := by
    rcases hm with ⟨_, rfl⟩ | ⟨_, rfl⟩
    · exact h
    · exact h.becomeFollower req.term ""
  rcases hcase with ⟨_, _, heq⟩ | heq
  · rw [heq]
    exact { hgoverns with }
  · rw [heq]
    exact hgoverns

/-- A leader does not count votes. -/
theorem Governs.voteReply (h : Governs id n) (hs : n.state = .leader) (peer : String)
    (req : RequestVoteRequest) (resp : RequestVoteResponse) :
    Governs id (n.sendRequestVoteReply peer req resp) := by
  rcases n.sendRequestVoteReply_cases peer req resp with ⟨_, heq⟩ | heq | ⟨⟨hcand, _⟩, _⟩
  · rw [heq]
    exact h.becomeFollower resp.term ""
  · rw [heq]
    exact h
  -- a leader is not a candidate
  · rw [hs] at hcand
    cases hcand

/-- The reply to a confirming heartbeat. -/
theorem Governs.confirmReply (h : Governs id n) (term : Int) (resp : AppendEntriesResponse) :
    Governs id (n.sendConfirmHeartbeatReply term resp).1 := by
  unfold sendConfirmHeartbeatReply
  split
  · exact h.becomeFollower resp.term ""
  · exact h

/-! ## Runs -/

/-- The events of a leader's term that have nothing to do with the server `id`: heartbeats,
proposals, changes of other servers, the rounds of `replicateTo` for other peers, reads with their
confirmations, votes, and what leaders of earlier terms send. -/
def Reigns (id : String) (n : RaftNode σ) : Event → Prop
  | .propose _ | .readIndex | .replicateDone _ | .requestVote _ | .confirmReply _ _ => True
  | .tick _ | .voteReply _ _ _ => n.state = .leader
  | .appendEntries req => req.term < n.currentTerm
  | .installSnapshot req => req.term < n.currentTerm
  | .addServer target _ _ | .removeServer target => target ≠ id
  | .replicate peer | .appendReply peer _ _ | .installReply peer _ _ => id ≠ peer
  | _ => False

/-- **One event.** -/
theorem governs_handle (h : Governs id n) {ev : Event} (hev : Reigns id n ev) :
    Governs id (handle n ev) := by
  cases ev with
  | tick due => exact h.heartbeat hev due
  | requestVote req => exact h.requestVote req
  | appendEntries req =>
    -- a stale request is refused
    have hstale : req.term < n.currentTerm := hev
    show Governs id (n.handleAppendEntries req).1
    unfold handleAppendEntries
    rw [if_pos hstale]
    exact h
  | installSnapshot req =>
    have hstale : req.term < n.currentTerm := hev
    show Governs id (n.handleInstallSnapshot req).1
    unfold handleInstallSnapshot
    rw [if_pos hstale]
    exact h
  | voteReply peer req resp => exact h.voteReply hev peer req resp
  | confirmReply term resp => exact h.confirmReply term resp
  | propose cmd => exact h.propose cmd
  | addServer target addr http =>
    simp only [handle, addServer]
    split
    · exact h
    · exact h.proposeChange hev
  | removeServer target =>
    simp only [handle, removeServer]
    split
    · exact h
    · exact h.proposeChange hev
  | replicate peer => exact h.replicate hev
  | replicateDone peer => exact { h with }
  | appendReply peer req resp => exact h.appendReply hev req resp
  | installReply peer req resp => exact h.installReply hev req resp
  | readIndex =>
    simp only [handle, waitCurrentTermPoll]
    split
    · exact h
    split
    · exact h
    · exact h.broadcast
  | _ => cases hev

/-- A run of events at one node. -/
abbrev Events (ok : RaftNode σ → Event → Prop) :
    RaftNode σ → List Event → RaftNode σ → Prop :=
  StepPath (fun n ev => some (handle n ev)) ok

/-- A server that is new in the configuration of the entry. -/
theorem matchIndex_added (h : Governs id n) (hidx : e.index = n.log.lastLogIndexLocked + 1)
    {ch : MembershipChange} (hch : e.change = some ch) (hne : ch.peers.isEmpty = false)
    (hmem : id ∈ ch.peers.keys) :
    ((Raft.changed n e).appended (n.log.lastLogIndexLocked + 1)).matchIndex id = 0 := by
  have hlog : (Raft.changed n e).log.Contiguous := by
    rw [log_changed]
    exact h.contiguous.append hidx
  rw [(settled_appended folded_changed hlog _).matchIndex_eq, id_changed,
    Function.update_of_ne h.other, matchIndex_changed, peerIDs_changed hch hne]
  exact if_pos ⟨hmem, h.untracked⟩

/-- **A newly added server starts untracked**, if in the leader's term so far it was not in the
configuration and no round of `replicateTo` was for it. -/
theorem newcomer_untracked {n₀ : RaftNode σ} {evs : List Event} (h : Governs id n₀)
    (hrun : Events (Reigns id) n₀ evs n) {addr http : String} {i : Int}
    (hok : (n.addServer id addr http).2 = .ok i) :
    (n.addServer id addr http).1.matchIndex id = 0 := by
  have hn : Governs id n := StepPath.invariant
    (fun _ _ _ hP hev hstep => Option.some.inj hstep ▸ governs_handle hP hev) hrun h
  -- the arguments are not empty, and the change is proposed
  unfold addServer at hok ⊢
  split at hok
  · cases hok
  next hargs =>
  rw [if_neg hargs]
  rcases n.proposeChange_cases { type := changeAdd, id := id, addr := addr, http := http } with
    ⟨e, heq⟩ | ⟨c, hc, _, heq⟩
  · rw [heq] at hok
    cases hok
  · rw [heq]
    -- the server is a member now
    have hmem : id ∈ c.1.keys := by
      rcases changedPeers_cases hc with ⟨_, _, hset⟩ | ⟨htype, _⟩
      · simp [hset]
      · exact absurd (show changeAdd = changeRemove from htype) (by decide)
    have hne : c.1.isEmpty = false := OrdMap.isEmpty_eq_false_of_mem hmem
    exact matchIndex_added hn rfl rfl hne hmem

/-! The leader of the last module has proposed a command, and adds a fourth server. -/

/-- The leader of the last module has not heard of `n4`. -/
theorem steadyLeader_governs : Governs "n4" steadyLeader where
  contiguous := steadyLeader_tracking.contiguous
  folded := ⟨by decide +kernel, steadyLeader_tracking.ids_eq⟩
  absent := by decide +kernel
  other := by decide +kernel
  untracked := by decide +kernel

theorem newcomer_untracked_sample :
    ((steadyLeader.propose [1]).1.addServer "n4" "a4" "").2 = .ok 3 ∧
      ((steadyLeader.propose [1]).1.addServer "n4" "a4" "").1.matchIndex "n4" = 0 := by
  have hok : ((steadyLeader.propose [1]).1.addServer "n4" "a4" "").2 = .ok 3 := by decide +kernel
  have hrun : Events (Reigns "n4") steadyLeader [.propose [1]]
      (steadyLeader.propose [1]).1 := StepPath.cons trivial rfl (StepPath.nil _)
  exact ⟨hok, newcomer_untracked steadyLeader_governs hrun hok⟩

/-! ## A server that comes back -/

/-- A cluster of one. -/
def alone : Setup Unit := uniform idle (.ofList [("n1", "a1")]) 0

/-- `n1` is elected and adds `n2`, which acknowledges two entries and is removed. -/
def returning : List Action :=
  [.tick "n1" true, .addServer "n1" "n2" "a2" "",
   .go "n1" 0, .deliver 0, .reply 0, .go "n1" 0, .deliver 1, .reply 1, .go "n1" 0, .deliver 2,
     .reply 2,
   .removeServer "n1" "n2"]

/-- **The tracking of a removed server is kept**: the server is added again in the same term, and
counts as a replica of two entries before it has acknowledged anything. Term 1 is the leader's only
one. -/
theorem stale_newcomer :
    ¬ ∀ (acts : List Action) (w : World Unit) (leader id addr http : String) (i : Int),
      Run alone (fun _ _ => True) (World.init alone) acts w → (w.node leader).currentTerm = 1 →
      ((w.node leader).addServer id addr http).2 = .ok i →
      ((w.node leader).addServer id addr http).1.matchIndex id = 0 := by
  intro h
  have hrun : Run alone (fun _ _ => True) (World.init alone) returning
      (after alone (World.init alone) returning) :=
    run_after (fun _ _ _ => trivial) (by decide +kernel)
  have hzero := h returning _ "n1" "n2" "a2" "" 4 hrun (by decide +kernel) (by decide +kernel)
  have htwo : RaftNode.matchIndex
      (((after alone (World.init alone) returning).node "n1").addServer "n2" "a2" "").1
      "n2" = 2 := by decide +kernel
  omega

end Node
