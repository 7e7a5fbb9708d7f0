import RaftStore.Node.Recovery

/-!
# The goroutines of `replicateTo`

`replicating[peer]` keeps a leader from starting a second `replicateTo` for a peer. The flag is set
where the goroutine is started and cleared by its deferred function. Of the sections in between only
one takes part: `becomeLeaderLocked` clears all flags and starts new goroutines.

So a section never loses a goroutine, and marks a peer only together with a new one (`LoopsKept`,
`loops_handle`), the deferred function itself apart.
-/

namespace Node

open Raft Cluster RaftNode

variable {σ : Type} {n n' m : RaftNode σ} {peer : String}

/-- A node that was not stopped still is not, and one that has joined still has. -/
structure FlagsKept (n n' : RaftNode σ) : Prop where
  stopped_eq : n'.stopped = n.stopped
  joined : n.joining = false → n'.joining = false

/-- No goroutine is lost, and whoever is marked was marked before or has a new goroutine. -/
structure LoopsKept (n n' : RaftNode σ) : Prop extends FlagsKept n n' where
  mem : ∀ g ∈ n.goroutines, g ∈ n'.goroutines
  busy : ∀ p, n'.replicating p = true → n.replicating p = true ∨ .replicateTo p ∈ n'.goroutines

/-- The fields that this is about. -/
def threads (n : RaftNode σ) : (String → Bool) × List Goroutine × Bool × Bool :=
  (n.replicating, n.goroutines, n.stopped, n.joining)

/-- Threads that stay as they are keep their loops. -/
theorem LoopsKept.of_eq (h : threads n' = threads n) : LoopsKept n n' := by
  simp only [threads, Prod.mk.injEq] at h
  obtain ⟨hrep, hgo, hstop, hjoin⟩ := h
  exact ⟨⟨hstop, fun hj => hjoin.trans hj⟩, fun g hg => by rw [hgo]; exact hg,
    fun p hp => Or.inl (by rw [← hrep]; exact hp)⟩

theorem FlagsKept.trans (h : FlagsKept n m) (h' : FlagsKept m n') : FlagsKept n n' :=
  ⟨h'.stopped_eq.trans h.stopped_eq, fun hj => h'.joined (h.joined hj)⟩

/-- Loops are kept across two steps. -/
theorem LoopsKept.trans (h : LoopsKept n m) (h' : LoopsKept m n') : LoopsKept n n' := by
  refine ⟨h.toFlagsKept.trans h'.toFlagsKept, fun g hg => h'.mem g (h.mem g hg), fun p hp => ?_⟩
  rcases h'.busy p hp with hm | hnew
  · exact (h.busy p hm).imp_right (h'.mem _)
  · exact Or.inr hnew

theorem loops_spawn (n : RaftNode σ) (g : Goroutine) : LoopsKept n (n.spawn g) :=
  ⟨⟨rfl, fun hj => hj⟩, fun _ hx => List.mem_append_left _ hx, fun _ hp => Or.inl hp⟩

/-- A peer is marked together with its goroutine. -/
theorem loops_mark (n : RaftNode σ) (peer : String) :
    LoopsKept n ({ n with replicating := Function.update n.replicating peer true }.spawn
      (.replicateTo peer)) := by
  refine ⟨⟨rfl, fun hj => hj⟩, fun _ hx => List.mem_append_left _ hx, fun p hp => ?_⟩
  by_cases heq : p = peer
  · subst heq
    exact Or.inr (List.mem_append_right _ (List.mem_singleton_self _))
  -- another peer's mark is not touched
  · left
    have hp' : Function.update n.replicating peer true p = true := hp
    rwa [Function.update_of_ne heq] at hp'

/-- A loop over peers keeps what each of its turns keeps. -/
theorem loops_foldl {β : Type} {f : RaftNode σ → β → RaftNode σ} (hf : ∀ m x, LoopsKept m (f m x))
    (l : List β) (n : RaftNode σ) : LoopsKept n (l.foldl f n) := by
  induction l generalizing n with
  | nil => exact .of_eq rfl
  | cons x rest ih => exact (hf n x).trans (ih _)

/-- What `broadcastAppendEntriesLocked` does for one peer. -/
def replicateUnlessBusy (n : RaftNode σ) (peer : String) : RaftNode σ :=
  if peer = n.id then n
  else if n.replicating peer then n
  else { n with replicating := Function.update n.replicating peer true }.spawn (.replicateTo peer)

/-- With a transport, a broadcast starts a loop for each peer that has none. -/
theorem broadcast_foldl {n : RaftNode σ} (h : n.transport.isSome = true) :
    n.broadcastAppendEntriesLocked = n.peerIDs.foldl replicateUnlessBusy n := by
  unfold broadcastAppendEntriesLocked
  rw [if_neg (by simpa [Option.isNone_iff_eq_none, ← Option.isSome_iff_ne_none] using h)]
  rfl

/-- One turn of the broadcast marks only a peer for which it starts a loop. -/
theorem loops_replicateUnlessBusy (n : RaftNode σ) (peer : String) :
    LoopsKept n (replicateUnlessBusy n peer) := by
  unfold replicateUnlessBusy
  split
  · exact .of_eq rfl
  split
  · exact .of_eq rfl
  · exact loops_mark n peer

/-- A broadcast keeps the loops. -/
theorem loops_broadcast (n : RaftNode σ) : LoopsKept n n.broadcastAppendEntriesLocked := by
  by_cases h : n.transport.isSome = true
  · rw [broadcast_foldl h]
    exact loops_foldl loops_replicateUnlessBusy n.peerIDs n
  · unfold broadcastAppendEntriesLocked
    rw [if_pos (by simpa using h)]
    exact .of_eq rfl

/-- Whoever is not being replicated to gets a goroutine. -/
theorem mem_foldl_replicate {peers : List String} {n : RaftNode σ} (hp : peer ∈ peers)
    (hne : peer ≠ n.id) (hfree : n.replicating peer = false) :
    .replicateTo peer ∈ (peers.foldl replicateUnlessBusy n).goroutines := by
  induction peers generalizing n with
  | nil => cases hp
  | cons q rest ih =>
    rw [List.foldl_cons]
    by_cases hq : q = peer
    · -- its own turn; the goroutine stays through the rest
      subst hq
      refine (loops_foldl loops_replicateUnlessBusy rest _).mem _ ?_
      simp [replicateUnlessBusy, hne, hfree, RaftNode.spawn]
    -- another peer's turn does not mark `peer`
    · refine ih ((List.mem_cons.mp hp).resolve_left (Ne.symm hq)) ?_ ?_
      · unfold replicateUnlessBusy
        split
        · exact hne
        split <;> exact hne
      · unfold replicateUnlessBusy
        split
        · exact hfree
        split
        · exact hfree
        · simpa [RaftNode.spawn, Function.update_of_ne (Ne.symm hq)] using hfree

/-- A broadcast starts a loop for every other member without one. -/
theorem mem_broadcast {n : RaftNode σ} (htr : n.transport.isSome = true) (hp : peer ∈ n.peerIDs)
    (hne : peer ≠ n.id) (hfree : n.replicating peer = false) :
    .replicateTo peer ∈ n.broadcastAppendEntriesLocked.goroutines := by
  rw [broadcast_foldl htr]
  exact mem_foldl_replicate hp hne hfree

/-- Applying commands is no concern of the threads. -/
theorem threads_applyCommitted (n : RaftNode σ) : threads n.applyCommittedLocked = threads n := by
  refine n.applyCommitted_kept (f := threads) (fun m i e => ?_) (fun _ _ _ _ => rfl)
  obtain ⟨_, _, heq⟩ := m.applyNext_eq i e
  rw [heq]
  rfl

theorem goroutines_applyCommitted (n : RaftNode σ) :
    n.applyCommittedLocked.goroutines = n.goroutines :=
  congrArg (·.2.1) (threads_applyCommitted n)

theorem threads_settle (n : RaftNode σ) :
    threads n.advanceCommitLocked.applyCommittedLocked = threads n := by
  obtain ⟨i, _, heq⟩ := n.advanceCommit_eq
  rw [threads_applyCommitted, heq]
  rfl

theorem loops_settle (n : RaftNode σ) :
    LoopsKept n n.advanceCommitLocked.applyCommittedLocked.broadcastAppendEntriesLocked :=
  (LoopsKept.of_eq (threads_settle n)).trans (loops_broadcast _)

theorem threads_becomeFollower (n : RaftNode σ) (term : Int) (leaderID : String) :
    threads (n.becomeFollowerLocked term leaderID) = threads n := by
  unfold becomeFollowerLocked
  split <;> rfl

/-- Whoever hears from a leader has joined. -/
theorem loops_hearLeader (n : RaftNode σ) (term : Int) (leaderID : String) :
    LoopsKept n (n.hearLeader term leaderID) := by
  obtain ⟨t, vote, st, s, heq⟩ := n.hearLeader_eq term leaderID
  rw [heq]
  exact ⟨⟨rfl, fun _ => rfl⟩, fun _ hg => hg, fun _ hp => Or.inl hp⟩

/-! ## Elections -/

/-- A new leader starts over: nobody is marked but those it has a new goroutine for. -/
theorem loops_becomeLeader (n : RaftNode σ) : LoopsKept n n.becomeLeaderLocked := by
  have hreset : LoopsKept n (({ n with
      state := .leader
      leaderID := n.id
      nextIndex := fun p => if p ∈ n.peerIDs then some (n.log.lastLogIndexLocked + 1) else none
      matchIndex := fun _ => 0
      replicating := fun _ => false
      log := n.log.append [{ term := n.currentTerm, index := n.log.lastLogIndexLocked + 1 }] } :
        RaftNode σ).trackSelf (n.log.lastLogIndexLocked + 1)).persistLocked :=
    ⟨⟨rfl, fun hj => hj⟩, fun _ hg => hg, fun p hp => by cases hp⟩
  exact hreset.trans (loops_settle _)

/-- An election keeps the loops. -/
theorem loops_startElection (n : RaftNode σ) : LoopsKept n n.startElectionLocked := by
  unfold startElectionLocked
  split
  · exact .of_eq rfl
  dsimp only
  split
  -- a single voter leads at once
  · refine LoopsKept.trans ?_ (loops_becomeLeader _)
    exact .of_eq rfl
  -- otherwise it asks the others
  · refine LoopsKept.trans ?_ (loops_foldl (fun m _ => loops_spawn m _) _ _)
    exact .of_eq rfl

/-- A tick keeps the loops. -/
theorem loops_tick (n : RaftNode σ) (due : Bool) : LoopsKept n (n.tick due) := by
  obtain ⟨m, heq, hm⟩ := n.tick_cases due
  rw [heq]
  refine LoopsKept.trans ?_ (.of_eq (threads_applyCommitted m))
  rcases hm with rfl | ⟨_, rfl⟩ | ⟨_, _, rfl⟩
  · exact .of_eq rfl
  · exact loops_broadcast n
  · exact loops_startElection n

/-- A vote keeps the loops, also where it decides the election. -/
theorem loops_voteReply (n : RaftNode σ) (peer : String) (req : RequestVoteRequest)
    (resp : RequestVoteResponse) : LoopsKept n (n.sendRequestVoteReply peer req resp) := by
  rcases n.sendRequestVoteReply_cases peer req resp with
    ⟨_, heq⟩ | heq | ⟨_, ⟨_, heq⟩ | ⟨_, heq⟩⟩
  · rw [heq]
    exact .of_eq (threads_becomeFollower n _ _)
  · rw [heq]
    exact .of_eq rfl
  · rw [heq]
    refine LoopsKept.trans ?_ (loops_becomeLeader _)
    exact .of_eq rfl
  · rw [heq]
    exact .of_eq rfl

/-! ## Requests -/

/-- A request for a vote is answered without threads. -/
theorem threads_handleRequestVote (n : RaftNode σ) (req : RequestVoteRequest) :
    threads (n.handleRequestVote req).1 = threads n := by
  rcases n.handleRequestVote_cases req with ⟨_, heq⟩ | ⟨m, hm, _, hout⟩
  · rw [heq]
  have hthreads : threads m = threads n := by
    rcases hm with ⟨_, rfl⟩ | ⟨_, rfl⟩
    · rfl
    · exact threads_becomeFollower n _ _
  rcases hout with ⟨_, _, heq⟩ | heq
  · rw [heq]
    exact hthreads
  · rw [heq]
    exact hthreads

/-- Following the leader's commits is no concern of the threads. -/
theorem threads_followCommit (n : RaftNode σ) (leaderCommit : Int) :
    threads (n.followCommitLocked leaderCommit) = threads n := by
  unfold followCommitLocked
  split
  · rw [threads_applyCommitted]
    rfl
  · rfl

/-- A request of a leader keeps the loops. -/
theorem loops_handleAppendEntries (n : RaftNode σ) (req : AppendEntriesRequest) :
    LoopsKept n (n.handleAppendEntries req).1 := by
  have hheard := loops_hearLeader n req.term req.leaderID
  rcases n.handleAppendEntries_cases req with ⟨_, heq⟩ | ⟨_, _, heq⟩ | ⟨_, _, heq⟩
  · rw [heq]
    exact .of_eq rfl
  · rw [heq]
    exact hheard
  · rw [heq]
    -- the merge and the commit do not touch threads
    refine hheard.trans (.of_eq ?_)
    rw [threads_followCommit]
    rcases (n.hearLeader req.term req.leaderID).mergeLocked_cases req with hm | hm
    · rw [hm]
    · rw [hm]
      rfl

/-- A snapshot keeps the loops. -/
theorem loops_handleInstallSnapshot (n : RaftNode σ) (req : InstallSnapshotRequest) :
    LoopsKept n (n.handleInstallSnapshot req).1 := by
  have hheard := loops_hearLeader n req.term req.leaderID
  rcases n.handleInstallSnapshot_cases req with ⟨_, heq⟩ | ⟨_, _, heq⟩ | ⟨_, _, heq⟩
  · rw [heq]
    exact .of_eq rfl
  · rw [heq]
    exact hheard
  · rw [heq]
    -- an installation that is carried out, and one that came too late
    refine hheard.trans (.of_eq ?_)
    obtain ⟨k, ⟨_, rfl⟩ | ⟨_, rfl⟩, hk⟩ := (n.hearLeader req.term req.leaderID).installLocked_eq req
    · rw [hk]
      rfl
    · rw [hk]
      rfl

/-! ## Replies -/

/-- A `replicateTo` for the peer is ready to go on or to end. -/
def InLoop (gs : List Goroutine) (p : String) : Prop :=
  .replicateTo p ∈ gs ∨ .replicateToDone p ∈ gs

theorem InLoop.mono {gs gs' : List Goroutine} {p : String} (h : InLoop gs p)
    (hsub : ∀ g ∈ gs, g ∈ gs') : InLoop gs' p :=
  h.imp (hsub _) (hsub _)

/-- After a call the goroutine goes on or ends. -/
structure LoopsOn (n : RaftNode σ) (peer : String) (n' : RaftNode σ) :
    Prop extends LoopsKept n n' where
  loop : InLoop n'.goroutines peer

/-- A round of the loop for `peer` ends in another one or in its last section. -/
theorem loopsOn_again (h : LoopsKept n m) (peer : String) (more : Bool) :
    LoopsOn n peer (m.replicateAgain peer more) := by
  refine ⟨h.trans (loops_spawn m _), ?_⟩
  cases more with
  | true => exact Or.inl (List.mem_append_right _ (List.mem_singleton_self _))
  | false => exact Or.inr (List.mem_append_right _ (List.mem_singleton_self _))

/-- A successful reply leads to another round or to the last section. -/
theorem loopsOn_matched (n : RaftNode σ) (peer : String) (index : Int) :
    LoopsOn n peer (n.matched peer index) := by
  refine loopsOn_again (LoopsKept.of_eq ?_) peer _
  rw [threads_settle]
  rfl

/-- The reply to `AppendEntries` continues the loop or ends it. -/
theorem loopsOn_appended (n : RaftNode σ) (peer : String) (req : AppendEntriesRequest)
    (resp : AppendEntriesResponse) : LoopsOn n peer (n.replicateToAppended peer req resp) := by
  rcases n.replicateToAppended_cases peer req resp with
    ⟨_, heq⟩ | ⟨_, ⟨_, heq⟩ | ⟨_, _, heq⟩ | ⟨m, hm, heq⟩⟩
  · rw [heq]
    exact loopsOn_again (.of_eq rfl) peer false
  · rw [heq]
    exact loopsOn_again (.of_eq (threads_becomeFollower n _ _)) peer false
  · rw [heq]
    exact loopsOn_matched n peer _
  · rw [heq]
    refine loopsOn_again (.of_eq ?_) peer true
    rcases hm with rfl | ⟨i, _, rfl⟩
    · rfl
    · rfl

/-- The reply to `InstallSnapshot` continues the loop or ends it. -/
theorem loopsOn_installed (n : RaftNode σ) (peer : String) (req : InstallSnapshotRequest)
    (resp : InstallSnapshotResponse) : LoopsOn n peer (n.replicateToInstalled peer req resp) := by
  rcases n.replicateToInstalled_cases peer req resp with ⟨_, heq⟩ | ⟨_, ⟨_, heq⟩ | ⟨_, heq⟩⟩
  · rw [heq]
    exact loopsOn_again (.of_eq rfl) peer false
  · rw [heq]
    exact loopsOn_again (.of_eq (threads_becomeFollower n _ _)) peer false
  · rw [heq]
    exact loopsOn_matched n peer _

/-! ## Proposals -/

theorem loops_appended (n : RaftNode σ) (index : Int) : LoopsKept n (n.appended index) := by
  refine LoopsKept.trans ?_ (loops_settle _)
  exact .of_eq rfl

/-- A proposal keeps the loops. -/
theorem loops_propose (n : RaftNode σ) (cmd : Bytes) : LoopsKept n (n.propose cmd).1 := by
  rcases n.propose_cases cmd with ⟨e, heq⟩ | ⟨_, heq⟩
  · rw [heq]
    exact .of_eq rfl
  · rw [heq]
    refine LoopsKept.trans ?_ (loops_appended _ _)
    exact .of_eq rfl

/-- A change of the membership keeps the loops. -/
theorem loops_proposeChange (n : RaftNode σ) (ch : MembershipChange) :
    LoopsKept n (n.proposeChangeLocked ch).1 := by
  rcases n.proposeChange_cases ch with ⟨e, heq⟩ | ⟨c, _, _, heq⟩
  · rw [heq]
    exact .of_eq rfl
  · rw [heq]
    -- new peers are tracked before the entry is sent
    refine LoopsKept.trans (.of_eq ?_) (loops_appended _ _)
    obtain ⟨next, mi, htrack, _⟩ := ensurePeerTracking_eq { n with
      log := n.log.append
        [{ term := n.currentTerm, index := n.log.lastLogIndexLocked + 1,
           change := some { ch with peers := c.1, httpAddrs := c.2 } }] }.rebuildMembershipLocked
    rw [htrack]
    rfl

/-! ## Starting -/

/-- The goroutines and marks alone. -/
def marks (n : RaftNode σ) : (String → Bool) × List Goroutine := (n.replicating, n.goroutines)

/-- Recovery marks no peer. -/
theorem marks_recover (n : RaftNode σ) (d : DurableState) : marks (n.recover d) = marks n := by
  have hload : marks (n.load d) = marks n := by
    unfold RaftNode.load
    cases d.log with
    | nil => cases d.snapshotPeers.isEmpty <;> rfl
    | cons head tail => cases d.snapshotPeers.isEmpty <;> rfl
  exact (RaftNode.recover_kept (f := marks) (fun _ _ _ _ => rfl) (fun _ => rfl)
    (fun _ => rfl)).trans hload

/-- A process starts without goroutines and without marks. -/
theorem marks_boot (M : Machine σ) (cfg : Config) (storage : Option Storage) :
    marks (RaftNode.boot M cfg storage) = (fun _ => false, []) := by
  have hnew : marks (RaftNode.newNode cfg storage (some M.snapshotter) M.init) =
      (fun _ => false, []) := by
    unfold RaftNode.newNode
    cases storage with
    | none => rfl
    | some st =>
      dsimp only
      split
      · exact marks_recover _ _
      · rfl
  -- `SetSnapshotter` restores the machine, and leaves the marks alone
  obtain ⟨x, la, ci, hx⟩ := RaftNode.boot_eq M cfg storage
  rw [hx]
  exact hnew

/-! ## The transport

Replication needs a transport, and a process never loses the one it is started with. -/

theorem transport_notify (m : RaftNode σ) :
    m.notifyPeersLocked.transport.isSome = m.transport.isSome :=
  Option.isSome_map

/-- Nothing removes the transport once it is set. -/
theorem kept_transport : Kept (σ := σ) (fun m => m.transport.isSome = true) where
  minor := by
    intro m m' hstep h
    cases hstep with
    | apply e _ _ =>
      obtain ⟨_, _, heq⟩ := m.applyNext_eq (m.lastApplied + 1) e
      rw [heq]
      exact h
    | compact e data s => exact (transport_notify _).trans h
    | _ => exact h
  append := fun _ _ h => h
  change := fun _ h => (transport_notify _).trans h

/-- Requests do not remove it either. -/
theorem accepts_transport (n : RaftNode σ) (ev : Event) :
    Accepts (fun m => m.transport.isSome = true) n ev := by
  cases ev with
  | appendEntries req =>
    intro m _ _ _ h
    rcases m.mergeLocked_cases req with hsame | hmerged
    · rw [hsame]
      exact h
    · rw [hmerged]
      exact (transport_notify _).trans h
  | installSnapshot req =>
    intro m _ _ h
    obtain ⟨k, ⟨_, rfl⟩ | ⟨_, rfl⟩, hk⟩ := m.installLocked_eq req
    · rw [hk]
      exact (transport_notify _).trans h
    · rw [hk]
      exact h
  | _ => trivial

/-! ## All sections -/

/-- A round of replication keeps the loops. -/
theorem loops_replicate (n : RaftNode σ) (peer : String) :
    LoopsKept n (handle n (.replicate peer)) := by
  obtain ⟨m, hm, hout⟩ := handle_replicate_cases n peer
  have hthreads : threads m = threads n := by
    rcases hm with rfl | rfl
    · rfl
    · rfl
  rcases hout with heq | heq
  · rw [heq]
    exact .of_eq hthreads
  · rw [heq]
    exact (LoopsKept.of_eq hthreads).trans (loops_spawn m _)

/-- A wait for the current term keeps the loops. -/
theorem loops_readIndex (n : RaftNode σ) : LoopsKept n n.waitCurrentTermPoll.1 := by
  unfold waitCurrentTermPoll
  split
  · exact .of_eq rfl
  split
  · exact .of_eq rfl
  · exact loops_broadcast n

/-- **Only the deferred function clears a mark for good**: every other section keeps the goroutines,
and marks no peer without one. -/
theorem loops_handle (n : RaftNode σ) (ev : Event) (hev : ∀ peer, ev ≠ .replicateDone peer) :
    LoopsKept n (handle n ev) := by
  cases ev with
  | tick due => exact loops_tick n due
  | requestVote req => exact .of_eq (threads_handleRequestVote n req)
  | appendEntries req => exact loops_handleAppendEntries n req
  | installSnapshot req => exact loops_handleInstallSnapshot n req
  | voteReply peer req resp => exact loops_voteReply n peer req resp
  | appendReply peer req resp => exact (loopsOn_appended n peer req resp).toLoopsKept
  | installReply peer req resp => exact (loopsOn_installed n peer req resp).toLoopsKept
  | confirmReply term resp =>
    simp only [handle, sendConfirmHeartbeatReply]
    split
    · exact .of_eq (threads_becomeFollower n _ _)
    · exact .of_eq rfl
  | replicate peer => exact loops_replicate n peer
  | replicateDone peer => exact absurd rfl (hev peer)
  | propose cmd => exact loops_propose n cmd
  | addServer target addr http =>
    simp only [handle, RaftNode.addServer]
    split
    · exact .of_eq rfl
    · exact loops_proposeChange n _
  | removeServer target =>
    simp only [handle, RaftNode.removeServer]
    split
    · exact .of_eq rfl
    · exact loops_proposeChange n _
  | readIndex => exact loops_readIndex n
  | crash => exact .of_eq rfl
  | restart => exact .of_eq rfl
  | clusterRestart raftAddrs httpAddrs => exact .of_eq rfl

/-- No section clears the flag that the loops look at. -/
theorem flags_handle (n : RaftNode σ) (ev : Event) : FlagsKept n (handle n ev) := by
  by_cases hev : ∃ peer, ev = .replicateDone peer
  · obtain ⟨peer, rfl⟩ := hev
    exact ⟨rfl, fun hj => hj⟩
  · exact (loops_handle n ev (fun peer heq => hev ⟨peer, heq⟩)).toFlagsKept

end Node
