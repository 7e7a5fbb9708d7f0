import RaftStore.Node.Event

/-!
# What a critical section does

Every critical section of a node is a sequence of a few kinds of updates, each of which leaves the
node in order. `Minor` lists the ones that keep the history behind the log: fields that are lost in
a crash, a new term or vote, the application of the next entry, a compaction. Besides them a section
changes the log at most once (`Effect`): it appends an entry of its own, merges the entries of a
leader, or installs a snapshot.

`handle_section` says so of every event. An invariant is then checked against these updates and not
against the sections of the code.
-/

namespace Node

open Raft Cluster

variable {σ : Type} {n m n' : RaftNode σ}

/-! ## Minor updates -/

/-- The fields that are lost in a crash, the state machine and what is applied to it apart. -/
structure Volatile where
  state : State
  joining : Bool
  commitIndex : Int
  nextIndex : String → Option Int
  matchIndex : String → Int
  replicating : String → Bool
  votesReceived : Finset String
  leaderID : String
  goroutines : List Goroutine

/-- The fields of a node that minor updates may set at will. -/
def volatile (n : RaftNode σ) : Volatile where
  state := n.state
  joining := n.joining
  commitIndex := n.commitIndex
  nextIndex := n.nextIndex
  matchIndex := n.matchIndex
  replicating := n.replicating
  votesReceived := n.votesReceived
  leaderID := n.leaderID
  goroutines := n.goroutines

/-- The node with these fields set. -/
def withVolatile (n : RaftNode σ) (v : Volatile) : RaftNode σ :=
  { n with
    state := v.state
    joining := v.joining
    commitIndex := v.commitIndex
    nextIndex := v.nextIndex
    matchIndex := v.matchIndex
    replicating := v.replicating
    votesReceived := v.votesReceived
    leaderID := v.leaderID
    goroutines := v.goroutines }

/-- The updates that keep the history behind the log. -/
inductive Minor (n : RaftNode σ) : RaftNode σ → Prop
  | volatile (v : Volatile) : Minor n (withVolatile n v)
  | ballot (term : Int) (vote : String)
      (h : n.currentTerm < term ∨
        term = n.currentTerm ∧ (n.votedFor = "" ∨ n.votedFor = vote)) :
      Minor n { n with currentTerm := term, votedFor := vote }.persistLocked
  | apply (e : LogEntry) (hlt : n.lastApplied < n.commitIndex)
      (he : n.log.entryAtLocked (n.lastApplied + 1) = some e) :
      Minor n (n.applyNext (n.lastApplied + 1) e)
  | compact (e : LogEntry) (data : Bytes) (s : Snapshotter σ)
      (hidx : n.log.lastIncludedIndexLocked < n.lastApplied)
      (he : n.log.entryAtLocked n.lastApplied = some e) (hs : n.snapshotter = some s)
      (hdata : s.snapshot n.machine = some data) : Minor n (n.compactTo n.lastApplied e data)

/-- A sequence of minor updates. -/
abbrev Quiet : RaftNode σ → RaftNode σ → Prop := Relation.ReflTransGen Minor

theorem Quiet.rfl : Quiet n n := Relation.ReflTransGen.refl

theorem quiet_volatile (n : RaftNode σ) (v : Volatile) : Quiet n (withVolatile n v) :=
  .single (.volatile v)

/-- **The rule for quiet sequences.** -/
theorem Quiet.invariant {P : RaftNode σ → Prop} (hP : ∀ m m', Minor m m' → P m → P m')
    (h : Quiet n n') (hn : P n) : P n' := by
  induction h with
  | refl => exact hn
  | tail _ hstep ih => exact hP _ _ hstep ih

/-! ## Bookkeeping -/

theorem quiet_spawn (n : RaftNode σ) (g : Goroutine) : Quiet n (n.spawn g) :=
  quiet_volatile n { volatile n with goroutines := _ }

theorem quiet_replicateAgain (n : RaftNode σ) (peer : String) (more : Bool) :
    Quiet n (n.replicateAgain peer more) := quiet_spawn n _

theorem quiet_setNext (n : RaftNode σ) (peer : String) (i : Int) : Quiet n (n.setNext peer i) :=
  quiet_volatile n { volatile n with nextIndex := _ }

theorem quiet_setMatch (n : RaftNode σ) (peer : String) (i : Int) : Quiet n (n.setMatch peer i) :=
  quiet_volatile n { volatile n with matchIndex := _ }

theorem quiet_trackSelf (n : RaftNode σ) (i : Int) : Quiet n (n.trackSelf i) :=
  (quiet_setMatch n n.id i).trans (quiet_setNext _ _ _)

/-- A loop of minor updates is one. -/
theorem quiet_foldl {β : Type} {f : RaftNode σ → β → RaftNode σ} (hf : ∀ m x, Quiet m (f m x))
    (l : List β) (n : RaftNode σ) : Quiet n (l.foldl f n) := by
  induction l generalizing n with
  | nil => exact Quiet.rfl
  | cons x rest ih => exact (hf n x).trans (ih _)

theorem quiet_broadcast (n : RaftNode σ) : Quiet n n.broadcastAppendEntriesLocked := by
  obtain ⟨r, g, heq⟩ := n.broadcast_eq
  rw [heq]
  exact quiet_volatile n { volatile n with replicating := r, goroutines := g }

/-! ## Terms and votes -/

/-- Stepping down forgets the vote only in a new term. -/
theorem quiet_becomeFollower (n : RaftNode σ) (term : Int) (leaderID : String) :
    Quiet n (n.becomeFollowerLocked term leaderID) := by
  unfold RaftNode.becomeFollowerLocked
  dsimp only
  split
  · next hgt =>
    refine Relation.ReflTransGen.head (.ballot term "" (Or.inl hgt)) ?_
    exact quiet_volatile _ { volatile n with state := .follower, leaderID := leaderID }
  · exact quiet_volatile n { volatile n with state := .follower, leaderID := leaderID }

/-- Hearing of a leader is minor, also where it ends the wait of a joining node. -/
theorem quiet_hearLeader (n : RaftNode σ) (term : Int) (leaderID : String) :
    Quiet n (n.hearLeader term leaderID) := by
  have hmark : ∀ m : RaftNode σ, Quiet m { m with leaderID := leaderID, joining := false } :=
    fun m => quiet_volatile m { volatile m with leaderID := leaderID, joining := false }
  unfold RaftNode.hearLeader
  dsimp only
  split
  · exact (quiet_becomeFollower n term leaderID).trans (hmark _)
  · exact hmark n

/-- A request for a vote changes the ballot at most. -/
theorem quiet_handleRequestVote (n : RaftNode σ) (req : RequestVoteRequest) :
    Quiet n (n.handleRequestVote req).1 := by
  rcases n.handleRequestVote_cases req with ⟨_, heq⟩ | ⟨m, hm, _, hvoted⟩
  · rw [heq]
  have hterm : Quiet n m := by
    rcases hm with ⟨_, rfl⟩ | ⟨_, rfl⟩
    · exact Quiet.rfl
    · exact quiet_becomeFollower n _ _
  -- the vote is cast in the present term, where none was cast for another
  rcases hvoted with ⟨hcan, _, heq⟩ | heq
  · rw [heq]
    exact hterm.tail (Minor.ballot m.currentTerm req.candidateID (Or.inr ⟨rfl, hcan⟩))
  · rw [heq]
    exact hterm

/-! ## Applying and committing -/

/-- Applying commands is a sequence of minor updates. -/
theorem quiet_applyLoop (k : Nat) (n : RaftNode σ) : Quiet n (RaftNode.applyLoop k n) := by
  induction k generalizing n with
  | zero => exact Quiet.rfl
  | succ k ih =>
    unfold RaftNode.applyLoop
    split
    · next hlt =>
      split
      · exact Quiet.rfl
      -- one command, then the rest
      · next e he => exact Relation.ReflTransGen.head (.apply e hlt he) (ih _)
    · exact Quiet.rfl

/-- A compaction is one minor update. -/
theorem quiet_maybeCompact (n : RaftNode σ) : Quiet n n.maybeCompactLocked := by
  rcases n.maybeCompact_cases with ⟨hsame, _⟩ | ⟨e, data, hdue, hcompact⟩
  · rw [hsame]
  · obtain ⟨s, hs, hdata⟩ := hdue.hook
    rw [hcompact]
    exact .single (.compact e data s hdue.head_lt hdue.entry hs hdata)

theorem quiet_applyCommitted (n : RaftNode σ) : Quiet n n.applyCommittedLocked :=
  (quiet_applyLoop _ n).trans (quiet_maybeCompact _)

theorem quiet_advanceCommit (n : RaftNode σ) : Quiet n n.advanceCommitLocked := by
  obtain ⟨i, _, heq⟩ := n.advanceCommit_eq
  rw [heq]
  exact quiet_volatile n { volatile n with commitIndex := i }

/-- Following the leader's commit index is minor. -/
theorem quiet_followCommit (n : RaftNode σ) (leaderCommit : Int) :
    Quiet n (n.followCommitLocked leaderCommit) := by
  unfold RaftNode.followCommitLocked
  split
  · exact (quiet_volatile n { volatile n with commitIndex := _ }).trans (quiet_applyCommitted _)
  · exact Quiet.rfl

/-- The steps after an append. -/
theorem quiet_settle (n : RaftNode σ) : Quiet n
    n.advanceCommitLocked.applyCommittedLocked.broadcastAppendEntriesLocked :=
  ((quiet_advanceCommit n).trans (quiet_applyCommitted _)).trans (quiet_broadcast _)

theorem quiet_appended (n : RaftNode σ) (index : Int) : Quiet n.persistLocked (n.appended index) :=
  (quiet_trackSelf _ index).trans (quiet_settle _)

/-! ## Replies -/

/-- A successful reply is counted, and what it commits is applied. -/
theorem quiet_matched (n : RaftNode σ) (peer : String) (index : Int) :
    Quiet n (n.matched peer index) := by
  have htrack := (quiet_setMatch n peer index).trans (quiet_setNext _ peer (index + 1))
  have hsettle := (htrack.trans (quiet_advanceCommit _)).trans (quiet_applyCommitted _)
  exact hsettle.trans (quiet_replicateAgain _ peer _)

theorem quiet_stepDown (n : RaftNode σ) (term : Int) (peer : String) :
    Quiet n ((n.becomeFollowerLocked term "").replicateAgain peer false) :=
  (quiet_becomeFollower n term "").trans (quiet_replicateAgain _ _ _)

/-- The reply to `InstallSnapshot` changes no log. -/
theorem quiet_replicateToInstalled (n : RaftNode σ) (peer : String) (req : InstallSnapshotRequest)
    (resp : InstallSnapshotResponse) : Quiet n (n.replicateToInstalled peer req resp) := by
  rcases n.replicateToInstalled_cases peer req resp with
    ⟨_, heq⟩ | ⟨_, ⟨_, heq⟩ | ⟨_, heq⟩⟩
  · rw [heq]
    exact quiet_replicateAgain n peer false
  · rw [heq]
    exact quiet_stepDown n _ peer
  · rw [heq]
    exact quiet_matched n peer _

/-- The reply to `AppendEntries` changes no log. -/
theorem quiet_replicateToAppended (n : RaftNode σ) (peer : String) (req : AppendEntriesRequest)
    (resp : AppendEntriesResponse) : Quiet n (n.replicateToAppended peer req resp) := by
  rcases n.replicateToAppended_cases peer req resp with
    ⟨_, heq⟩ | ⟨_, ⟨_, heq⟩ | ⟨_, _, heq⟩ | ⟨m, rfl | ⟨i, _, rfl⟩, heq⟩⟩
  · rw [heq]
    exact quiet_replicateAgain n peer false
  · rw [heq]
    exact quiet_stepDown n _ peer
  · rw [heq]
    exact quiet_matched n peer _
  · rw [heq]
    exact quiet_replicateAgain _ peer true
  · rw [heq]
    exact (quiet_setNext n peer i).trans (quiet_replicateAgain _ peer true)

/-- A round of replication changes no log. -/
theorem quiet_replicate (n : RaftNode σ) (peer : String) :
    Quiet n (handle n (.replicate peer)) := by
  obtain ⟨m, hm, heq⟩ := handle_replicate_cases n peer
  have hquiet : Quiet n m := by
    rcases hm with rfl | rfl
    · exact Quiet.rfl
    · exact quiet_setNext n peer _
  rcases heq with heq | heq
  · rw [heq]
    exact hquiet
  · rw [heq]
    exact hquiet.trans (quiet_replicateAgain m peer false)

/-- A wait for the current term changes no log. -/
theorem quiet_waitCurrentTermPoll (n : RaftNode σ) : Quiet n n.waitCurrentTermPoll.1 := by
  unfold RaftNode.waitCurrentTermPoll
  split
  · exact Quiet.rfl
  split
  · exact Quiet.rfl
  · exact quiet_broadcast n

/-- The reply to a confirming heartbeat changes no log. -/
theorem quiet_sendConfirmHeartbeatReply (n : RaftNode σ) (term : Int)
    (resp : AppendEntriesResponse) : Quiet n (n.sendConfirmHeartbeatReply term resp).1 := by
  unfold RaftNode.sendConfirmHeartbeatReply
  split
  · exact quiet_becomeFollower n _ _
  · exact Quiet.rfl

/-! ## Changes of the log -/

/-- What a section does to the history behind the log. -/
inductive Effect
  | none
  | append (e : LogEntry)
  | merge (req : AppendEntriesRequest)
  | install (req : InstallSnapshotRequest)

/-- The entry for a membership change that leads to the configuration `c`. -/
def changeEntry (n : RaftNode σ) (ch : MembershipChange) (c : AddrMap × AddrMap) : LogEntry where
  term := n.currentTerm
  index := n.log.lastLogIndexLocked + 1
  change := some { ch with peers := c.1, httpAddrs := c.2 }

/-- A section that changes the log: minor updates, the change, minor updates. -/
inductive Section (n : RaftNode σ) : Effect → RaftNode σ → Prop
  | none {n' : RaftNode σ} (h : Quiet n n') : Section n .none n'
  | append {m n' : RaftNode σ} {e : LogEntry} (hm : Quiet n m) (hlog : m.log = n.log)
      (hterm : e.term = m.currentTerm)
      (hidx : e.index = n.log.lastLogIndexLocked + 1) (hch : e.change = Option.none)
      (hn : Quiet { m with log := m.log.append [e] }.persistLocked n') : Section n (.append e) n'
  | change {n' : RaftNode σ} {ch : MembershipChange} {c : AddrMap × AddrMap}
      (hc : n.changedPeers ch = .ok c)
      (hn : Quiet { n with
        log := n.log.append
          [changeEntry n ch c] }.rebuildMembershipLocked.notifyPeersLocked.persistLocked n') :
      Section n (.append (changeEntry n ch c)) n'
  | merge {m n' : RaftNode σ} {req : AppendEntriesRequest} (hm : Quiet n m) (hlog : m.log = n.log)
      (hla : m.lastApplied = n.lastApplied) (hprev : n.PrevMatches req)
      (hn : Quiet (m.mergeLocked req) n') : Section n (.merge req) n'
  | install {m n' : RaftNode σ} {req : InstallSnapshotRequest} (hm : Quiet n m)
      (hlog : m.log = n.log) (hidx : n.log.lastIncludedIndexLocked < req.lastIncludedIndex)
      (hn : Quiet (m.installLocked req) n') : Section n (.install req) n'

/-- The entry a node appends when an event has made it the leader. -/
def leads (n n' : RaftNode σ) : Effect :=
  if n.state ≠ .leader ∧ n'.state = .leader then
    .append { term := n'.currentTerm, index := n.log.lastLogIndexLocked + 1 }
  else .none

/-- The entry a leader appends for a membership change it accepts. -/
def changes (n : RaftNode σ) (ch : MembershipChange) (result : Except Err Int) : Effect :=
  match result, n.changedPeers ch with
  | .ok _, .ok c => .append (changeEntry n ch c)
  | _, _ => .none

/-- What an event does to the history behind the log. -/
def effect (n : RaftNode σ) : Event → Effect
  | .tick due => leads n (n.tick due)
  | .voteReply peer req resp => leads n (n.sendRequestVoteReply peer req resp)
  | .propose cmd =>
    match (n.propose cmd).2 with
    | .ok (index, term) => .append { term := term, index := index, command := cmd }
    | .error _ => .none
  | .addServer target addr http =>
    changes n { type := changeAdd, id := target, addr := addr, http := http }
      (n.addServer target addr http).2
  | .removeServer target =>
    changes n { type := changeRemove, id := target } (n.removeServer target).2
  | .appendEntries req => if (n.handleAppendEntries req).2.success then .merge req else .none
  | .installSnapshot req =>
    if n.currentTerm ≤ req.term ∧ n.log.lastIncludedIndexLocked < req.lastIncludedIndex then
      .install req
    else .none
  | _ => .none

/-! ### Leading -/

/-- The no-op of a new leader. -/
theorem quiet_becomeLeader (n : RaftNode σ) :
    Quiet ({ n with
        log := n.log.append [{ term := n.currentTerm, index := n.log.lastLogIndexLocked + 1 }] } :
          RaftNode σ).persistLocked
      n.becomeLeaderLocked := by
  refine Relation.ReflTransGen.trans ?_ (quiet_settle _)
  exact quiet_volatile _ { volatile n with
    state := .leader, leaderID := n.id, nextIndex := _, matchIndex := _, replicating := _ }

/-- What follows an append keeps role, term and vote. -/
theorem settle_fields (n : RaftNode σ) :
    n.advanceCommitLocked.applyCommittedLocked.broadcastAppendEntriesLocked.state = n.state ∧
      n.advanceCommitLocked.applyCommittedLocked.broadcastAppendEntriesLocked.currentTerm =
        n.currentTerm ∧
      n.advanceCommitLocked.applyCommittedLocked.broadcastAppendEntriesLocked.votedFor =
        n.votedFor := by
  obtain ⟨r, g, hb⟩ := n.advanceCommitLocked.applyCommittedLocked.broadcast_eq
  obtain ⟨i, _, ha⟩ := n.advanceCommit_eq
  rw [hb]
  dsimp only
  rw [RaftNode.state_applyCommitted, RaftNode.currentTerm_applyCommitted,
    RaftNode.votedFor_applyCommitted, ha]
  exact ⟨rfl, rfl, rfl⟩

/-- A new leader leads the term that it campaigned in. -/
theorem becomeLeader_fields (n : RaftNode σ) :
    n.becomeLeaderLocked.state = .leader ∧ n.becomeLeaderLocked.currentTerm = n.currentTerm ∧
      n.becomeLeaderLocked.votedFor = n.votedFor := by
  unfold RaftNode.becomeLeaderLocked
  simp only [settle_fields, RaftNode.persistLocked, RaftNode.trackSelf, RaftNode.resetTracking,
    RaftNode.setMatch, RaftNode.setNext, and_self]

/-- The section of a node that has become leader. -/
theorem section_becomeLeader (hm : Quiet n m) (hlog : m.log = n.log)
    (hn : Quiet m.becomeLeaderLocked n') :
    Section n (.append { term := m.currentTerm, index := n.log.lastLogIndexLocked + 1 }) n' := by
  refine Section.append hm hlog rfl rfl rfl ?_
  rw [← hlog]
  exact (quiet_becomeLeader m).trans hn

theorem quiet_spawns (peers : List String) (req : RequestVoteRequest) (n : RaftNode σ) :
    Quiet n (peers.foldl (fun n' peer => n'.spawn (.sendRequestVote peer req)) n) :=
  quiet_foldl (fun m _ => quiet_spawn m _) peers n

/-- An election is lost or still open, or it makes the node a leader at once. -/
theorem startElection_cases (hs : n.state ≠ .leader) :
    (Quiet n n.startElectionLocked ∧ n.startElectionLocked.state ≠ .leader) ∨
      ∃ m, Quiet n m ∧ m.log = n.log ∧ n.startElectionLocked = m.becomeLeaderLocked := by
  unfold RaftNode.startElectionLocked
  split
  · exact Or.inl ⟨Quiet.rfl, hs⟩
  dsimp only
  -- the campaign changes the ballot first
  have hballot : Quiet n ({ n with
      state := .candidate, currentTerm := n.currentTerm + 1, votedFor := n.id, leaderID := "",
      votesReceived := {n.id} } : RaftNode σ).persistLocked := by
    refine Relation.ReflTransGen.head (.ballot (n.currentTerm + 1) n.id (Or.inl (by omega))) ?_
    exact quiet_volatile _ { volatile n with
      state := .candidate, leaderID := "", votesReceived := {n.id} }
  split
  · exact Or.inr ⟨_, hballot, rfl, rfl⟩
  · refine Or.inl ⟨hballot.trans (quiet_spawns _ _ _), ?_⟩
    rw [RaftNode.foldl_spawn]
    exact fun h => State.noConfusion h

/-- A tick appends an entry only where it makes a leader. -/
theorem section_tick (n : RaftNode σ) (due : Bool) :
    Section n (leads n (n.tick due)) (n.tick due) := by
  -- where nobody starts to lead, nothing is appended
  have hquiet : ∀ {m : RaftNode σ}, Quiet n m →
      m.applyCommittedLocked.state ≠ .leader ∨ n.state = .leader →
      Section n (leads n m.applyCommittedLocked) m.applyCommittedLocked := by
    intro m hm hs
    unfold leads
    rw [if_neg (fun h => hs.elim (fun h' => h' h.2) h.1)]
    exact Section.none (hm.trans (quiet_applyCommitted m))
  obtain ⟨k, heq, rfl | ⟨hld, rfl⟩ | ⟨hs, _, rfl⟩⟩ := n.tick_cases due
  · rw [heq]
    refine hquiet Quiet.rfl ?_
    rw [RaftNode.state_applyCommitted]
    exact (em _).symm
  · rw [heq]
    exact hquiet (quiet_broadcast n) (Or.inr hld)
  -- an election, lost for now or won
  · rw [heq]
    rcases startElection_cases hs with ⟨hq, hst⟩ | ⟨m, hm, hlog, hwon⟩
    · exact hquiet hq (Or.inl (by rwa [RaftNode.state_applyCommitted]))
    · have hsec := section_becomeLeader hm hlog (quiet_applyCommitted m.becomeLeaderLocked)
      rw [hwon]
      unfold leads
      rw [RaftNode.state_applyCommitted, RaftNode.currentTerm_applyCommitted,
        (becomeLeader_fields m).1, (becomeLeader_fields m).2.1, if_pos ⟨hs, rfl⟩]
      exact hsec

/-- A vote appends an entry only where it makes a leader. -/
theorem section_voteReply (n : RaftNode σ) (peer : String) (req : RequestVoteRequest)
    (resp : RequestVoteResponse) :
    Section n (leads n (n.sendRequestVoteReply peer req resp))
      (n.sendRequestVoteReply peer req resp) := by
  have hquiet : ∀ {m : RaftNode σ}, Quiet n m → (n.state ≠ .leader → m.state ≠ .leader) →
      Section n (leads n m) m := by
    intro m hm hs
    unfold leads
    rw [if_neg (fun h => hs h.1 h.2)]
    exact Section.none hm
  have hvotes : Quiet n { n with votesReceived := insert peer n.votesReceived } :=
    quiet_volatile n { volatile n with votesReceived := insert peer n.votesReceived }
  rcases n.sendRequestVoteReply_cases peer req resp with
    ⟨_, heq⟩ | heq | ⟨⟨hcand, _⟩, ⟨_, heq⟩ | ⟨_, heq⟩⟩
  · rw [heq]
    exact hquiet (quiet_becomeFollower n _ _) (fun _ h => State.noConfusion h)
  · rw [heq]
    exact hquiet Quiet.rfl id
  -- the last vote: a candidate starts to lead
  · have hs : n.state ≠ .leader := by
      rw [hcand]
      decide
    have hsec := section_becomeLeader hvotes rfl Quiet.rfl
    rw [heq]
    unfold leads
    rw [(becomeLeader_fields _).1, (becomeLeader_fields _).2.1, if_pos ⟨hs, rfl⟩]
    exact hsec
  · rw [heq]
    exact hquiet hvotes id

/-! ### Proposing -/

/-- A proposal appends what `effect` says. -/
theorem section_propose (n : RaftNode σ) (cmd : Bytes) :
    Section n (effect n (.propose cmd)) (n.propose cmd).1 := by
  rcases n.propose_cases cmd with ⟨e, heq⟩ | ⟨_, heq⟩
  · simp only [effect, heq]
    exact Section.none Quiet.rfl
  · simp only [effect, heq]
    exact Section.append Quiet.rfl rfl rfl rfl rfl (quiet_appended _ _)

/-- Tracking new peers is bookkeeping, so it may come last. -/
theorem quiet_ensurePeerTracking (n : RaftNode σ) :
    Quiet n.notifyPeersLocked.persistLocked
      n.ensurePeerTrackingLocked.notifyPeersLocked.persistLocked := by
  obtain ⟨next, mi, heq, _⟩ := n.ensurePeerTracking_eq
  rw [heq]
  exact quiet_volatile _ { volatile n with nextIndex := next, matchIndex := mi }

/-- A change of the membership appends what `changes` says. -/
theorem section_proposeChange (n : RaftNode σ) (ch : MembershipChange) :
    Section n (changes n ch (n.proposeChangeLocked ch).2) (n.proposeChangeLocked ch).1 := by
  rcases n.proposeChange_cases ch with ⟨e, heq⟩ | ⟨c, hc, _, heq⟩
  · rw [heq]
    exact Section.none Quiet.rfl
  -- the entry is appended, and new peers are tracked
  · rw [heq]
    simp only [changes, hc]
    refine Section.change hc ?_
    exact (quiet_ensurePeerTracking _).trans (quiet_appended _ _)

/-! ### Following -/

theorem lastApplied_hearLeader (n : RaftNode σ) (term : Int) (leaderID : String) :
    (n.hearLeader term leaderID).lastApplied = n.lastApplied := by
  obtain ⟨_, _, _, _, heq⟩ := n.hearLeader_eq term leaderID
  rw [heq]

theorem commitIndex_hearLeader (n : RaftNode σ) (term : Int) (leaderID : String) :
    (n.hearLeader term leaderID).commitIndex = n.commitIndex := by
  obtain ⟨_, _, _, _, heq⟩ := n.hearLeader_eq term leaderID
  rw [heq]

theorem commitIndex_mergeLocked (n : RaftNode σ) (req : AppendEntriesRequest) :
    (n.mergeLocked req).commitIndex = n.commitIndex := by
  rcases n.mergeLocked_cases req with hsame | hmerged
  · rw [hsame]
  · rw [hmerged]
    rfl

/-- A request of a leader merges its entries, or changes no log. -/
theorem section_appendEntries (n : RaftNode σ) (req : AppendEntriesRequest) :
    Section n (effect n (.appendEntries req)) (n.handleAppendEntries req).1 := by
  have hhear := quiet_hearLeader n req.term req.leaderID
  simp only [effect]
  rcases n.handleAppendEntries_cases req with ⟨_, heq⟩ | ⟨_, _, heq⟩ | ⟨_, hprev, heq⟩
  · rw [heq]
    exact Section.none Quiet.rfl
  · rw [heq]
    exact Section.none hhear
  · rw [heq]
    exact Section.merge hhear (n.log_hearLeader _ _) (lastApplied_hearLeader n _ _) hprev
      (quiet_followCommit _ _)

/-- A snapshot is installed, or no log changes. -/
theorem section_installSnapshot (n : RaftNode σ) (req : InstallSnapshotRequest) :
    Section n (effect n (.installSnapshot req)) (n.handleInstallSnapshot req).1 := by
  have hhear := quiet_hearLeader n req.term req.leaderID
  simp only [effect]
  rcases n.handleInstallSnapshot_cases req with ⟨hterm, heq⟩ | ⟨_, hidx, heq⟩ | ⟨hterm, hidx, heq⟩
  · rw [heq, if_neg (by omega)]
    exact Section.none Quiet.rfl
  · rw [heq, if_neg (by omega)]
    exact Section.none hhear
  · rw [heq, if_pos ⟨hterm, hidx⟩]
    exact Section.install hhear (n.log_hearLeader _ _) hidx Quiet.rfl

/-! ### Every event -/

/-- **What an event does.** -/
theorem handle_section (n : RaftNode σ) (ev : Event) : Section n (effect n ev) (handle n ev) := by
  cases ev with
  | tick due => exact section_tick n due
  | requestVote req => exact Section.none (quiet_handleRequestVote n req)
  | appendEntries req => exact section_appendEntries n req
  | installSnapshot req => exact section_installSnapshot n req
  | voteReply peer req resp => exact section_voteReply n peer req resp
  | appendReply peer req resp => exact Section.none (quiet_replicateToAppended n peer req resp)
  | installReply peer req resp => exact Section.none (quiet_replicateToInstalled n peer req resp)
  | confirmReply term resp => exact Section.none (quiet_sendConfirmHeartbeatReply n term resp)
  | replicate peer => exact Section.none (quiet_replicate n peer)
  | replicateDone peer =>
    exact Section.none (quiet_volatile n { volatile n with replicating := _ })
  | propose cmd => exact section_propose n cmd
  | addServer target addr http =>
    simp only [effect, handle, RaftNode.addServer]
    by_cases hargs : target = "" ∨ addr = ""
    · simp only [if_pos hargs]
      exact Section.none Quiet.rfl
    · simp only [if_neg hargs]
      exact section_proposeChange n _
  | removeServer target =>
    simp only [effect, handle, RaftNode.removeServer]
    by_cases hargs : target = ""
    · simp only [if_pos hargs]
      exact Section.none Quiet.rfl
    · simp only [if_neg hargs]
      exact section_proposeChange n _
  | readIndex => exact Section.none (quiet_waitCurrentTermPoll n)
  | crash => exact Section.none Quiet.rfl
  | restart => exact Section.none Quiet.rfl
  | clusterRestart raftAddrs httpAddrs => exact Section.none Quiet.rfl

/-! ## Which event it was -/

/-- The effects of a node on its own. -/
def Effect.Own : Effect → Prop
  | .none | .append _ => True
  | .merge _ | .install _ => False

theorem own_leads (n n' : RaftNode σ) : (leads n n').Own := by
  unfold leads
  split <;> trivial

theorem own_changes (n : RaftNode σ) (ch : MembershipChange) (result : Except Err Int) :
    (changes n ch result).Own := by
  unfold changes
  split <;> trivial

/-- Only the two handlers take a log from others. -/
theorem effect_cases (n : RaftNode σ) (ev : Event) :
    (effect n ev).Own ∨ (∃ req, ev = .appendEntries req ∧ effect n ev = .merge req) ∨
      ∃ req, ev = .installSnapshot req ∧ effect n ev = .install req := by
  cases ev with
  | tick due => exact Or.inl (own_leads n _)
  | voteReply peer req resp => exact Or.inl (own_leads n _)
  | propose cmd =>
    left
    simp only [effect]
    split <;> trivial
  | addServer target addr http => exact Or.inl (own_changes n _ _)
  | removeServer target => exact Or.inl (own_changes n _ _)
  | appendEntries req =>
    simp only [effect]
    split
    · exact Or.inr (Or.inl ⟨req, rfl, rfl⟩)
    · exact Or.inl trivial
  | installSnapshot req =>
    simp only [effect]
    split
    · exact Or.inr (Or.inr ⟨req, rfl, rfl⟩)
    · exact Or.inl trivial
  | _ => exact Or.inl trivial

/-- Only `AppendEntries` merges. -/
theorem eq_of_effect_merge {ev : Event} {req : AppendEntriesRequest}
    (h : effect n ev = .merge req) : ev = .appendEntries req := by
  rcases effect_cases n ev with hown | ⟨r, hev, heff⟩ | ⟨r, _, heff⟩
  · rw [h] at hown
    exact hown.elim
  · obtain rfl : r = req := Effect.merge.inj (heff.symm.trans h)
    exact hev
  · cases heff.symm.trans h

/-- Only `InstallSnapshot` installs. -/
theorem eq_of_effect_install {ev : Event} {req : InstallSnapshotRequest}
    (h : effect n ev = .install req) : ev = .installSnapshot req := by
  rcases effect_cases n ev with hown | ⟨r, _, heff⟩ | ⟨r, hev, heff⟩
  · rw [h] at hown
    exact hown.elim
  · cases heff.symm.trans h
  · obtain rfl : r = req := Effect.install.inj (heff.symm.trans h)
    exact hev

end Node
