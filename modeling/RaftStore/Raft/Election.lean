import RaftStore.Raft.Replication

/-!
# Elections, the ticker and proposals

`election.go`, the ticker and `becomeLeaderLocked` of `node.go`, and the calls that append
to a leader's log: `Propose`, `AddServer`, `RemoveServer`. `sendRequestVote` is cut at its
RPC like `replicateTo`: `sendRequestVoteReply` is the section that takes the reply.
-/

namespace Raft

variable {σ : Type}

namespace RaftNode

/-! ## Becoming leader -/

/-- `n.log = append(n.log, e)` by a leader, which tracks itself as a peer. -/
def trackSelf (n : RaftNode σ) (index : Int) : RaftNode σ :=
  (n.setMatch n.id index).setNext n.id (index + 1)

/-- Fresh tracking maps: every peer is expected to need what comes after `last`. -/
def resetTracking (n : RaftNode σ) (last : Int) : RaftNode σ :=
  { n with
    nextIndex := fun p => if p ∈ n.peerIDs then some (last + 1) else none
    matchIndex := fun _ => 0
    replicating := fun _ => false }

def becomeLeaderLocked (n : RaftNode σ) : RaftNode σ :=
  let n := { n with state := .leader, leaderID := n.id }
  let last := n.log.lastLogIndexLocked
  let n := n.resetTracking last
  -- a no-op of the current term lets the leader commit what earlier terms left behind
  let n := { n with log := n.log.append [{ term := n.currentTerm, index := last + 1 }] }
  let n := (n.trackSelf (last + 1)).persistLocked
  n.advanceCommitLocked.applyCommittedLocked.broadcastAppendEntriesLocked

/-! ## Elections -/

/-- The request a candidate sends to every peer. -/
def voteRequest (n : RaftNode σ) : RequestVoteRequest where
  term := n.currentTerm
  candidateID := n.id
  lastLogIndex := n.log.lastLogIndexLocked
  lastLogTerm := n.log.lastLogTermLocked

/-- `startElectionLocked`. The term is an unbounded integer here, where Go's `int` would wrap around
at `math.MaxInt64`. -/
def startElectionLocked (n : RaftNode σ) : RaftNode σ :=
  if n.joining || !n.isVoterLocked then n
  else
    let n :=
      { n with
        state := .candidate
        currentTerm := n.currentTerm + 1
        votedFor := n.id
        leaderID := ""
        votesReceived := {n.id} }.persistLocked
    if n.votesReceived.card ≥ n.majority then n.becomeLeaderLocked
    else
      (n.peerIDs.filter (· ≠ n.id)).foldl
        (fun n' peer => n'.spawn (.sendRequestVote peer n.voteRequest)) n

/-- The requests of a candidate are goroutines, and nothing else has changed. -/
theorem foldl_spawn (peers : List String) (req : RequestVoteRequest) (n : RaftNode σ) :
    peers.foldl (fun n' peer => n'.spawn (.sendRequestVote peer req)) n =
      { n with goroutines := n.goroutines ++ peers.map (.sendRequestVote · req) } := by
  induction peers generalizing n with
  | nil => simp
  | cons p rest ih =>
    rw [List.foldl_cons, ih]
    simp [spawn]

def sendRequestVoteReply (n : RaftNode σ) (peer : String) (req : RequestVoteRequest)
    (resp : RequestVoteResponse) : RaftNode σ :=
  if resp.term > n.currentTerm then n.becomeFollowerLocked resp.term ""
  else if n.state ≠ .candidate ∨ n.currentTerm ≠ req.term then n
  else if !resp.voteGranted then n
  else
    let n := { n with votesReceived := insert peer n.votesReceived }
    if n.votesReceived.card ≥ n.majority then n.becomeLeaderLocked else n

/-- **The outcomes of a vote**: the voter is in a later term, the vote does not count, or it counts
and may be the one that was missing. -/
theorem sendRequestVoteReply_cases (n : RaftNode σ) (peer : String) (req : RequestVoteRequest)
    (resp : RequestVoteResponse) :
    (n.currentTerm < resp.term ∧
      n.sendRequestVoteReply peer req resp = n.becomeFollowerLocked resp.term "") ∨
    n.sendRequestVoteReply peer req resp = n ∨
    (n.state = .candidate ∧ n.currentTerm = req.term ∧ resp.voteGranted = true) ∧
      ((n.majority ≤ (insert peer n.votesReceived).card ∧ n.sendRequestVoteReply peer req resp =
          { n with votesReceived := insert peer n.votesReceived }.becomeLeaderLocked) ∨
        ((insert peer n.votesReceived).card < n.majority ∧ n.sendRequestVoteReply peer req resp =
          { n with votesReceived := insert peer n.votesReceived })) := by
  unfold sendRequestVoteReply
  split
  · next hlt => exact Or.inl ⟨hlt, rfl⟩
  split
  · exact Or.inr (Or.inl rfl)
  next hcur =>
  push Not at hcur
  split
  · exact Or.inr (Or.inl rfl)
  next hyes =>
  refine Or.inr (Or.inr ⟨⟨hcur.1, hcur.2, by simpa using hyes⟩, ?_⟩)
  dsimp only
  split
  · next hmany => exact Or.inl ⟨hmany, rfl⟩
  · next hfew => exact Or.inr ⟨not_le.mp hfew, rfl⟩

def isLogUpToDateLocked (n : RaftNode σ) (lastLogIndex lastLogTerm : Int) : Bool :=
  if lastLogTerm ≠ n.log.lastLogTermLocked then decide (lastLogTerm > n.log.lastLogTermLocked)
  else decide (lastLogIndex ≥ n.log.lastLogIndexLocked)

def handleRequestVote (n : RaftNode σ) (req : RequestVoteRequest) :
    RaftNode σ × RequestVoteResponse :=
  if req.term < n.currentTerm then (n, { term := n.currentTerm, voteGranted := false })
  else
    let n := if req.term > n.currentTerm then n.becomeFollowerLocked req.term "" else n
    let upToDate := n.isLogUpToDateLocked req.lastLogIndex req.lastLogTerm
    let canVote := decide (n.votedFor = "") || decide (n.votedFor = req.candidateID)
    if canVote && upToDate then
      let n := { n with votedFor := req.candidateID }.persistLocked
      (n, { term := n.currentTerm, voteGranted := true })
    else (n, { term := n.currentTerm, voteGranted := false })

/-- **The outcomes of `HandleRequestVote`**: a stale request, or one that the node votes on when it
is in the term of the request. -/
theorem handleRequestVote_cases (n : RaftNode σ) (req : RequestVoteRequest) :
    (req.term < n.currentTerm ∧
      n.handleRequestVote req = (n, { term := n.currentTerm, voteGranted := false })) ∨
    ∃ m, (n.currentTerm = req.term ∧ m = n ∨
        n.currentTerm < req.term ∧ m = n.becomeFollowerLocked req.term "") ∧
      m.currentTerm = req.term ∧
      (((m.votedFor = "" ∨ m.votedFor = req.candidateID) ∧
          m.isLogUpToDateLocked req.lastLogIndex req.lastLogTerm = true ∧
          n.handleRequestVote req = ({ m with votedFor := req.candidateID }.persistLocked,
            { term := req.term, voteGranted := true })) ∨
        n.handleRequestVote req = (m, { term := req.term, voteGranted := false })) := by
  by_cases hlt : req.term < n.currentTerm
  · exact Or.inl ⟨hlt, if_pos hlt⟩
  refine Or.inr ?_
  obtain ⟨m, hm, hcase, hterm⟩ : ∃ m,
      (if req.term > n.currentTerm then n.becomeFollowerLocked req.term "" else n) = m ∧
      (n.currentTerm = req.term ∧ m = n ∨
        n.currentTerm < req.term ∧ m = n.becomeFollowerLocked req.term "") ∧
      m.currentTerm = req.term := by
    split
    · next hgt =>
      refine ⟨_, rfl, Or.inr ⟨hgt, rfl⟩, ?_⟩
      unfold becomeFollowerLocked
      rw [if_pos hgt]
      rfl
    · exact ⟨n, rfl, Or.inl ⟨by omega, rfl⟩, by omega⟩
  refine ⟨m, hcase, hterm, ?_⟩
  unfold handleRequestVote
  rw [if_neg hlt]
  dsimp only
  rw [hm, ← hterm]
  split
  · next hcan =>
    rw [Bool.and_eq_true, Bool.or_eq_true, decide_eq_true_eq, decide_eq_true_eq] at hcan
    exact Or.inl ⟨hcan.1, hcan.2, rfl⟩
  · exact Or.inr rfl

/-- A vote that is granted is the node's vote in the term of the request. -/
theorem handleRequestVote_granted {n : RaftNode σ} {req : RequestVoteRequest}
    (h : (n.handleRequestVote req).2.voteGranted = true) :
    (n.handleRequestVote req).1.currentTerm = req.term ∧
      (n.handleRequestVote req).1.votedFor = req.candidateID := by
  rcases n.handleRequestVote_cases req with ⟨_, heq⟩ | ⟨m, _, hterm, ⟨_, _, heq⟩ | heq⟩
  · rw [heq] at h
    cases h
  · rw [heq]
    exact ⟨hterm, rfl⟩
  · rw [heq] at h
    cases h

/-! ## The ticker -/

/-- One tick. `due` says whether the deadline of the current role has passed: the election
deadline of a follower or candidate, the next heartbeat of a leader. -/
def tick (n : RaftNode σ) (due : Bool) : RaftNode σ :=
  let n :=
    match n.state with
    | .leader => if due then n.broadcastAppendEntriesLocked else n
    | _ => if !n.joining && n.isVoterLocked && due then n.startElectionLocked else n
  n.applyCommittedLocked

/-- **The outcomes of a tick**: nothing, heartbeats or an election, and what is committed is
applied. -/
theorem tick_cases (n : RaftNode σ) (due : Bool) : ∃ m, n.tick due = m.applyCommittedLocked ∧
    (m = n ∨ (n.state = .leader ∧ m = n.broadcastAppendEntriesLocked) ∨
      (n.state ≠ .leader ∧ (!n.joining && n.isVoterLocked && due) = true ∧
        m = n.startElectionLocked)) := by
  refine ⟨_, rfl, ?_⟩
  split
  · next hld =>
    split
    · exact Or.inr (Or.inl ⟨hld, rfl⟩)
    · exact Or.inl rfl
  · next hld =>
    split
    · next hgo => exact Or.inr (Or.inr ⟨hld, hgo, rfl⟩)
    · exact Or.inl rfl

/-! ## Proposals -/

/-- The steps that every append of a leader ends with. -/
def appended (n : RaftNode σ) (index : Int) : RaftNode σ :=
  let n := n.persistLocked.trackSelf index
  n.advanceCommitLocked.applyCommittedLocked.broadcastAppendEntriesLocked

def propose (n : RaftNode σ) (cmd : Bytes) : RaftNode σ × Except Err (Int × Int) :=
  if n.stopped then (n, .error .stopped)
  else if n.state ≠ .leader then (n, .error .notLeader)
  else
    let index := n.log.lastLogIndexLocked + 1
    let term := n.currentTerm
    let n := { n with log := n.log.append [{ term := term, index := index, command := cmd }] }
    (n.appended index, .ok (index, term))

/-- **A command is refused, and nothing has happened, or its entry is appended.** -/
theorem propose_cases (n : RaftNode σ) (cmd : Bytes) :
    (∃ e, n.propose cmd = (n, .error e)) ∨
    (n.stopped = false ∧ n.state = .leader) ∧ n.propose cmd =
      ({ n with
          log := n.log.append
            [{ term := n.currentTerm, index := n.log.lastLogIndexLocked + 1,
               command := cmd }] }.appended (n.log.lastLogIndexLocked + 1),
        .ok (n.log.lastLogIndexLocked + 1, n.currentTerm)) := by
  unfold propose
  split
  · exact Or.inl ⟨_, rfl⟩
  next hstop =>
  split
  · exact Or.inl ⟨_, rfl⟩
  · next hld => exact Or.inr ⟨⟨Bool.eq_false_iff.mpr hstop, not_not.mp hld⟩, rfl⟩

def hasUncommittedConfigLocked (n : RaftNode σ) : Bool :=
  let last := n.log.lastLogIndexLocked
  (List.range (last - n.commitIndex).toNat).any (fun k =>
    match n.log.entryAtLocked (n.commitIndex + 1 + k) with
    | some e => e.change.isSome
    | none => false)

/-- The configuration a change leads to, or why it is refused. -/
def changedPeers (n : RaftNode σ) (ch : MembershipChange) : Except Err (AddrMap × AddrMap) :=
  if ch.type = changeAdd then
    if (n.peerAddrs.get? ch.id).isSome then .error .alreadyMember
    else
      .ok (n.peerAddrs.set ch.id ch.addr,
        if ch.http ≠ "" then n.peerHTTP.set ch.id ch.http else n.peerHTTP)
  else if ch.type = changeRemove then
    if (n.peerAddrs.get? ch.id).isNone then .error .notMember
    else if ch.id = n.id then .error .removeLeader
    else if n.peerIDs.length ≤ 1 then .error .lastMember
    else .ok (n.peerAddrs.erase ch.id, n.peerHTTP.erase ch.id)
  else .error .unknownChange

/-- **An accepted change** adds a server that is not there, or removes one of several that is not
the leader. -/
theorem changedPeers_cases {n : RaftNode σ} {ch : MembershipChange} {c : AddrMap × AddrMap}
    (hok : n.changedPeers ch = .ok c) :
    (ch.type = changeAdd ∧ ch.id ∉ n.peerAddrs.keys ∧ c.1 = n.peerAddrs.set ch.id ch.addr) ∨
      (ch.type = changeRemove ∧ ch.id ∈ n.peerAddrs.keys ∧ ch.id ≠ n.id ∧
        ¬ n.peerIDs.length ≤ 1 ∧ c.1 = n.peerAddrs.erase ch.id) := by
  unfold changedPeers at hok
  split at hok
  · next htype =>
    split at hok
    · cases hok
    next hnew =>
    cases hok
    exact Or.inl ⟨htype, fun hmem => hnew ((OrdMap.get?_isSome_iff _ _).mpr hmem), rfl⟩
  split at hok
  · next htype =>
    split at hok
    · cases hok
    next hthere =>
    split at hok
    · cases hok
    next hself =>
    split at hok
    · cases hok
    next hlen =>
    cases hok
    refine Or.inr ⟨htype, (OrdMap.get?_isSome_iff _ _).mp ?_, hself, hlen, rfl⟩
    rw [Option.isSome_iff_ne_none]
    simpa using hthere
  · cases hok

/-- An accepted change leaves a server. -/
theorem changedPeers_isEmpty {n : RaftNode σ} {ch : MembershipChange} {c : AddrMap × AddrMap}
    (hok : n.changedPeers ch = .ok c) (hids : n.peerIDs = n.peerAddrs.keys) :
    c.1.isEmpty = false := by
  rcases changedPeers_cases hok with ⟨_, _, hset⟩ | ⟨_, _, _, hlen, herase⟩
  · rw [hset]
    exact OrdMap.isEmpty_eq_false_of_mem (k := ch.id) (by simp)
  · obtain ⟨p, hp, hpn⟩ := OrdMap.exists_mem_keys_ne (k := ch.id) (hids ▸ hlen)
    rw [herase]
    exact OrdMap.isEmpty_eq_false_of_mem (k := p) (by simp [hp, hpn])

def proposeChangeLocked (n : RaftNode σ) (ch : MembershipChange) : RaftNode σ × Except Err Int :=
  if n.stopped then (n, .error .stopped)
  else if n.state ≠ .leader then (n, .error .notLeader)
  else if n.hasUncommittedConfigLocked then (n, .error .configInProgress)
  else
    match n.changedPeers ch with
    | .error e => (n, .error e)
    | .ok c =>
      let index := n.log.lastLogIndexLocked + 1
      let ch := { ch with peers := c.1, httpAddrs := c.2 }
      let n :=
        { n with
          log := n.log.append [{ term := n.currentTerm, index := index, change := some ch }] }
      let n := n.rebuildMembershipLocked.ensurePeerTrackingLocked.notifyPeersLocked
      (n.appended index, .ok index)

/-- **A change is refused, and nothing has happened, or its entry is appended.** -/
theorem proposeChange_cases (n : RaftNode σ) (ch : MembershipChange) :
    (∃ e, n.proposeChangeLocked ch = (n, .error e)) ∨
    ∃ c, n.changedPeers ch = .ok c ∧
      (n.stopped = false ∧ n.state = .leader ∧ n.hasUncommittedConfigLocked = false) ∧
      n.proposeChangeLocked ch = (({ n with
          log := n.log.append
            [{ term := n.currentTerm, index := n.log.lastLogIndexLocked + 1,
               change := some { ch with peers := c.1, httpAddrs := c.2 } }]
          }.rebuildMembershipLocked.ensurePeerTrackingLocked.notifyPeersLocked).appended
          (n.log.lastLogIndexLocked + 1), .ok (n.log.lastLogIndexLocked + 1)) := by
  unfold proposeChangeLocked
  split
  · exact Or.inl ⟨_, rfl⟩
  next hstop =>
  split
  · exact Or.inl ⟨_, rfl⟩
  next hld =>
  split
  · exact Or.inl ⟨_, rfl⟩
  next hno =>
  cases n.changedPeers ch with
  | error e => exact Or.inl ⟨e, rfl⟩
  | ok c =>
    exact Or.inr ⟨c, rfl,
      ⟨Bool.eq_false_iff.mpr hstop, not_not.mp hld, Bool.eq_false_iff.mpr hno⟩, rfl⟩

def addServer (n : RaftNode σ) (id addr httpAddr : String) : RaftNode σ × Except Err Int :=
  if id = "" ∨ addr = "" then (n, .error .addServerArgs)
  else n.proposeChangeLocked { type := changeAdd, id := id, addr := addr, http := httpAddr }

def removeServer (n : RaftNode σ) (id : String) : RaftNode σ × Except Err Int :=
  if id = "" then (n, .error .removeServerArgs)
  else n.proposeChangeLocked { type := changeRemove, id := id }

end RaftNode

end Raft
