import RaftStore.Node.Settle
import RaftStore.Node.Terms

/-!
# Winning an election

What the sections of an election do when they go well: a node campaigns (`campaigned`), the others
vote (`polled`), the votes are counted (`counted`), and the winner starts to replicate (`elected`).
Each is the part of the section that a schedule relies on.
-/

namespace Node

open Raft Cluster RaftNode

variable {σ : Type} {n n' : RaftNode σ} {p : String} {req : RequestVoteRequest}

/-! ## Campaigning -/

/-- The request that `n` sends when it campaigns. -/
def bid (n : RaftNode σ) : RequestVoteRequest where
  term := n.currentTerm + 1
  candidateID := n.id
  lastLogIndex := n.log.lastLogIndexLocked
  lastLogTerm := n.log.lastLogTermLocked

/-- A node that has begun to campaign. -/
structure Campaigned (n n' : RaftNode σ) : Prop where
  state_eq : n'.state = .candidate
  term_eq : n'.currentTerm = n.currentTerm + 1
  votes_eq : n'.votesReceived = {n.id}
  asks : ∀ p ∈ n.peerIDs, p ≠ n.id → .sendRequestVote p (bid n) ∈ n'.goroutines

/-- The fields of a candidate that applying leaves alone. -/
def candidacy (n : RaftNode σ) : State × Int × Finset String × List Goroutine :=
  (n.state, n.currentTerm, n.votesReceived, n.goroutines)

theorem candidacy_applyCommitted (n : RaftNode σ) :
    candidacy n.applyCommittedLocked = candidacy n := by
  refine n.applyCommitted_kept (f := candidacy) (fun m i e => ?_) (fun _ _ _ _ => rfl)
  obtain ⟨_, _, heq⟩ := m.applyNext_eq i e
  rw [heq]
  rfl

theorem tick_due (hs : n.state ≠ .leader) (hj : n.joining = false) (hv : n.isVoterLocked = true) :
    n.tick true = n.startElectionLocked.applyCommittedLocked := by
  unfold RaftNode.tick
  cases hstate : n.state with
  | leader => exact absurd hstate hs
  | follower => simp [hj, hv]
  | candidate => simp [hj, hv]

/-- **A node that is no leader campaigns** when its timer is due. -/
theorem campaigned (hs : n.state ≠ .leader) (hj : n.joining = false)
    (hv : n.isVoterLocked = true) (hmaj : 1 < n.majority) : Campaigned n (n.tick true) := by
  have htick := tick_due hs hj hv
  have hstart : candidacy n.startElectionLocked =
      (.candidate, n.currentTerm + 1, {n.id}, n.goroutines ++
        (n.peerIDs.filter (· ≠ n.id)).map (.sendRequestVote · (bid n))) := by
    unfold RaftNode.startElectionLocked
    rw [if_neg (by simp [hj, hv])]
    dsimp only
    rw [if_neg, foldl_spawn]
    · rfl
    · show ¬ n.majority ≤ ({n.id} : Finset String).card
      simpa using hmaj
  have hfields := (candidacy_applyCommitted n.startElectionLocked).trans hstart
  rw [← htick] at hfields
  simp only [candidacy, Prod.mk.injEq] at hfields
  obtain ⟨hstate, hterm, hvotes, hgo⟩ := hfields
  refine ⟨hstate, hterm, hvotes, fun p hp hne => ?_⟩
  rw [hgo]
  refine List.mem_append_right _ (List.mem_map_of_mem ?_)
  simp [hp, hne]

/-- The vote of a single member is enough. -/
theorem acclaimed (hs : n.state ≠ .leader) (hj : n.joining = false) (hv : n.isVoterLocked = true)
    (hmaj : n.majority ≤ 1) : (n.tick true).state = .leader := by
  have htick := tick_due hs hj hv
  rw [htick, state_applyCommitted]
  unfold RaftNode.startElectionLocked
  rw [if_neg (by simp [hj, hv])]
  dsimp only
  rw [if_pos]
  · exact (becomeLeader_fields _).1
  · show n.majority ≤ ({n.id} : Finset String).card
    simpa using hmaj

/-! ## Voting -/

/-- A node that was asked in a later term. -/
structure Polled (n : RaftNode σ) (req : RequestVoteRequest) (n' : RaftNode σ)
    (resp : RequestVoteResponse) : Prop where
  state_eq : n'.state = .follower
  term_eq : n'.currentTerm = req.term
  log_eq : n'.log = n.log
  resp_term : resp.term = req.term
  granted : n.isLogUpToDateLocked req.lastLogIndex req.lastLogTerm = true → resp.voteGranted = true

/-- **In a later term every node has a vote to give.** -/
theorem polled (h : n.currentTerm < req.term) :
    Polled n req (n.handleRequestVote req).1 (n.handleRequestVote req).2 := by
  have hfol : n.becomeFollowerLocked req.term "" =
      { ({ n with currentTerm := req.term, votedFor := "" } : RaftNode σ).persistLocked with
        state := .follower, leaderID := "" } := by
    unfold RaftNode.becomeFollowerLocked
    rw [if_pos h]
  unfold RaftNode.handleRequestVote
  rw [if_neg (by omega), if_pos h, hfol]
  -- nobody has its vote in the new term, so only an outdated log is refused
  cases hup : n.isLogUpToDateLocked req.lastLogIndex req.lastLogTerm with
  | true =>
    have hup' : RaftNode.isLogUpToDateLocked
        { ({ n with currentTerm := req.term, votedFor := "" } : RaftNode σ).persistLocked with
          state := .follower, leaderID := "" } req.lastLogIndex req.lastLogTerm = true := hup
    simp only [hup']
    exact ⟨rfl, rfl, rfl, rfl, fun _ => rfl⟩
  | false =>
    have hup' : RaftNode.isLogUpToDateLocked
        { ({ n with currentTerm := req.term, votedFor := "" } : RaftNode σ).persistLocked with
          state := .follower, leaderID := "" } req.lastLogIndex req.lastLogTerm = false := hup
    simp only [hup']
    exact ⟨rfl, rfl, rfl, rfl, fun hyes => absurd (hup.symm.trans hyes) Bool.false_ne_true⟩

/-! ## Counting -/

/-- A leader that has just been elected: it expects its peers to need its last entry, and a
goroutine for each is ready. -/
structure Elected (n n' : RaftNode σ) : Prop where
  state_eq : n'.state = .leader
  term_eq : n'.currentTerm = n.currentTerm
  log : ∃ e, e.index = n.log.lastLogIndexLocked + 1 ∧ e.term = n.currentTerm ∧
    (n.log.append [e]).Compacted n'.log
  next_eq : ∀ p ∈ n.peerIDs, p ≠ n.id → n'.next p = n.log.lastLogIndexLocked + 1
  mem : ∀ g ∈ n.goroutines, g ∈ n'.goroutines
  loops : n'.transport.isSome = true → ∀ p ∈ n'.peerIDs, p ≠ n'.id →
    .replicateTo p ∈ n'.goroutines

/-- **The winner starts to replicate.** -/
theorem elected (n : RaftNode σ) : Elected n n.becomeLeaderLocked := by
  let m : RaftNode σ := (({ n with
    state := .leader
    leaderID := n.id
    nextIndex := fun p => if p ∈ n.peerIDs then some (n.log.lastLogIndexLocked + 1) else none
    matchIndex := fun _ => 0
    replicating := fun _ => false
    log := n.log.append [{ term := n.currentTerm, index := n.log.lastLogIndexLocked + 1 }] } :
      RaftNode σ).trackSelf (n.log.lastLogIndexLocked + 1)).persistLocked
  have hset : Settles m n.becomeLeaderLocked := settles m
  refine ⟨hset.state_eq, hset.term_eq, ⟨_, rfl, rfl, hset.log⟩, fun p hp hne => ?_, hset.mem,
    fun htr p hp hne => ?_⟩
  · unfold RaftNode.next
    rw [hset.next_eq]
    simp [m, trackSelf, setMatch, setNext, persistLocked, hne, hp]
  · exact hset.loops htr p hp hne rfl

/-- A candidate that has counted a vote. -/
inductive Counted (n : RaftNode σ) (peer : String) (n' : RaftNode σ) : Prop
  | wins (m : RaftNode σ) (hm : m = { n with votesReceived := insert peer n.votesReceived })
      (helected : Elected m n')
  | waits (hn : n' = { n with votesReceived := insert peer n.votesReceived })
      (hfew : (insert peer n.votesReceived).card < n.majority)

/-- **A vote counts.** -/
theorem counted {peer : String} {resp : RequestVoteResponse} (hs : n.state = .candidate)
    (hreq : n.currentTerm = req.term) (hterm : resp.term = req.term)
    (hyes : resp.voteGranted = true) : Counted n peer (n.sendRequestVoteReply peer req resp) := by
  unfold RaftNode.sendRequestVoteReply
  rw [if_neg (by omega), if_neg (by simp [hs, hreq]), if_neg (by simp [hyes])]
  dsimp only
  split
  · exact .wins _ rfl (elected _)
  · next hfew => exact .waits rfl (not_le.mp hfew)

/-- A leader does not count votes any more. -/
theorem uncounted {peer : String} {resp : RequestVoteResponse} (hs : n.state = .leader)
    (hterm : resp.term ≤ n.currentTerm) : n.sendRequestVoteReply peer req resp = n := by
  unfold RaftNode.sendRequestVoteReply
  rw [if_neg (by omega), if_pos (Or.inl (by simp [hs]))]

end Node
