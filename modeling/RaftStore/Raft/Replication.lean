import RaftStore.Raft.Commit
import RaftStore.Raft.Merge

/-!
# AppendEntries and InstallSnapshot

Both sides of the two replication RPCs. The receiver's handlers run in one critical
section each. The sender's `replicateTo` releases the mutex around the RPC, so it is cut
into the section before the call (`replicateToHead`), one section for each kind of reply
(`replicateToAppended`, `replicateToInstalled`), and the deferred function that clears the
`replicating` flag (`replicateToDone`). `term` in the source is the term of the request,
read in the same section, so the sections after the call take it from there.
-/

namespace Raft

variable {σ : Type}

namespace RaftNode

/-- `becomeFollowerLocked`. The vote is forgotten only in a new term. -/
def becomeFollowerLocked (n : RaftNode σ) (term : Int) (leaderID : String) : RaftNode σ :=
  let n :=
    if term > n.currentTerm then { n with currentTerm := term, votedFor := "" }.persistLocked
    else n
  { n with state := .follower, leaderID := leaderID }

/-! ## The receiver -/

/-- What both handlers do first with a request that is not of an earlier term. -/
def hearLeader (n : RaftNode σ) (term : Int) (leaderID : String) : RaftNode σ :=
  let n :=
    if term > n.currentTerm ∨ n.state ≠ .follower then n.becomeFollowerLocked term leaderID
    else n
  { n with leaderID := leaderID, joining := false }

/-- A node that hears from a leader changes its role and its ballot, and nothing else. -/
theorem hearLeader_eq (n : RaftNode σ) (term : Int) (leaderID : String) :
    ∃ t vote st s, n.hearLeader term leaderID =
      { n with
        currentTerm := t, votedFor := vote, storage := st, state := s, leaderID := leaderID
        joining := false } := by
  unfold hearLeader becomeFollowerLocked
  dsimp only
  split
  · split
    · exact ⟨_, _, _, _, rfl⟩
    · exact ⟨_, _, _, _, rfl⟩
  · exact ⟨_, _, _, _, rfl⟩

theorem log_hearLeader (n : RaftNode σ) (term : Int) (leaderID : String) :
    (n.hearLeader term leaderID).log = n.log := by
  obtain ⟨_, _, _, _, heq⟩ := n.hearLeader_eq term leaderID
  rw [heq]

/-- Whoever hears of a leader follows it in its term. -/
theorem hearLeader_fields (n : RaftNode σ) {term : Int} (hge : ¬ term < n.currentTerm)
    (leaderID : String) : (n.hearLeader term leaderID).currentTerm = term ∧
      (n.hearLeader term leaderID).state = .follower ∧
      (n.hearLeader term leaderID).log = n.log := by
  unfold hearLeader
  by_cases hgt : term > n.currentTerm
  · rw [if_pos (Or.inl hgt)]
    unfold becomeFollowerLocked
    rw [if_pos hgt]
    exact ⟨rfl, rfl, rfl⟩
  have heq : n.currentTerm = term := by omega
  -- the same term: a candidate or leader steps down
  by_cases hs : n.state ≠ .follower
  · rw [if_pos (Or.inr hs)]
    unfold becomeFollowerLocked
    rw [if_neg hgt]
    exact ⟨heq, rfl, rfl⟩
  · rw [if_neg (not_or.mpr ⟨hgt, hs⟩)]
    exact ⟨heq, not_not.mp hs, rfl⟩

/-- The loop of `HandleAppendEntries` over the entries, and what follows if it changed the
log. -/
def mergeLocked (n : RaftNode σ) (req : AppendEntriesRequest) : RaftNode σ :=
  let merged := n.log.mergeEntries req.entries (req.prevLogIndex + 1)
  let n := { n with log := merged.1 }
  if merged.2 then n.rebuildMembershipLocked.notifyPeersLocked.persistLocked else n

/-- The end of `HandleAppendEntries`: commit what the leader has committed, as far as the
log goes. -/
def followCommitLocked (n : RaftNode σ) (leaderCommit : Int) : RaftNode σ :=
  if leaderCommit > n.commitIndex then
    let last := n.log.lastLogIndexLocked
    { n with
      commitIndex := if leaderCommit > last then last else leaderCommit }.applyCommittedLocked
  else n

/-- `HandleAppendEntries`. -/
def handleAppendEntries (n : RaftNode σ) (req : AppendEntriesRequest) :
    RaftNode σ × AppendEntriesResponse :=
  if req.term < n.currentTerm then (n, { term := n.currentTerm, success := false })
  else
    let n := n.hearLeader req.term req.leaderID
    let refused : AppendEntriesResponse := { term := n.currentTerm, success := false }
    if req.prevLogIndex < n.log.lastIncludedIndexLocked then (n, refused)
    else
      match n.log.entryAtLocked req.prevLogIndex with
      | none => (n, refused)
      | some prev =>
        if prev.term ≠ req.prevLogTerm then (n, refused)
        else
          let n := (n.mergeLocked req).followCommitLocked req.leaderCommit
          (n, { term := n.currentTerm, success := true })

/-- The log is as it was, or the merged one. -/
theorem mergeLocked_cases (n : RaftNode σ) (req : AppendEntriesRequest) :
    n.mergeLocked req = n ∨
      n.mergeLocked req =
        { n with
          log := (n.log.mergeEntries req.entries (req.prevLogIndex + 1)).1
          }.rebuildMembershipLocked.notifyPeersLocked.persistLocked := by
  unfold mergeLocked
  dsimp only
  split
  · exact Or.inr rfl
  · next hdirty =>
    left
    rw [Log.mergeEntries_of_clean (Bool.eq_false_iff.mpr hdirty)]

/-- The merged log. -/
theorem log_mergeLocked (n : RaftNode σ) (req : AppendEntriesRequest) :
    (n.mergeLocked req).log = (n.log.mergeEntries req.entries (req.prevLogIndex + 1)).1 := by
  unfold mergeLocked
  dsimp only
  split <;> rfl

/-- A merge keeps the term. -/
@[simp] theorem currentTerm_mergeLocked (n : RaftNode σ) (req : AppendEntriesRequest) :
    (n.mergeLocked req).currentTerm = n.currentTerm := by
  unfold mergeLocked
  dsimp only
  split <;> rfl

/-- A merge keeps the role. -/
@[simp] theorem state_mergeLocked (n : RaftNode σ) (req : AppendEntriesRequest) :
    (n.mergeLocked req).state = n.state := by
  unfold mergeLocked
  dsimp only
  split <;> rfl

/-- Following commits keeps the term. -/
@[simp] theorem currentTerm_followCommit (n : RaftNode σ) (leaderCommit : Int) :
    (n.followCommitLocked leaderCommit).currentTerm = n.currentTerm := by
  unfold followCommitLocked
  split
  · rw [currentTerm_applyCommitted]
  · rfl

/-- The commit index follows the leader's, as far as the log reaches. -/
theorem commitIndex_followCommit (n : RaftNode σ) (leaderCommit : Int) :
    (n.followCommitLocked leaderCommit).commitIndex =
      if leaderCommit > n.commitIndex then min leaderCommit n.log.lastLogIndexLocked
      else n.commitIndex := by
  unfold followCommitLocked
  split
  · rw [commitIndex_applyCommitted]
    dsimp only
    split <;> omega
  · rfl

/-- The request starts at an entry that the log holds. -/
def PrevMatches (n : RaftNode σ) (req : AppendEntriesRequest) : Prop :=
  n.log.lastIncludedIndexLocked ≤ req.prevLogIndex ∧
    n.log.termAtLocked req.prevLogIndex = some req.prevLogTerm

/-- **The outcomes of `HandleAppendEntries`**: a stale request, one that does not match the log, and
one that is taken over. -/
theorem handleAppendEntries_cases (n : RaftNode σ) (req : AppendEntriesRequest) :
    (req.term < n.currentTerm ∧
      n.handleAppendEntries req = (n, { term := n.currentTerm, success := false })) ∨
    (n.currentTerm ≤ req.term ∧ ¬ n.PrevMatches req ∧ n.handleAppendEntries req =
      (n.hearLeader req.term req.leaderID, { term := req.term, success := false })) ∨
    (n.currentTerm ≤ req.term ∧ n.PrevMatches req ∧ n.handleAppendEntries req =
      (((n.hearLeader req.term req.leaderID).mergeLocked req).followCommitLocked req.leaderCommit,
        { term := req.term, success := true })) := by
  by_cases hterm : req.term < n.currentTerm
  · exact Or.inl ⟨hterm, if_pos hterm⟩
  right
  have hcur := (n.hearLeader_fields hterm req.leaderID).1
  unfold handleAppendEntries PrevMatches Log.termAtLocked
  simp only [if_neg hterm, log_hearLeader, currentTerm_followCommit, currentTerm_mergeLocked, hcur]
  -- the request starts below the log, beyond it, at another term, or at the same one
  by_cases hlo : req.prevLogIndex < n.log.lastIncludedIndexLocked
  · exact Or.inl ⟨not_lt.mp hterm, fun h => absurd h.1 (not_le.mpr hlo), if_pos hlo⟩
  rw [if_neg hlo]
  cases hget : n.log.entryAtLocked req.prevLogIndex with
  | none => exact Or.inl ⟨not_lt.mp hterm, by simp, rfl⟩
  | some prev =>
    by_cases hpt : prev.term = req.prevLogTerm
    · refine Or.inr ⟨not_lt.mp hterm, ⟨not_lt.mp hlo, congrArg some hpt⟩, ?_⟩
      exact if_neg (not_not.mpr hpt)
    · exact Or.inl ⟨not_lt.mp hterm, fun h => hpt (Option.some.inj h.2), if_pos hpt⟩

/-- The end of `HandleInstallSnapshot`: the snapshot replaces log, base configuration and
state machine. -/
def installLocked (n : RaftNode σ) (req : InstallSnapshotRequest) : RaftNode σ :=
  let n :=
    { n with
      log := ⟨{ term := req.lastIncludedTerm, index := req.lastIncludedIndex }, []⟩
      snapshot := req.data }
  let n :=
    if !req.peers.isEmpty then
      { n with
        basePeers := req.peers
        baseHTTP := req.http }.rebuildMembershipLocked.notifyPeersLocked
    else n
  let n := { n with machine := n.restored n.snapshot }
  let n :=
    { n with
      lastApplied := req.lastIncludedIndex
      commitIndex :=
        if n.commitIndex < req.lastIncludedIndex then req.lastIncludedIndex else n.commitIndex }
  n.persistLocked

/-- The snapshot replaces log and state machine, and the configuration if it carries one. -/
theorem installLocked_eq (n : RaftNode σ) (req : InstallSnapshotRequest) : ∃ k : RaftNode σ,
    (req.peers.isEmpty = false ∧
        k = { n with
          log := ⟨{ term := req.lastIncludedTerm, index := req.lastIncludedIndex }, []⟩
          snapshot := req.data
          basePeers := req.peers
          baseHTTP := req.http }.rebuildMembershipLocked.notifyPeersLocked ∨
      req.peers.isEmpty = true ∧
        k = { n with
          log := ⟨{ term := req.lastIncludedTerm, index := req.lastIncludedIndex }, []⟩
          snapshot := req.data }) ∧
    n.installLocked req =
      { k with
        machine := n.restored req.data
        lastApplied := req.lastIncludedIndex
        commitIndex :=
          if n.commitIndex < req.lastIncludedIndex then req.lastIncludedIndex
          else n.commitIndex }.persistLocked := by
  unfold installLocked
  dsimp only
  -- a snapshot without a configuration leaves the members as they were
  cases hpeers : req.peers.isEmpty with
  | true =>
    refine ⟨_, Or.inr ⟨rfl, rfl⟩, ?_⟩
    rw [if_neg (by decide)]
    rfl
  | false =>
    refine ⟨_, Or.inl ⟨rfl, rfl⟩, ?_⟩
    rw [if_pos (by decide)]
    rfl

/-- What a node is like after a snapshot was installed. -/
structure Installed (n : RaftNode σ) (req : InstallSnapshotRequest) (n' : RaftNode σ) : Prop where
  log_eq : n'.log = ⟨{ term := req.lastIncludedTerm, index := req.lastIncludedIndex }, []⟩
  snapshot_eq : n'.snapshot = req.data
  lastApplied_eq : n'.lastApplied = req.lastIncludedIndex
  commitIndex_eq : n'.commitIndex =
    if n.commitIndex < req.lastIncludedIndex then req.lastIncludedIndex else n.commitIndex
  id_eq : n'.id = n.id
  state_eq : n'.state = n.state
  currentTerm_eq : n'.currentTerm = n.currentTerm
  votedFor_eq : n'.votedFor = n.votedFor
  applies_eq : n'.applies = n.applies

/-- What an installation leaves behind. -/
theorem installed (n : RaftNode σ) (req : InstallSnapshotRequest) :
    Installed n req (n.installLocked req) := by
  obtain ⟨k, ⟨_, rfl⟩ | ⟨_, rfl⟩, heq⟩ := n.installLocked_eq req
  · rw [heq]
    exact ⟨rfl, rfl, rfl, rfl, rfl, rfl, rfl, rfl, rfl⟩
  · rw [heq]
    exact ⟨rfl, rfl, rfl, rfl, rfl, rfl, rfl, rfl, rfl⟩

/-- `HandleInstallSnapshot`. A snapshot that is not newer is acknowledged and ignored. -/
def handleInstallSnapshot (n : RaftNode σ) (req : InstallSnapshotRequest) :
    RaftNode σ × InstallSnapshotResponse :=
  if req.term < n.currentTerm then (n, { term := n.currentTerm })
  else
    let n := n.hearLeader req.term req.leaderID
    let resp : InstallSnapshotResponse := { term := n.currentTerm }
    if req.lastIncludedIndex ≤ n.log.lastIncludedIndexLocked then (n, resp)
    else (n.installLocked req, resp)

/-- **The outcomes of `HandleInstallSnapshot`**: a stale request, a snapshot that reaches no further
than the node's own, and one that is installed. -/
theorem handleInstallSnapshot_cases (n : RaftNode σ) (req : InstallSnapshotRequest) :
    (req.term < n.currentTerm ∧ n.handleInstallSnapshot req = (n, { term := n.currentTerm })) ∨
    (n.currentTerm ≤ req.term ∧ req.lastIncludedIndex ≤ n.log.lastIncludedIndexLocked ∧
      n.handleInstallSnapshot req =
        (n.hearLeader req.term req.leaderID, { term := req.term })) ∨
    (n.currentTerm ≤ req.term ∧ n.log.lastIncludedIndexLocked < req.lastIncludedIndex ∧
      n.handleInstallSnapshot req =
        ((n.hearLeader req.term req.leaderID).installLocked req, { term := req.term })) := by
  by_cases hterm : req.term < n.currentTerm
  · exact Or.inl ⟨hterm, if_pos hterm⟩
  right
  have hcur := (n.hearLeader_fields hterm req.leaderID).1
  unfold handleInstallSnapshot
  simp only [if_neg hterm, log_hearLeader, hcur]
  by_cases hidx : req.lastIncludedIndex ≤ n.log.lastIncludedIndexLocked
  · exact Or.inl ⟨not_lt.mp hterm, hidx, if_pos hidx⟩
  · exact Or.inr ⟨not_lt.mp hterm, not_le.mp hidx, if_neg hidx⟩

/-! ## The sender -/

/-- `nextIndex[peer]`, `0` when it is not tracked. -/
def next (n : RaftNode σ) (peer : String) : Int := (n.nextIndex peer).getD 0

/-- `nextIndex[peer] = i`. -/
def setNext (n : RaftNode σ) (peer : String) (i : Int) : RaftNode σ :=
  { n with nextIndex := Function.update n.nextIndex peer (some i) }

/-- `matchIndex[peer] = i`. -/
def setMatch (n : RaftNode σ) (peer : String) (i : Int) : RaftNode σ :=
  { n with matchIndex := Function.update n.matchIndex peer i }

/-- `shouldInstallSnapshotLocked`: the next entry for the peer has been compacted away. -/
def shouldInstallSnapshotLocked (n : RaftNode σ) (peer : String) : Bool :=
  let snap := n.log.lastIncludedIndexLocked
  decide (snap > 0) && decide (n.next peer ≤ snap)

/-- `installSnapshotRequestLocked`. -/
def installSnapshotRequestLocked (n : RaftNode σ) : InstallSnapshotRequest where
  term := n.currentTerm
  leaderID := n.id
  lastIncludedIndex := n.log.lastIncludedIndexLocked
  lastIncludedTerm := n.log.lastIncludedTermLocked
  data := n.snapshot
  peers := n.basePeers
  http := n.baseHTTP

/-- `makeAppendRequestLocked`. A position beyond the log is set to its end, and stays there. -/
def makeAppendRequestLocked (n : RaftNode σ) (peer : String) :
    RaftNode σ × Option AppendEntriesRequest :=
  if n.next peer ≤ n.log.lastIncludedIndexLocked then (n, none)
  else
    let last := n.log.lastLogIndexLocked
    let n := if n.next peer > last + 1 then n.setNext peer (last + 1) else n
    let next := n.next peer
    match n.log.termAtLocked (next - 1) with
    | none => (n, none)
    | some prevTerm =>
      let start := n.log.sliceIndexLocked next
      let start := if start < 1 then 1 else start
      let start := if start > n.log.toList.length then (n.log.toList.length : Int) else start
      (n, some
        { term := n.currentTerm
          leaderID := n.id
          prevLogIndex := next - 1
          prevLogTerm := prevTerm
          entries := n.log.slice start
          leaderCommit := n.commitIndex })

@[simp] theorem next_setNext (n : RaftNode σ) (peer : String) (i : Int) :
    (n.setNext peer i).next peer = i := by
  unfold next setNext
  simp

/-- The index a request starts from: the peer's next index, at most the one after the log. -/
def startIndex (n : RaftNode σ) (peer : String) : Int :=
  min (n.next peer) (n.log.lastLogIndexLocked + 1)

/-- The node with the peer's next index cut down to the one after the log. -/
def clampNext (n : RaftNode σ) (peer : String) : RaftNode σ :=
  if n.next peer > n.log.lastLogIndexLocked + 1 then n.setNext peer (n.log.lastLogIndexLocked + 1)
  else n

/-- Only a position changes. -/
theorem clampNext_eq (n : RaftNode σ) (peer : String) :
    ∃ next, n.clampNext peer = { n with nextIndex := next } := by
  unfold clampNext
  split
  · exact ⟨_, rfl⟩
  · exact ⟨_, rfl⟩

/-- The position is within the log then. -/
@[simp] theorem next_clampNext (n : RaftNode σ) (peer : String) :
    (n.clampNext peer).next peer = n.startIndex peer := by
  unfold clampNext startIndex
  split
  · next hgt => rw [next_setNext, min_eq_right hgt.le]
  · next hle => exact (min_eq_left (not_lt.mp hle)).symm

/-- **The request for a peer** whose next index the log still covers: everything behind the entry
before it. -/
theorem makeAppendRequest_eq {n : RaftNode σ} (hlog : n.log.Contiguous) {peer : String}
    (hlo : n.log.lastIncludedIndexLocked < n.next peer) : ∃ t,
    n.log.termAtLocked (n.startIndex peer - 1) = some t ∧
      n.makeAppendRequestLocked peer =
        (n.clampNext peer, some
          { term := n.currentTerm
            leaderID := n.id
            prevLogIndex := n.startIndex peer - 1
            prevLogTerm := t
            entries := n.log.tail.drop (n.startIndex peer - 1 - n.log.head.index).toNat
            leaderCommit := n.commitIndex }) := by
  have hmnext := n.next_clampNext peer
  obtain ⟨next, hm⟩ := n.clampNext_eq peer
  have hlast := Log.lastLogIndex_of_contiguous hlog
  unfold Log.lastIncludedIndexLocked at hlo
  -- the request starts behind position `q` of the retained log
  obtain ⟨q, hq, hstart⟩ : ∃ q : Nat, q ≤ n.log.tail.length ∧
      n.startIndex peer = n.log.head.index + q + 1 := by
    refine ⟨(n.startIndex peer - 1 - n.log.head.index).toNat, ?_, ?_⟩
    · unfold startIndex
      omega
    · unfold startIndex
      omega
  obtain ⟨e, he⟩ := Log.entryAt_position hq
  have hterm : n.log.termAtLocked (n.startIndex peer - 1) = some e.term := by
    unfold Log.termAtLocked
    rw [hstart, show n.log.head.index + (q : Int) + 1 - 1 = n.log.head.index + q from by omega, he]
    rfl
  -- the bounds on the slice index never bite
  have hslice : n.log.sliceIndexLocked (n.startIndex peer) = q + 1 := by
    unfold Log.sliceIndexLocked
    omega
  have hentries : n.log.slice (q + 1) =
      n.log.tail.drop (n.startIndex peer - 1 - n.log.head.index).toNat := by
    rw [show (n.startIndex peer - 1 - n.log.head.index).toNat = q from by omega]
    unfold Log.slice Log.toList
    rw [show ((q : Int) + 1).toNat = q + 1 from by omega, List.drop_succ_cons]
  have hlen : n.log.toList.length = n.log.tail.length + 1 := rfl
  refine ⟨e.term, hterm, ?_⟩
  unfold makeAppendRequestLocked Log.lastIncludedIndexLocked
  rw [if_neg (not_le.mpr hlo)]
  unfold clampNext at hmnext hm ⊢
  dsimp only
  generalize (if n.next peer > n.log.lastLogIndexLocked + 1 then
    n.setNext peer (n.log.lastLogIndexLocked + 1) else n) = m at hmnext hm ⊢
  subst hm
  rw [hmnext, hterm]
  dsimp only
  rw [hslice]
  rw [if_neg (show ¬ ((q : Int) + 1 < 1) by omega),
    if_neg (show ¬ ((q : Int) + 1 > (n.log.toList.length : Int)) by omega), hentries]

/-- The call that a round of `replicateTo` makes. -/
inductive Replicate
  | append (req : AppendEntriesRequest)
  | install (req : InstallSnapshotRequest)

/-- From the head of the loop of `replicateTo` to the call; `none` returns. -/
def replicateToHead (n : RaftNode σ) (peer : String) : RaftNode σ × Option Replicate :=
  if n.state ≠ .leader then (n, none)
  else if n.shouldInstallSnapshotLocked peer then
    (n, some (.install n.installSnapshotRequestLocked))
  else
    let r := n.makeAppendRequestLocked peer
    (r.1, r.2.map .append)

/-- The end of a round: `continue` or `return`. -/
def replicateAgain (n : RaftNode σ) (peer : String) (more : Bool) : RaftNode σ :=
  n.spawn (if more then .replicateTo peer else .replicateToDone peer)

/-- A peer has confirmed the log up to `index`. -/
def matched (n : RaftNode σ) (peer : String) (index : Int) : RaftNode σ :=
  let n := (n.setMatch peer index).setNext peer (index + 1)
  let n := n.advanceCommitLocked.applyCommittedLocked
  n.replicateAgain peer (decide (n.log.lastLogIndexLocked > n.matchIndex peer))

/-- What `replicateTo` does with the reply to a snapshot. -/
def replicateToInstalled (n : RaftNode σ) (peer : String) (req : InstallSnapshotRequest)
    (resp : InstallSnapshotResponse) : RaftNode σ :=
  if n.state ≠ .leader ∨ n.currentTerm ≠ req.term then n.replicateAgain peer false
  else if resp.term > n.currentTerm then
    (n.becomeFollowerLocked resp.term "").replicateAgain peer false
  else n.matched peer req.lastIncludedIndex

/-- What `replicateTo` does with the reply to entries. -/
def replicateToAppended (n : RaftNode σ) (peer : String) (req : AppendEntriesRequest)
    (resp : AppendEntriesResponse) : RaftNode σ :=
  if n.state ≠ .leader ∨ n.currentTerm ≠ req.term then n.replicateAgain peer false
  else if resp.term > n.currentTerm then
    (n.becomeFollowerLocked resp.term "").replicateAgain peer false
  else if resp.success then n.matched peer (req.prevLogIndex + req.entries.length)
  else
    -- back off: never below the snapshot, which is sent instead
    let snap := n.log.lastIncludedIndexLocked
    let n :=
      if n.next peer > snap + 1 then n.setNext peer (n.next peer - 1)
      else if snap > 0 then n.setNext peer snap
      else if n.next peer > 1 then n.setNext peer (n.next peer - 1)
      else n
    n.replicateAgain peer true

/-- **The outcomes of a call of `replicateTo`**: it comes too late, the peer is in a later term, it
has confirmed, or it refuses and the next index backs off. -/
theorem replicateToAppended_cases (n : RaftNode σ) (peer : String) (req : AppendEntriesRequest)
    (resp : AppendEntriesResponse) :
    ((n.state ≠ .leader ∨ n.currentTerm ≠ req.term) ∧
      n.replicateToAppended peer req resp = n.replicateAgain peer false) ∨
    (n.state = .leader ∧ n.currentTerm = req.term) ∧
      ((n.currentTerm < resp.term ∧ n.replicateToAppended peer req resp =
          (n.becomeFollowerLocked resp.term "").replicateAgain peer false) ∨
        (resp.term ≤ n.currentTerm ∧ resp.success = true ∧ n.replicateToAppended peer req resp =
          n.matched peer (req.prevLogIndex + req.entries.length)) ∨
        (∃ m, (m = n ∨ ∃ i, (n.log.lastIncludedIndexLocked < i ∨ 0 < i) ∧ m = n.setNext peer i) ∧
          n.replicateToAppended peer req resp = m.replicateAgain peer true)) := by
  unfold replicateToAppended
  split
  · next hlate => exact Or.inl ⟨hlate, rfl⟩
  next hcur =>
  push Not at hcur
  refine Or.inr ⟨hcur, ?_⟩
  split
  · next hlt => exact Or.inl ⟨hlt, rfl⟩
  next hle =>
  split
  · next hok => exact Or.inr (Or.inl ⟨not_lt.mp hle, hok, rfl⟩)
  -- the peer has refused, and the position moves back
  · refine Or.inr (Or.inr ⟨_, ?_, rfl⟩)
    split
    · exact Or.inr ⟨_, Or.inl (by omega), rfl⟩
    split
    · next hpos => exact Or.inr ⟨_, Or.inr hpos, rfl⟩
    split
    · exact Or.inr ⟨_, Or.inr (by omega), rfl⟩
    · exact Or.inl rfl

/-- The outcomes of a reply to a snapshot. -/
theorem replicateToInstalled_cases (n : RaftNode σ) (peer : String) (req : InstallSnapshotRequest)
    (resp : InstallSnapshotResponse) :
    ((n.state ≠ .leader ∨ n.currentTerm ≠ req.term) ∧
      n.replicateToInstalled peer req resp = n.replicateAgain peer false) ∨
    (n.state = .leader ∧ n.currentTerm = req.term) ∧
      ((n.currentTerm < resp.term ∧ n.replicateToInstalled peer req resp =
          (n.becomeFollowerLocked resp.term "").replicateAgain peer false) ∨
        (resp.term ≤ n.currentTerm ∧ n.replicateToInstalled peer req resp =
          n.matched peer req.lastIncludedIndex)) := by
  unfold replicateToInstalled
  split
  · next hlate => exact Or.inl ⟨hlate, rfl⟩
  next hcur =>
  push Not at hcur
  refine Or.inr ⟨hcur, ?_⟩
  split
  · next hlt => exact Or.inl ⟨hlt, rfl⟩
  · next hle => exact Or.inr ⟨not_lt.mp hle, rfl⟩

/-- Preparing a call corrects the next index of the peer at most. -/
theorem replicateToHead_fst (n : RaftNode σ) (peer : String) :
    (n.replicateToHead peer).1 = n ∨
      (n.replicateToHead peer).1 = n.setNext peer (n.log.lastLogIndexLocked + 1) := by
  unfold replicateToHead makeAppendRequestLocked
  split
  · exact Or.inl rfl
  split
  · exact Or.inl rfl
  split
  · exact Or.inl rfl
  dsimp only
  split
  · split
    · exact Or.inr rfl
    · exact Or.inl rfl
  · split
    · exact Or.inr rfl
    · exact Or.inl rfl

/-- The deferred end of `replicateTo`: the peer is free again. -/
def replicateToDone (n : RaftNode σ) (peer : String) : RaftNode σ :=
  { n with replicating := Function.update n.replicating peer false }

end RaftNode

end Raft
