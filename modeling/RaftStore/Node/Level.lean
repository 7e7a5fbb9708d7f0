import RaftStore.Node.Matching
import RaftStore.Node.Recovery

/-!
# Committed and applied

Every section that moves the commit index applies the entries up to it before it ends, as far as the
log goes. So a node whose indexes are `InOrder` after each section has always applied all it has
committed (`Level`, `level_handle`), and it calls `apply` at most once for an index (`Once`) as long
as the applied index is not set back.
-/

namespace Node

open Raft Cluster RaftNode

variable {σ : Type} {n m : RaftNode σ} {ev : Event} {p : List (Int × LogEntry)}

/-- The order of the four indexes of a node. -/
structure InOrder (n : RaftNode σ) : Prop where
  base_le : n.log.lastIncludedIndexLocked ≤ n.lastApplied
  applied_le : n.lastApplied ≤ n.commitIndex
  commit_le : n.commitIndex ≤ n.log.lastLogIndexLocked

/-- All that is committed is applied. -/
def Level (n : RaftNode σ) : Prop := n.lastApplied = n.commitIndex

/-! ## Applying -/

/-- Compacting applies nothing. -/
theorem lastApplied_maybeCompact (n : RaftNode σ) :
    n.maybeCompactLocked.lastApplied = n.lastApplied := by
  rcases n.maybeCompact_cases with ⟨hsame, _⟩ | ⟨e, data, _, hcompact⟩
  · rw [hsame]
  · rw [hcompact]
    rfl

/-- The loop applies everything up to the commit index that the log holds. -/
theorem lastApplied_applyLoop (hlog : n.log.Contiguous) (hbase : n.log.head.index ≤ n.lastApplied)
    (hle : n.commitIndex ≤ n.log.lastLogIndexLocked) (k : Nat)
    (hk : n.lastApplied + k = n.commitIndex) : (applyLoop k n).lastApplied = n.commitIndex := by
  induction k generalizing n with
  | zero => simpa [applyLoop] using hk
  | succ k ih =>
    push_cast at hk
    -- the next entry is there
    obtain ⟨q, hq⟩ : ∃ q : Nat, n.lastApplied + 1 = n.log.head.index + q :=
      ⟨(n.lastApplied + 1 - n.log.head.index).toNat, by omega⟩
    rw [Log.lastLogIndex_of_contiguous hlog] at hle
    obtain ⟨e, he⟩ := Log.entryAt_position (l := n.log) (q := q) (by omega)
    obtain ⟨x, applies, heq⟩ := n.applyNext_eq (n.lastApplied + 1) e
    unfold applyLoop
    rw [if_pos (by omega), hq, he, ← hq]
    dsimp only
    rw [heq]
    refine ih (n := { n with lastApplied := n.lastApplied + 1, machine := x, applies := applies })
      hlog ?_ ?_ ?_
    · show n.log.head.index ≤ n.lastApplied + 1
      omega
    · show n.commitIndex ≤ n.log.lastLogIndexLocked
      rw [Log.lastLogIndex_of_contiguous hlog]
      omega
    · show n.lastApplied + 1 + k = n.commitIndex
      omega

/-- Applying reaches the commit index. -/
theorem level_applyCommitted (hlog : n.log.Contiguous) (hbase : n.log.head.index ≤ n.lastApplied)
    (hla : n.lastApplied ≤ n.commitIndex) (hci : n.commitIndex ≤ n.log.lastLogIndexLocked) :
    Level n.applyCommittedLocked := by
  unfold Level
  rw [commitIndex_applyCommitted]
  unfold applyCommittedLocked
  rw [lastApplied_maybeCompact]
  exact lastApplied_applyLoop hlog hbase hci _ (by omega)

/-- Where nothing is left to apply, nothing is applied. -/
theorem lastApplied_of_le (h : n.commitIndex ≤ n.lastApplied) :
    n.applyCommittedLocked.lastApplied = n.lastApplied := by
  unfold applyCommittedLocked
  rw [lastApplied_maybeCompact, show (n.commitIndex - n.lastApplied).toNat = 0 from by omega]
  rfl

theorem Level.applyCommitted (h : Level n) : Level n.applyCommittedLocked := by
  unfold Level at h ⊢
  rw [commitIndex_applyCommitted, lastApplied_of_le h.ge, h]

/-- A commit of the leader goes no further than its log. -/
theorem Level.settle (h : Level n) (hlog : n.log.Contiguous)
    (hbase : n.log.head.index ≤ n.lastApplied) :
    Level n.advanceCommitLocked.applyCommittedLocked := by
  have hla : n.lastApplied = n.commitIndex := h
  -- nothing new is committed, or what is committed is there to be applied
  rcases n.advanceCommit_cases with ⟨hsame, _⟩ | ⟨i, heq, hlt, hle, _⟩
  · rw [hsame]
    exact h.applyCommitted
  · rw [heq]
    refine level_applyCommitted (n := { n with commitIndex := i }) hlog hbase ?_ hle
    show n.lastApplied ≤ i
    omega

theorem Level.broadcast (h : Level n) : Level n.broadcastAppendEntriesLocked := by
  obtain ⟨r, g, heq⟩ := n.broadcast_eq
  rw [heq]
  exact h

/-! ## Sections -/

/-- Who steps down has applied what it committed. -/
theorem Level.becomeFollower (h : Level n) (term : Int) (leaderID : String) :
    Level (n.becomeFollowerLocked term leaderID) := by
  unfold becomeFollowerLocked
  dsimp only
  split <;> exact h

/-- What follows every append of a leader. -/
theorem Level.appended (h : Level n) (hlog : n.log.Contiguous)
    (hbase : n.log.head.index ≤ n.lastApplied) (index : Int) : Level (n.appended index) :=
  (Level.settle (n := n.persistLocked.trackSelf index) h hlog hbase).broadcast

/-- A new leader applies what its first entry lets it commit. -/
theorem Level.becomeLeader (h : Level n) (hlog : n.log.Contiguous)
    (hbase : n.log.head.index ≤ n.lastApplied) : Level n.becomeLeaderLocked := by
  unfold becomeLeaderLocked
  dsimp only
  refine (Level.settle ?_ ?_ ?_).broadcast
  · simp only [Level, persistLocked, trackSelf, resetTracking]
    exact h
  · exact hlog.append rfl
  · simp only [persistLocked, trackSelf, resetTracking, Log.append]
    exact hbase

/-- An election keeps the levels. -/
theorem Level.startElection (h : Level n) (hlog : n.log.Contiguous)
    (hbase : n.log.head.index ≤ n.lastApplied) : Level n.startElectionLocked := by
  -- asking for votes starts goroutines only
  have hspawn : ∀ (peers : List String) (req : RequestVoteRequest) (m : RaftNode σ), Level m →
      Level (peers.foldl (fun n' peer => n'.spawn (.sendRequestVote peer req)) m) := by
    intro peers req
    induction peers with
    | nil => exact fun m hm => hm
    | cons peer rest ih => exact fun m hm => ih _ hm
  unfold startElectionLocked
  split
  · exact h
  dsimp only
  split
  · exact Level.becomeLeader (n := _) h hlog hbase
  · exact hspawn _ _ _ h

/-- A tick keeps the levels. -/
theorem Level.tick (h : Level n) (hlog : n.log.Contiguous)
    (hbase : n.log.head.index ≤ n.lastApplied) (due : Bool) : Level (n.tick due) := by
  obtain ⟨m, heq, hm⟩ := n.tick_cases due
  rw [heq]
  refine Level.applyCommitted ?_
  rcases hm with rfl | ⟨_, rfl⟩ | ⟨_, _, rfl⟩
  · exact h
  · exact h.broadcast
  · exact h.startElection hlog hbase

/-- A request for a vote keeps the levels. -/
theorem Level.requestVote (h : Level n) (req : RequestVoteRequest) :
    Level (n.handleRequestVote req).1 := by
  rcases n.handleRequestVote_cases req with ⟨_, heq⟩ | ⟨m, hm, _, hvoted⟩
  · rw [heq]
    exact h
  have hheard : Level m := by
    rcases hm with ⟨_, rfl⟩ | ⟨_, rfl⟩
    · exact h
    · exact h.becomeFollower _ _
  rcases hvoted with ⟨_, _, heq⟩ | heq
  · rw [heq]
    exact hheard
  · rw [heq]
    exact hheard

/-- A vote keeps the levels. -/
theorem Level.voteReply (h : Level n) (hlog : n.log.Contiguous)
    (hbase : n.log.head.index ≤ n.lastApplied) (peer : String) (req : RequestVoteRequest)
    (resp : RequestVoteResponse) : Level (n.sendRequestVoteReply peer req resp) := by
  rcases n.sendRequestVoteReply_cases peer req resp with
    ⟨_, heq⟩ | heq | ⟨_, ⟨_, heq⟩ | ⟨_, heq⟩⟩
  · rw [heq]
    exact h.becomeFollower _ _
  · rw [heq]
    exact h
  · rw [heq]
    refine Level.becomeLeader ?_ hlog hbase
    exact h
  · rw [heq]
    exact h

/-- A successful reply keeps the levels: what it commits is applied. -/
theorem Level.matched (h : Level n) (hlog : n.log.Contiguous)
    (hbase : n.log.head.index ≤ n.lastApplied) (peer : String) (index : Int) :
    Level (n.matched peer index) := by
  unfold RaftNode.matched replicateAgain
  exact Level.settle (n := (n.setMatch peer index).setNext peer (index + 1)) h hlog hbase

/-- The reply to `AppendEntries` keeps the levels. -/
theorem Level.appendReply (h : Level n) (hlog : n.log.Contiguous)
    (hbase : n.log.head.index ≤ n.lastApplied) (peer : String) (req : AppendEntriesRequest)
    (resp : AppendEntriesResponse) : Level (n.replicateToAppended peer req resp) := by
  rcases n.replicateToAppended_cases peer req resp with
    ⟨_, heq⟩ | ⟨_, ⟨_, heq⟩ | ⟨_, _, heq⟩ | ⟨m, rfl | ⟨i, _, rfl⟩, heq⟩⟩
  · rw [heq]
    exact h
  · rw [heq]
    exact h.becomeFollower resp.term ""
  · rw [heq]
    exact h.matched hlog hbase _ _
  · rw [heq]
    exact h
  · rw [heq]
    exact h

/-- The reply to `InstallSnapshot` keeps the levels. -/
theorem Level.installReply (h : Level n) (hlog : n.log.Contiguous)
    (hbase : n.log.head.index ≤ n.lastApplied) (peer : String) (req : InstallSnapshotRequest)
    (resp : InstallSnapshotResponse) : Level (n.replicateToInstalled peer req resp) := by
  rcases n.replicateToInstalled_cases peer req resp with
    ⟨_, heq⟩ | ⟨_, ⟨_, heq⟩ | ⟨_, heq⟩⟩
  · rw [heq]
    exact h
  · rw [heq]
    exact h.becomeFollower resp.term ""
  · rw [heq]
    exact h.matched hlog hbase _ _

/-- A proposal keeps the levels. -/
theorem Level.propose (h : Level n) (hlog : n.log.Contiguous)
    (hbase : n.log.head.index ≤ n.lastApplied) (cmd : Bytes) : Level (n.propose cmd).1 := by
  rcases n.propose_cases cmd with ⟨e, heq⟩ | ⟨_, heq⟩
  · rw [heq]
    exact h
  · rw [heq]
    refine Level.appended ?_ ?_ ?_ _
    · exact h
    · exact hlog.append rfl
    · exact hbase

/-- The members of a new configuration are tracked before its entry is sent. -/
theorem Level.tracked (h : Level n) (hlog : n.log.Contiguous)
    (hbase : n.log.head.index ≤ n.lastApplied) (index : Int) :
    Level (n.ensurePeerTrackingLocked.notifyPeersLocked.appended index) := by
  rw [ensurePeerTracking_spec]
  refine Level.appended ?_ ?_ ?_ index
  · exact h
  · exact hlog
  · exact hbase

/-- A change of the membership keeps the levels. -/
theorem Level.proposeChange (h : Level n) (hlog : n.log.Contiguous)
    (hbase : n.log.head.index ≤ n.lastApplied) (ch : MembershipChange) :
    Level (n.proposeChangeLocked ch).1 := by
  rcases n.proposeChange_cases ch with ⟨e, heq⟩ | ⟨c, _, _, heq⟩
  · rw [heq]
    exact h
  · rw [heq]
    refine Level.tracked ?_ ?_ ?_ _
    · exact h
    · exact hlog.append rfl
    · exact hbase

/-- A follower commits what the leader has committed. Where its log is too short for what it had
applied, its indexes are out of order afterwards. -/
theorem Level.followCommit (h : Level n) (hlog : n.log.Contiguous)
    (hbase : n.log.head.index ≤ n.lastApplied) {leaderCommit : Int}
    (ho : InOrder (n.followCommitLocked leaderCommit)) :
    Level (n.followCommitLocked leaderCommit) := by
  have hla : n.lastApplied = n.commitIndex := h
  unfold followCommitLocked at ho ⊢
  split
  swap
  · exact h
  next hgt =>
  rw [if_pos hgt] at ho
  dsimp only at ho ⊢
  -- the commit index follows the leader's, but not beyond the log
  have hci : (if leaderCommit > n.log.lastLogIndexLocked then n.log.lastLogIndexLocked
      else leaderCommit) ≤ n.log.lastLogIndexLocked := by
    split <;> omega
  generalize (if leaderCommit > n.log.lastLogIndexLocked then n.log.lastLogIndexLocked
    else leaderCommit) = c at ho hci ⊢
  rcases le_or_gt n.lastApplied c with hle | hlt
  · exact level_applyCommitted (n := { n with commitIndex := c }) hlog hbase hle hci
  -- it cannot fall below what was applied: that would be out of order
  · have happlied := ho.applied_le
    rw [lastApplied_of_le (n := { n with commitIndex := c }) hlt.le, commitIndex_applyCommitted]
      at happlied
    exact absurd happlied (not_le.mpr hlt)

/-- A merge applies nothing. -/
theorem lastApplied_mergeLocked (n : RaftNode σ) (req : AppendEntriesRequest) :
    (n.mergeLocked req).lastApplied = n.lastApplied := by
  rcases n.mergeLocked_cases req with hsame | hmerged
  · rw [hsame]
  · rw [hmerged]
    rfl

/-- A request of a leader keeps the levels. -/
theorem Level.appendEntries (h : Level n) (hlog : n.log.Contiguous)
    (hbase : n.log.head.index ≤ n.lastApplied) {req : AppendEntriesRequest}
    (ho : InOrder (n.handleAppendEntries req).1) : Level (n.handleAppendEntries req).1 := by
  have hheard : Level (n.hearLeader req.term req.leaderID) := by
    unfold Level
    rw [lastApplied_hearLeader, commitIndex_hearLeader]
    exact h
  rcases n.handleAppendEntries_cases req with ⟨_, heq⟩ | ⟨_, _, heq⟩ | ⟨_, hprev, heq⟩
  · rw [heq]
    exact h
  · rw [heq]
    exact hheard
  -- the merged log still begins at or below what was applied
  rw [heq] at ho ⊢
  obtain ⟨q, hq, hidx⟩ := Log.exists_position hprev.1 hprev.2
  have hstart : req.prevLogIndex + 1 = n.log.head.index + 1 + q := by omega
  have hmerged : ((n.hearLeader req.term req.leaderID).mergeLocked req).log =
      (n.log.mergeEntries req.entries (req.prevLogIndex + 1)).1 := by
    rw [log_mergeLocked, log_hearLeader]
  have hla : ((n.hearLeader req.term req.leaderID).mergeLocked req).lastApplied =
      n.lastApplied := by
    rw [lastApplied_mergeLocked, lastApplied_hearLeader]
  refine Level.followCommit ?_ ?_ ?_ ho
  · unfold Level
    rw [hla, commitIndex_mergeLocked, commitIndex_hearLeader]
    exact h
  · rw [hmerged]
    exact hlog.merge hstart hq
  · rw [hmerged, Log.head_mergeEntries, hla]
    exact hbase

/-- A snapshot keeps the levels. -/
theorem Level.installSnapshot (h : Level n) {req : InstallSnapshotRequest}
    (ho : InOrder (n.handleInstallSnapshot req).1) : Level (n.handleInstallSnapshot req).1 := by
  have hheard : Level (n.hearLeader req.term req.leaderID) := by
    unfold Level
    rw [lastApplied_hearLeader, commitIndex_hearLeader]
    exact h
  rcases n.handleInstallSnapshot_cases req with ⟨_, heq⟩ | ⟨_, _, heq⟩ | ⟨_, _, heq⟩
  · rw [heq]
    exact h
  · rw [heq]
    exact hheard
  rw [heq] at ho ⊢
  have hle := ho.commit_le
  have hinst := (n.hearLeader req.term req.leaderID).installed req
  unfold Level
  rw [hinst.commitIndex_eq, hinst.log_eq] at hle
  rw [hinst.lastApplied_eq, hinst.commitIndex_eq]
  -- the snapshot moves both indices, or neither
  split
  · rfl
  · next hge =>
    rw [if_neg hge] at hle
    -- the log ends with the snapshot
    have hend : (n.hearLeader req.term req.leaderID).commitIndex ≤ req.lastIncludedIndex := hle
    omega

/-- Preparing a request moves the next index of the peer at most. -/
theorem Level.replicate (h : Level n) (peer : String) : Level (handle n (.replicate peer)) := by
  obtain ⟨m, hm, heq⟩ := handle_replicate_cases n peer
  have hlevel : Level m := by
    rcases hm with rfl | rfl
    · exact h
    · exact h
  rcases heq with heq | heq
  · rw [heq]
    exact hlevel
  · rw [heq]
    exact hlevel

/-- **A node that keeps its indexes in order has applied all it has committed.** -/
theorem level_handle (hlog : n.log.Contiguous) (hbase : n.log.head.index ≤ n.lastApplied)
    (h : Level n) (ho : InOrder (handle n ev)) : Level (handle n ev) := by
  cases ev with
  | tick due => exact h.tick hlog hbase due
  | requestVote req => exact h.requestVote req
  | appendEntries req => exact h.appendEntries hlog hbase ho
  | installSnapshot req => exact h.installSnapshot ho
  | voteReply peer req resp => exact h.voteReply hlog hbase peer req resp
  | appendReply peer req resp => exact h.appendReply hlog hbase peer req resp
  | installReply peer req resp => exact h.installReply hlog hbase peer req resp
  | confirmReply term resp =>
    simp only [handle, sendConfirmHeartbeatReply]
    split
    · exact h.becomeFollower _ _
    · exact h
  | replicate peer => exact h.replicate peer
  | replicateDone peer => exact h
  | propose cmd => exact h.propose hlog hbase cmd
  | addServer target addr http =>
    simp only [handle, RaftNode.addServer]
    split
    · exact h
    · exact h.proposeChange hlog hbase _
  | removeServer target =>
    simp only [handle, RaftNode.removeServer]
    split
    · exact h
    · exact h.proposeChange hlog hbase _
  | readIndex =>
    simp only [handle, waitCurrentTermPoll]
    split
    · exact h
    split
    · exact h
    · exact h.broadcast
  | crash => exact h
  | restart => exact h
  | clusterRestart raftAddrs httpAddrs => exact h

/-! ## A start -/

/-- Restoring the machine moves both indices to the snapshot's. -/
theorem Level.restoreSnapshot (h : Level n) : Level n.restoreSnapshotLocked := by
  have hla : n.lastApplied = n.commitIndex := h
  unfold restoreSnapshotLocked
  split
  · exact h
  split
  · exact h
  split
  · exact h
  · unfold Level
    dsimp only
    rw [hla]

/-- So does recovery. -/
theorem Level.recover (h : Level n) (d : DurableState) : Level (n.recover d) := by
  have hload : Level (n.load d) := by
    unfold load
    dsimp only
    split <;> split <;> exact h
  exact recover_rule hload (fun _ _ => rfl) (fun _ hm => hm.restoreSnapshot) (fun _ hm => hm)
    (fun _ _ hm => hm)

/-- A node starts with both indexes at its snapshot. -/
theorem level_boot (M : Machine σ) (cfg : Config) (storage : Option Storage) :
    Level (boot M cfg storage) := by
  have hnew : Level (newNode cfg storage (some M.snapshotter) M.init) := by
    unfold newNode
    cases storage with
    | none => rfl
    | some st =>
      dsimp only
      split
      -- with a disk, the state is recovered
      · have hfresh : Level (fresh cfg (some st) (some M.snapshotter) M.init) := rfl
        exact hfresh.recover st.load
      · rfl
  exact Level.restoreSnapshot (n := { newNode cfg storage (some M.snapshotter) M.init with
    apply := some M.apply }) hnew

/-! ## Calls of `apply` -/

/-- The calls of `apply` since `p`: one for each index at most, in order, none beyond what is
applied. -/
structure Once (p : List (Int × LogEntry)) (n : RaftNode σ) : Prop where
  grown : p <+: n.applies
  sorted : n.applies.Pairwise (fun x y => x.1 < y.1)
  bounded : ∀ x ∈ n.applies, x.1 ≤ n.lastApplied

theorem once_boot (M : Machine σ) (cfg : Config) (storage : Option Storage) :
    Once [] (boot M cfg storage) := by
  have hnone := applies_boot M cfg storage
  exact ⟨List.nil_prefix, by simp [hnone], by simp [hnone]⟩

/-- One more call, for the next index. -/
theorem Once.applyNext (h : Once p n) (e : LogEntry) :
    Once p (n.applyNext (n.lastApplied + 1) e) := by
  -- the earlier calls are bounded by the new index
  have hle : ∀ x ∈ n.applies, x.1 ≤ n.lastApplied + 1 := fun x hx => by
    have := h.bounded x hx
    omega
  unfold RaftNode.applyNext
  dsimp only
  split
  · refine ⟨h.grown.trans (List.prefix_append _ _), ?_, ?_⟩
    -- it is larger than that of every call before
    · refine List.pairwise_append.mpr ⟨h.sorted, List.pairwise_singleton _ _, fun x hx y hy => ?_⟩
      obtain rfl := List.mem_singleton.mp hy
      have := h.bounded x hx
      show x.1 < n.lastApplied + 1
      omega
    · intro x hx
      rcases List.mem_append.mp hx with hold | hnew
      · exact hle x hold
      · obtain rfl := List.mem_singleton.mp hnew
        exact le_refl _
  · exact ⟨h.grown, h.sorted, hle⟩

/-- No section but the installation of a snapshot lets the record of calls go back. -/
theorem kept_once (p : List (Int × LogEntry)) : Kept (σ := σ) (Once p) where
  minor := by
    intro m m' hstep h
    cases hstep with
    | volatile v => exact { h with }
    | ballot term vote _ => exact { h with }
    | apply e _ _ => exact h.applyNext e
    | compact e data s _ _ _ _ => exact { h with }
  append := fun _ _ h => { h with }
  change := fun _ h => { h with }

/-- **`apply` is called at most once for an index**, as long as the applied index is not set
back. -/
theorem once_handle (h : Once p n) (hle : n.lastApplied ≤ (handle n ev).lastApplied) :
    Once p (handle n ev) := by
  by_cases hev : ∃ req, ev = .installSnapshot req
  · -- the log is replaced, and no call is made
    obtain ⟨req, rfl⟩ := hev
    have happlies : (handle n (.installSnapshot req)).applies = n.applies := by
      have hheard : (n.hearLeader req.term req.leaderID).applies = n.applies := by
        obtain ⟨_, _, _, _, heq⟩ := n.hearLeader_eq req.term req.leaderID
        rw [heq]
      show (n.handleInstallSnapshot req).1.applies = n.applies
      rcases n.handleInstallSnapshot_cases req with ⟨_, heq⟩ | ⟨_, _, heq⟩ | ⟨_, _, heq⟩
      · rw [heq]
      · rw [heq, hheard]
      · rw [heq, (RaftNode.installed _ req).applies_eq, hheard]
    refine ⟨?_, ?_, ?_⟩
    · rw [happlies]
      exact h.grown
    · rw [happlies]
      exact h.sorted
    · rw [happlies]
      exact fun x hx => (h.bounded x hx).trans hle
  · refine (kept_once p).handle ?_ h
    cases ev with
    | appendEntries req =>
      intro m _ _ _ hm
      rcases m.mergeLocked_cases req with hsame | hmerged
      · rw [hsame]
        exact hm
      · rw [hmerged]
        exact { hm with }
    | installSnapshot req => exact absurd ⟨req, rfl⟩ hev
    | _ => trivial

end Node
