import RaftStore.Refine.Winning

/-!
# The sender's side of replication

A round of `replicateTo` reads a request off the leader's log (`NodeRel.replicateToHead`):
an append cuts the log where the peer is expected to stand, a snapshot is the compacted
part of it. A positive reply was recorded when the peer sent it, so counting the peer is
only a matter of looking the record up (`NodeRel.matched`), no matter how late the reply
is or how many goroutines replicate to the same peer.
-/

namespace Refine

open Raft Consensus Cluster

variable {σ : Type} {X : Mode σ} {a a' : Chron} {id : String} {n n' : RaftNode σ}
  {K : Nat → Prop} {peer : String}

/-! ## Requests -/

theorem Live.reign_eq (h : Live X a id n) (hg : Good X a) (hld : n.state = .leader) :
    a.reign n.currentTerm = a.log id := by
  obtain ⟨hterm, Q, hwon⟩ := h.won hld
  rw [← hterm]
  exact (hg.inv.logs.leader_log hwon rfl).symm

/-- A request that cuts the leader's log at `p`. -/
theorem Live.appendReq (h : Live X a id n) (hg : Good X a) (hld : n.state = .leader) {p : Nat}
    {req : AppendEntriesRequest} (hp : p ≤ (a.log id).length) (hterm : req.term = n.currentTerm)
    (hprev : req.prevLogIndex = p) (hprevTerm : req.prevLogTerm = endTerm ((a.log id).take p))
    (hes : req.entries = (a.log id).drop p) (hc : req.leaderCommit = n.commitIndex) :
    AppendReq X a id req := by
  obtain ⟨Q, hwon⟩ := (h.leader hld).won
  refine ⟨⟨Q, by rw [hterm]; exact hwon⟩, a.log id, p, ?_, hp, hprev, hprevTerm, hes, ?_⟩
  · rw [hterm, h.reign_eq hg hld]
  · intro hs
    have hpr := h.progress hs
    rw [hc, hterm]
    exact ⟨hpr.applied_nonneg.trans hpr.applied_le, hpr.commit_le, hpr.settled⟩

/-- The snapshot a leader sends stands for the compacted part of its log. -/
theorem Live.installReq (h : Live X a id n) (hg : Good X a) (hld : n.state = .leader)
    (hpos : 0 < n.log.lastIncludedIndexLocked) :
    InstallReq X a id n.installSnapshotRequestLocked := by
  obtain ⟨Q, hwon⟩ := (h.leader hld).won
  obtain ⟨b, hst⟩ := h.stored
  have hlen : ((a.log id).take b).length = b := by
    rw [List.length_take, Nat.min_eq_left hst.base_le]
  have hb : 0 < b := by
    rw [hst.log_eq, lastIncludedIndex_render] at hpos
    omega
  have hcomp : X.compacting := by
    by_contra hno
    have := hst.base_zero hno
    omega
  refine ⟨hcomp, ⟨Q, hwon⟩, (a.log id).take b, ?_, ?_, ?_, ?_, hst.placed,
    fun hs => ⟨hst.settled hs, hst.nonempty hs hb, hst.snap hs⟩⟩
  · show _ <+: a.reign n.currentTerm
    rw [h.reign_eq hg hld]
    exact List.take_prefix _ _
  · apply List.ne_nil_of_length_pos
    omega
  · show n.log.lastIncludedIndexLocked = _
    rw [hlen, hst.log_eq, lastIncludedIndex_render]
  · show n.log.lastIncludedTermLocked = _
    rw [hst.log_eq, lastIncludedTerm_render]

/-- `nextIndex` is not part of the relation: it only decides where a request starts. -/
theorem NodeRel.setNext (h : NodeRel X a id n) (hg : Good X a) (peer : String) (i : Int) :
    Reached X id K a a n (n.setNext peer i) :=
  h.reach hg (Later.refl id a) { h.toLive with } rfl rfl (fun _ => le_refl _) kept_log

theorem NodeRel.clampNext (h : NodeRel X a id n) (hg : Good X a) (peer : String) :
    Reached X id K a a n (n.clampNext peer) := by
  unfold RaftNode.clampNext
  split
  · exact h.setNext hg peer _
  · exact h.reach_self hg

/-- The request for a peer is cut off the leader's log. -/
theorem NodeRel.makeAppendRequest (h : NodeRel X a id n) (hg : Good X a)
    (hld : n.state = .leader) (peer : String) :
    Reached X id K a a n (n.makeAppendRequestLocked peer).1 ∧
      ∀ req, (n.makeAppendRequestLocked peer).2 = some req → AppendReq X a id req := by
  rcases le_or_gt (n.next peer) n.log.lastIncludedIndexLocked with hle | hlo
  · -- what the peer needs is compacted
    unfold RaftNode.makeAppendRequestLocked
    rw [if_pos hle]
    exact ⟨h.reach_self hg, by intro req hreq; cases hreq⟩
  obtain ⟨t, ht, heq⟩ := RaftNode.makeAppendRequest_eq (h.toLive.contiguous hg) hlo
  rw [heq]
  refine ⟨h.clampNext hg peer, ?_⟩
  intro req hreq
  cases hreq
  have hlast := h.toLive.lastLogIndex_eq hg
  obtain ⟨b, hst⟩ := h.stored
  have hbase := hst.base_le
  rw [hst.log_eq, lastIncludedIndex_render] at hlo
  obtain ⟨p, hp, hbp, hplen⟩ : ∃ p : Nat, n.startIndex peer - 1 = p ∧ b ≤ p ∧
      p ≤ (a.log id).length := by
    refine ⟨(n.startIndex peer - 1).toNat, ?_, ?_, ?_⟩ <;>
    · unfold RaftNode.startIndex
      omega
  rw [hp, hst.log_eq, termAt_render hbp hplen] at ht
  refine h.toLive.appendReq hg hld hplen rfl hp (Option.some.inj ht).symm ?_ rfl
  show n.log.tail.drop (n.startIndex peer - 1 - n.log.head.index).toNat = _
  rw [hp, hst.log_eq]
  show ((a.log id).drop b).drop ((p : Int) - (b : Int)).toNat = _
  rw [List.drop_drop]
  congr 1
  omega

/-- **A round of `replicateTo` up to its call.** -/
theorem NodeRel.replicateToHead (h : NodeRel X a id n) (hg : Good X a) (peer : String) :
    Reached X id K a a n (n.replicateToHead peer).1 ∧
      (∀ req, (n.replicateToHead peer).2 = some (.append req) → AppendReq X a id req) ∧
      ∀ req, (n.replicateToHead peer).2 = some (.install req) → InstallReq X a id req := by
  unfold RaftNode.replicateToHead
  split
  · exact ⟨h.reach_self hg, (by intro req hreq; cases hreq), (by intro req hreq; cases hreq)⟩
  next hnl =>
  have hld : n.state = .leader := not_not.mp hnl
  split
  · next hshould =>
    refine ⟨h.reach_self hg, (by intro req hreq; cases hreq), ?_⟩
    intro req hreq
    cases hreq
    unfold RaftNode.shouldInstallSnapshotLocked at hshould
    rw [Bool.and_eq_true, decide_eq_true_eq] at hshould
    exact h.toLive.installReq hg hld hshould.1
  · obtain ⟨hr, hreq⟩ := h.makeAppendRequest hg hld peer
    refine ⟨hr, ?_, ?_⟩
    · intro req heq
      obtain ⟨r, hr', hrr⟩ := Option.map_eq_some_iff.mp heq
      cases hrr
      exact hreq _ hr'
    · intro req heq
      obtain ⟨r, _, hrr⟩ := Option.map_eq_some_iff.mp heq
      cases hrr

/-- The heartbeat of `confirmLeadership` cuts the log at its end. -/
theorem Live.confirmReq (h : Live X a id n) (hg : Good X a) (hld : n.state = .leader) :
    AppendReq X a id n.confirmHeartbeatLocked := by
  obtain ⟨b, hst⟩ := h.stored
  refine h.appendReq hg hld (le_refl _) rfl (h.lastLogIndex_eq hg) ?_ ?_ rfl
  · show n.log.lastLogTermLocked = _
    rw [hst.log_eq, lastLogTerm_render hst.base_le, List.take_length]
  · rw [List.drop_length]
    rfl

/-! ## Replies -/

/-- **Counting a peer.** -/
theorem NodeRel.matched (h : NodeRel X a id n) (hg : Good X a) (hv : X.Valid)
    (hld : n.state = .leader) (hne : peer ≠ id) {i : Int}
    (hack : X.strict → a.ack peer n.currentTerm i.toNat) :
    ∃ a', Reached X id K a a' n (n.matched peer i) := by
  have hr₁ : Reached X id K a a n ((n.setMatch peer i).setNext peer (i + 1)) :=
    h.reach hg (Later.refl id a) (h.toLive.track (fun _ => hack) _) rfl rfl
      (fun _ => le_refl _) kept_log
  obtain ⟨a', hr₂⟩ := hr₁.rel.advanceCommit (K := K) hg hld
  have hr₃ := hr₂.rel.applyCommitted (K := K) hr₂.good hv
  exact ⟨a', hr₁.trans (hr₂.trans (hr₃.trans (hr₃.rel.replicateAgain hr₃.good hne _)))⟩

/-- A reply of a later term makes the sender step down. -/
theorem NodeRel.replicateToStale (h : NodeRel X a id n) (hg : Good X a)
    (hne : peer ≠ id) (t : Int) :
    ∃ a', Reached X id K a a' n ((n.becomeFollowerLocked t "").replicateAgain peer false) := by
  obtain ⟨a', hr⟩ := h.becomeFollower hg t ""
  exact ⟨a', hr.trans (hr.rel.replicateAgain hr.good hne false)⟩

theorem NodeRel.replicateToInstalled (h : NodeRel X a id n) (hg : Good X a) (hv : X.Valid)
    (hne : peer ≠ id) {req : InstallSnapshotRequest}
    {resp : InstallSnapshotResponse}
    (hack : resp.term ≤ req.term → X.strict → a.ack peer req.term req.lastIncludedIndex.toNat) :
    ∃ a', Reached X id K a a' n (n.replicateToInstalled peer req resp) := by
  rcases n.replicateToInstalled_cases peer req resp with
    ⟨_, heq⟩ | ⟨hstill, ⟨_, heq⟩ | ⟨hle, heq⟩⟩
  · rw [heq]
    exact ⟨a, h.replicateAgain hg hne false⟩
  · rw [heq]
    exact h.replicateToStale hg hne _
  · rw [heq]
    refine h.matched hg hv hstill.1 hne (fun hs => ?_)
    rw [hstill.2] at hle ⊢
    exact hack hle hs

theorem NodeRel.replicateToAppended (h : NodeRel X a id n) (hg : Good X a) (hv : X.Valid)
    (hne : peer ≠ id) {req : AppendEntriesRequest}
    {resp : AppendEntriesResponse} (hreq : AppendReq X a id req)
    (hack : resp.success = true → X.strict →
      a.ack peer req.term (req.prevLogIndex.toNat + req.entries.length)) :
    ∃ a', Reached X id K a a' n (n.replicateToAppended peer req resp) := by
  rcases n.replicateToAppended_cases peer req resp with
    ⟨_, heq⟩ | ⟨hstill, ⟨_, heq⟩ | ⟨_, hok, heq⟩ | ⟨m, hm, heq⟩⟩
  · rw [heq]
    exact ⟨a, h.replicateAgain hg hne false⟩
  · rw [heq]
    exact h.replicateToStale hg hne _
  · rw [heq]
    refine h.matched hg hv hstill.1 hne (fun hs => ?_)
    obtain ⟨_, g, p, _, _, hprev, _⟩ := hreq
    have hnat : (req.prevLogIndex + req.entries.length).toNat =
        req.prevLogIndex.toNat + req.entries.length := by omega
    rw [hstill.2, hnat]
    exact hack hok hs
  · -- backing off moves `nextIndex` only
    have hr : Reached X id K a a n m := by
      rcases hm with rfl | ⟨i, _, rfl⟩
      · exact h.reach_self hg
      · exact h.setNext hg peer i
    rw [heq]
    exact ⟨a, hr.trans (hr.rel.replicateAgain hg hne true)⟩

theorem NodeRel.replicateToDone (h : NodeRel X a id n) (hg : Good X a) (peer : String) :
    Reached X id K a a n (n.replicateToDone peer) :=
  h.reach hg (Later.refl id a) { h.toLive with } rfl rfl (fun _ => le_refl _) kept_log

theorem NodeRel.sendConfirmHeartbeatReply (h : NodeRel X a id n) (hg : Good X a) (term : Int)
    (resp : AppendEntriesResponse) :
    ∃ a', Reached X id K a a' n (n.sendConfirmHeartbeatReply term resp).1 := by
  unfold RaftNode.sendConfirmHeartbeatReply
  split
  · exact h.becomeFollower hg _ _
  · exact ⟨a, h.reach_self hg⟩

end Refine
