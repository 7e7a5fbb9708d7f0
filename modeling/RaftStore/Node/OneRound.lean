import RaftStore.Node.Settle
import RaftStore.Node.Terms

/-!
# What a round leaves alone

A round of `replicateTo` for one peer may compact the leader's log and move its commit index. The
tracking of the other peers stays as it is (`OneRound`), and if the round leaves a majority with an
entry of the leader's own term, that entry is committed. A leader whose peer is in a later term
steps down (`round_deposed`).
-/

namespace Node

open Raft Cluster RaftNode

variable {σ : Type} {l l' f n m : RaftNode σ} {peer : String} {i : Int}

/-- The leader after a round for `peer`. -/
structure OneRound (l : RaftNode σ) (peer : String) (l' : RaftNode σ) : Prop where
  state_eq : l'.state = l.state
  term_eq : l'.currentTerm = l.currentTerm
  log : l.log.Compacted l'.log
  next_ne : ∀ q, q ≠ peer → l'.next q = l.next q
  match_ne : ∀ q, q ≠ peer → l'.matchIndex q = l.matchIndex q
  goroutines : ∃ g, l'.goroutines = l.goroutines ++ [g]
  commits : ∀ L, l.log.termAtLocked L = some l.currentTerm → L ≤ l.log.lastLogIndexLocked →
    (l.majority ≤ l.replicas L → L ≤ l.commitIndex) →
    l.majority ≤ l.peerIDs.countP (fun p => decide (L ≤ l'.matchIndex p)) → L ≤ l'.commitIndex

/-- Preparing a call moves the next index of the peer at most. -/
theorem next_of_head (hm : m = l ∨ ∃ i, m = l.setNext peer i) :
    (∃ nx, m = { l with nextIndex := nx }) ∧ ∀ q, q ≠ peer → m.next q = l.next q := by
  rcases hm with rfl | ⟨i, rfl⟩
  · exact ⟨⟨_, rfl⟩, fun _ _ => rfl⟩
  · exact ⟨⟨_, rfl⟩, fun q hq => by simp [RaftNode.next, setNext, hq]⟩

/-- Nothing but the next index of the peer has changed. -/
theorem oneRound_again (hm : m = l ∨ ∃ i, m = l.setNext peer i) (more : Bool) :
    OneRound l peer (m.replicateAgain peer more) := by
  obtain ⟨⟨nx, rfl⟩, hnext⟩ := next_of_head hm
  exact ⟨rfl, rfl, .refl _, hnext, fun _ _ => rfl, ⟨_, rfl⟩, fun L _ _ hset hmaj => hset hmaj⟩

/-- **A confirmation commits** what a majority now holds. -/
theorem oneRound_matched (l : RaftNode σ) (peer : String) (i : Int) :
    OneRound l peer (l.matched peer i) := by
  have hstanding := standing_settle ((l.setMatch peer i).setNext peer (i + 1))
  have hconf := confirmed l peer i
  have hcommit : ∀ L, l.log.termAtLocked L = some l.currentTerm → L ≤ l.log.lastLogIndexLocked →
      l.majority ≤ l.peerIDs.countP (fun p => decide (L ≤ Function.update l.matchIndex peer i p)) →
      L ≤ (l.matched peer i).commitIndex := by
    intro L hterm hle hmaj
    show L ≤ RaftNode.commitIndex
      ((l.setMatch peer i).setNext peer (i + 1)).advanceCommitLocked.applyCommittedLocked
    rw [commitIndex_applyCommitted]
    exact commit_advance hterm hle hmaj
  have hnext : (l.matched peer i).nextIndex = Function.update l.nextIndex peer (some (i + 1)) := by
    exact congrArg (·.2.2.1) hstanding
  have hmatch : (l.matched peer i).matchIndex = Function.update l.matchIndex peer i := by
    exact congrArg (·.2.2.2.1) hstanding
  refine ⟨hconf.state_eq, hconf.term_eq, hconf.log, fun q hq => ?_, fun q hq => ?_,
    ⟨_, hconf.goroutines_eq⟩, fun L hterm hle _ hmaj => hcommit L hterm hle ?_⟩
  · unfold RaftNode.next
    rw [hnext, Function.update_of_ne hq]
  · rw [hmatch, Function.update_of_ne hq]
  · rw [← hmatch]
    exact hmaj

theorem oneRound_appended {req : AppendEntriesRequest} {resp : AppendEntriesResponse}
    (hresp : resp.term ≤ l.currentTerm) :
    OneRound l peer (l.replicateToAppended peer req resp) := by
  rcases l.replicateToAppended_cases peer req resp with
    ⟨_, heq⟩ | ⟨_, ⟨hlt, _⟩ | ⟨_, _, heq⟩ | ⟨m, hm, heq⟩⟩
  · rw [heq]
    exact oneRound_again (Or.inl rfl) false
  · omega
  · rw [heq]
    exact oneRound_matched l peer _
  · rw [heq]
    refine oneRound_again ?_ true
    rcases hm with rfl | ⟨i, _, rfl⟩
    · exact Or.inl rfl
    · exact Or.inr ⟨i, rfl⟩

theorem oneRound_installed {req : InstallSnapshotRequest} {resp : InstallSnapshotResponse}
    (hresp : resp.term ≤ l.currentTerm) :
    OneRound l peer (l.replicateToInstalled peer req resp) := by
  rcases l.replicateToInstalled_cases peer req resp with ⟨_, heq⟩ | ⟨_, ⟨hlt, _⟩ | ⟨_, heq⟩⟩
  · rw [heq]
    exact oneRound_again (Or.inl rfl) false
  · omega
  · rw [heq]
    exact oneRound_matched l peer _

/-- Preparing a call does not matter. -/
theorem OneRound.of_head (hm : m = l ∨ ∃ i, m = l.setNext peer i) (h : OneRound m peer l') :
    OneRound l peer l' := by
  obtain ⟨⟨nx, rfl⟩, hnext⟩ := next_of_head hm
  exact ⟨h.state_eq, h.term_eq, h.log, fun q hq => (h.next_ne q hq).trans (hnext q hq), h.match_ne,
    h.goroutines, h.commits⟩

/-- **What a leader sends**: its snapshot, where the peer needs what is compacted, and entries
otherwise. -/
theorem head_cases (hs : l.state = .leader) (hlog : l.log.Contiguous)
    (hbase : 0 ≤ l.log.head.index) (hnext : 0 < l.next peer) :
    (l.next peer ≤ l.log.head.index ∧
      l.replicateToHead peer = (l, some (.install l.installSnapshotRequestLocked))) ∨
    (l.log.head.index < l.next peer ∧ ∃ req, l.replicateToHead peer =
      (l.clampNext peer, some (.append req)) ∧ req.term = l.currentTerm) := by
  rcases le_or_gt (l.next peer) l.log.head.index with hle | hlt
  · refine Or.inl ⟨hle, ?_⟩
    unfold replicateToHead
    rw [if_neg (by simp [hs]), if_pos]
    unfold shouldInstallSnapshotLocked Log.lastIncludedIndexLocked
    simp only [Bool.and_eq_true, decide_eq_true_eq]
    omega
  · -- whom the entries go to does not matter yet
    have hself : Session l l peer := ⟨hs, le_rfl, hlog, hbase, hnext⟩
    obtain ⟨req, heq, hreq, _⟩ := hself.append hlt
    exact Or.inr ⟨hlt, req, heq, hreq⟩

theorem clampNext_cases (l : RaftNode σ) (peer : String) :
    l.clampNext peer = l ∨ ∃ i, l.clampNext peer = l.setNext peer i := by
  unfold clampNext
  split
  · exact Or.inr ⟨_, rfl⟩
  · exact Or.inl rfl

/-- **A round for one peer leaves the others alone**, and the peer is in the leader's term at most.
-/
theorem Session.oneRound (h : Session l f peer) :
    OneRound l peer (round l f peer).1 ∧ (round l f peer).2.currentTerm ≤ l.currentTerm := by
  have hterm := h.term_le
  unfold round
  rcases head_cases h.leader h.log h.base_nonneg h.next_pos with ⟨_, heq⟩ | ⟨_, req, heq, hreq⟩
  · rw [heq]
    dsimp only
    rcases f.handleInstallSnapshot_cases l.installSnapshotRequestLocked with
      ⟨_, hr⟩ | ⟨hle, _, hr⟩ | ⟨hle, _, hr⟩
    · rw [hr]
      exact ⟨oneRound_installed hterm, hterm⟩
    · rw [hr]
      exact ⟨oneRound_installed le_rfl, (f.hearLeader_fields (not_lt.mpr hle) _).1.le⟩
    · rw [hr]
      refine ⟨oneRound_installed le_rfl, ?_⟩
      dsimp only
      rw [((f.hearLeader _ _).installed _).currentTerm_eq]
      exact (f.hearLeader_fields (not_lt.mpr hle) _).1.le
  · have hclamp := clampNext_cases l peer
    have hcur : (l.clampNext peer).currentTerm = l.currentTerm := by
      obtain ⟨next, hc⟩ := l.clampNext_eq peer
      rw [hc]
    rw [heq]
    dsimp only
    rcases f.handleAppendEntries_cases req with ⟨_, hr⟩ | ⟨hle, _, hr⟩ | ⟨hle, _, hr⟩
    · rw [hr]
      exact ⟨(oneRound_appended (by rw [hcur]; exact hterm)).of_head hclamp, hterm⟩
    · rw [hr]
      refine ⟨(oneRound_appended (by rw [hcur, hreq])).of_head hclamp, ?_⟩
      exact ((f.hearLeader_fields (not_lt.mpr hle) _).1.trans hreq).le
    · rw [hr]
      refine ⟨(oneRound_appended (by rw [hcur, hreq])).of_head hclamp, ?_⟩
      dsimp only
      rw [currentTerm_followCommit, currentTerm_mergeLocked]
      exact ((f.hearLeader_fields (not_lt.mpr hle) _).1.trans hreq).le

/-- **A leader whose peer is in a later term steps down.** -/
theorem round_deposed (hs : l.state = .leader) (hlog : l.log.Contiguous)
    (hbase : 0 ≤ l.log.head.index) (hnext : 0 < l.next peer)
    (hterm : l.currentTerm < f.currentTerm) : (round l f peer).1.state = .follower := by
  have hfol : ∀ m : RaftNode σ, ((m.becomeFollowerLocked f.currentTerm "").replicateAgain peer
      false).state = .follower := by
    intro m
    unfold becomeFollowerLocked replicateAgain spawn
    split <;> rfl
  unfold round
  rcases head_cases hs hlog hbase hnext with ⟨_, heq⟩ | ⟨_, req, heq, hreq⟩
  · rw [heq]
    dsimp only
    have hr : f.handleInstallSnapshot l.installSnapshotRequestLocked =
        (f, { term := f.currentTerm }) := if_pos hterm
    rw [hr]
    unfold replicateToInstalled
    rw [if_neg (by simp [hs, installSnapshotRequestLocked]), if_pos hterm]
    exact hfol l
  · obtain ⟨next, hc⟩ := l.clampNext_eq peer
    rw [heq]
    dsimp only
    have hr : f.handleAppendEntries req = (f, { term := f.currentTerm, success := false }) :=
      if_pos (by rw [hreq]; exact hterm)
    rw [hr]
    unfold replicateToAppended
    rw [if_neg (by simp [hc, hs, hreq]), if_pos (by rw [hc]; exact hterm)]
    exact hfol _

/-! ## Rounds whose snapshots keep the peer's log -/

/-- The leader's snapshot is news to the peer: it does not reach into the part of the peer's log
that agrees with the leader's. -/
def Behind (l f : RaftNode σ) : Prop :=
  f.log.head.index < l.log.head.index ∧ (f.log.lastLogIndexLocked ≤ l.log.head.index ∨
    f.log.termAtLocked l.log.head.index ≠ some l.log.head.term)

/-- The rounds lead on, and the snapshot is sent only to a peer that is behind it. -/
structure Led (l f : RaftNode σ) (peer : String) : Prop extends Linked l f peer where
  behind : l.next peer ≤ l.log.head.index → Behind l f

theorem termAt_head (l : Log) : l.termAtLocked l.head.index = some l.head.term := by
  unfold Log.termAtLocked
  rw [Log.entryAt_head]
  rfl

/-- After a snapshot the peer's log is empty, so the next snapshot is news again. -/
theorem Led.sent (h : Led l f peer) (hle : l.next peer ≤ l.log.head.index) : ∃ l' f',
    round l f peer = (l', f') ∧ Confirmed l peer l.log.head.index l' ∧ Led l' f' peer ∧
      f'.log.head.index = l.log.head.index := by
  obtain ⟨l', f', hround, hconf, hlinked, hidx⟩ := h.toLinked.sent hle
  obtain ⟨f'', hround', _, hlog⟩ := h.toSession.sent hle
  obtain rfl : f' = f'' := congrArg Prod.snd (hround.symm.trans hround')
  refine ⟨l', f', hround, hconf, ⟨hlinked, fun hle' => ⟨?_, Or.inl ?_⟩⟩, hidx⟩
  · rw [hconf.next_eq] at hle'
    omega
  · rw [hconf.next_eq] at hle'
    rcases hlog with ⟨_, heq⟩ | ⟨hge, _⟩
    · rw [heq]
      show l.log.head.index ≤ l'.log.head.index
      omega
    · exact absurd (h.behind hle).1 (not_lt.mpr hge)

/-- The snapshot is next after a refusal only if the peer does not have the entry that the snapshot
ends with. -/
theorem Led.refused (h : Led l f peer) (hlt : l.log.head.index < l.next peer)
    (hfit : ¬ Attaches l f peer) : ∃ l' f', round l f peer = (l', f') ∧ Led l' f' peer ∧
      l'.log = l.log ∧ l'.goroutines = l.goroutines ++ [.replicateTo peer] ∧
      (l'.next peer ≤ l.log.head.index ∨ l'.next peer = l.startIndex peer - 1) := by
  obtain ⟨l', f', hround, hlinked, hlog, hgo, hmoved⟩ := h.toLinked.refused hlt hfit
  obtain ⟨nx, f'', hround', hnext, _, hsame⟩ := h.toSession.refused hlt hfit
  obtain ⟨rfl, rfl⟩ := Prod.mk.inj (hround.symm.trans hround')
  refine ⟨_, _, hround, ⟨hlinked, fun hle => ?_⟩, hlog, hgo, hmoved⟩
  have hreach := h.reach_start
  have hbase := h.base_nonneg
  have hlen := Log.lastLogIndex_of_contiguous h.log
  have hstart : l.startIndex peer = l.log.head.index + 1 := by
    replace hle : (nx peer).getD 0 ≤ l.log.head.index := hle
    rw [hnext] at hle
    unfold startIndex at hle ⊢
    split at hle
    · omega
    · omega
  have hprev : l.startIndex peer - 1 = l.log.head.index := by omega
  unfold Behind
  rw [hlog, hsame]
  refine ⟨?_, Or.inr fun heq => hfit ⟨by omega, ?_⟩⟩
  · -- if the two snapshots were the same, the request would have been accepted
    by_contra hge
    exact hfit (h.attaches (not_lt.mp hge) (by omega))
  · rw [hprev, heq, termAt_head]

end Node
