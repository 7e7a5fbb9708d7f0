import RaftStore.Raft.Boot
import RaftStore.Raft.Compaction

/-!
# One round of replication

A round of the loop of `replicateTo`, whose RPC is delivered and answered at once, is a function of
the two nodes (`round`). While the sender leads and the receiver's term is not above its own
(`Session`), a round

* sends the snapshot, where the entries that the peer needs are compacted (`Session.sent`);
* sends entries that fit the peer's log, and the loop is over (`Session.accepted`);
* sends entries that do not, and starts one index further back next time (`Session.refused`).

Where the peer has not compacted anything that the leader would have to send (`Linked`), the next
round finds the same situation (`Linked.sent`, `Linked.refused`).
-/

namespace Raft

/-! ## What a confirmation leaves alone -/

namespace RaftNode

variable {σ : Type}

/-- Applying may compact the log, nothing else. -/
theorem compacted_applyCommitted (n : RaftNode σ) :
    n.log.Compacted n.applyCommittedLocked.log := by
  obtain ⟨la, x, applies, heq⟩ := n.applyLoop_eq (n.commitIndex - n.lastApplied).toNat
  unfold applyCommittedLocked
  rw [heq]
  rcases maybeCompact_cases { n with lastApplied := la, machine := x, applies := applies } with
    ⟨hsame, _⟩ | ⟨e, data, hdue, hcompact⟩
  · rw [hsame]
    exact .refl _
  · rw [hcompact]
    exact (Log.Compacted.refl n.log).drop hdue.head_lt.le hdue.entry

end RaftNode

end Raft

namespace Node

open Raft RaftNode

variable {σ : Type} {l f : RaftNode σ} {peer : String} {i : Int}

/-- The fields of a leader that a confirmation does not change, the tracking of the peer apart. -/
def standing (n : RaftNode σ) :
    State × Int × (String → Option Int) × (String → Int) × List Goroutine :=
  (n.state, n.currentTerm, n.nextIndex, n.matchIndex, n.goroutines)

theorem standing_settle (n : RaftNode σ) :
    standing n.advanceCommitLocked.applyCommittedLocked = standing n := by
  obtain ⟨i, _, hadvance⟩ := n.advanceCommit_eq
  rw [hadvance, applyCommitted_kept (f := standing) (fun m i e => ?_) (fun _ _ _ _ => rfl)]
  · rfl
  · obtain ⟨_, _, heq⟩ := m.applyNext_eq i e
    rw [heq]
    rfl

/-- A leader after its peer has confirmed the log up to `i`. -/
structure Confirmed (l : RaftNode σ) (peer : String) (i : Int) (l' : RaftNode σ) : Prop where
  state_eq : l'.state = l.state
  term_eq : l'.currentTerm = l.currentTerm
  next_eq : l'.next peer = i + 1
  match_eq : l'.matchIndex peer = i
  log : l.log.Compacted l'.log
  goroutines_eq : l'.goroutines = l.goroutines ++
    [if l'.log.lastLogIndexLocked > i then .replicateTo peer else .replicateToDone peer]

theorem confirmed (l : RaftNode σ) (peer : String) (i : Int) :
    Confirmed l peer i (l.matched peer i) := by
  have hstanding := standing_settle ((l.setMatch peer i).setNext peer (i + 1))
  have hlog : l.log.Compacted
      ((l.setMatch peer i).setNext peer (i + 1)).advanceCommitLocked.applyCommittedLocked.log := by
    obtain ⟨c, _, heq⟩ := ((l.setMatch peer i).setNext peer (i + 1)).advanceCommit_eq
    rw [heq]
    exact compacted_applyCommitted _
  unfold matched
  dsimp only
  generalize ((l.setMatch peer i).setNext peer (i + 1)).advanceCommitLocked.applyCommittedLocked = m
    at hstanding hlog ⊢
  simp only [standing, Prod.mk.injEq] at hstanding
  obtain ⟨hstate, hterm, hnext, hmatch, hgo⟩ := hstanding
  have hi : m.matchIndex peer = i := by
    rw [hmatch]
    simp [setMatch, setNext]
  refine ⟨hstate, hterm, ?_, hi, hlog, ?_⟩
  · show (m.nextIndex peer).getD 0 = i + 1
    rw [hnext]
    simp [setNext]
  · show m.goroutines ++ [_] = _
    rw [hgo, hi]
    simp [setMatch, setNext, replicateAgain, spawn]

/-! ## Rounds -/

/-- One iteration of the loop of `replicateTo`: the sender and the receiver afterwards. -/
def round (l f : RaftNode σ) (peer : String) : RaftNode σ × RaftNode σ :=
  match l.replicateToHead peer with
  | (l, none) => (l.replicateAgain peer false, f)
  | (l, some (.append req)) =>
    let r := f.handleAppendEntries req
    (l.replicateToAppended peer req r.2, r.1)
  | (l, some (.install req)) =>
    let r := f.handleInstallSnapshot req
    (l.replicateToInstalled peer req r.2, r.1)

/-- A leader that sends to a peer whose term is not above its own. -/
structure Session (l f : RaftNode σ) (peer : String) : Prop where
  leader : l.state = .leader
  term_le : f.currentTerm ≤ l.currentTerm
  log : l.log.Contiguous
  base_nonneg : 0 ≤ l.log.head.index
  next_pos : 0 < l.next peer

/-- The log of the peer holds the entry before the first one that is sent. -/
def Attaches (l f : RaftNode σ) (peer : String) : Prop :=
  f.log.head.index ≤ l.startIndex peer - 1 ∧
    f.log.termAtLocked (l.startIndex peer - 1) = l.log.termAtLocked (l.startIndex peer - 1)

/-- The leader has compacted what the peer needs: it sends its snapshot, and takes it for received.
The peer installs it if it reaches further than its own. -/
theorem Session.sent (h : Session l f peer) (hle : l.next peer ≤ l.log.head.index) : ∃ f',
    round l f peer = (l.matched peer l.log.head.index, f') ∧ f'.currentTerm = l.currentTerm ∧
      (f.log.head.index < l.log.head.index ∧
          f'.log = ⟨{ term := l.log.head.term, index := l.log.head.index }, []⟩ ∨
        l.log.head.index ≤ f.log.head.index ∧ f'.log = f.log) := by
  have hpos := h.next_pos
  have hterm := h.term_le
  have hhead : l.replicateToHead peer = (l, some (.install l.installSnapshotRequestLocked)) := by
    have hshould : l.shouldInstallSnapshotLocked peer = true := by
      unfold shouldInstallSnapshotLocked Log.lastIncludedIndexLocked
      simp only [Bool.and_eq_true, decide_eq_true_eq]
      omega
    unfold replicateToHead
    rw [if_neg (by simp [h.leader]), if_pos hshould]
  have hreply : l.replicateToInstalled peer l.installSnapshotRequestLocked
      { term := l.currentTerm } = l.matched peer l.log.head.index := by
    unfold replicateToInstalled
    rw [if_neg (by simp [h.leader, installSnapshotRequestLocked]), if_neg (lt_irrefl _)]
    rfl
  have hheard := f.hearLeader_fields (not_lt.mpr hterm) l.id
  unfold round
  rw [hhead]
  dsimp only
  rcases f.handleInstallSnapshot_cases l.installSnapshotRequestLocked with
    ⟨hlt, _⟩ | ⟨_, hidx, heq⟩ | ⟨_, hidx, heq⟩
  · exact absurd hlt (not_lt.mpr hterm)
  · rw [heq]
    exact ⟨_, Prod.ext hreply rfl, hheard.1, Or.inr ⟨hidx, hheard.2.2⟩⟩
  · have hinst := (f.hearLeader l.currentTerm l.id).installed l.installSnapshotRequestLocked
    rw [heq]
    exact ⟨_, Prod.ext hreply rfl, hinst.currentTerm_eq.trans hheard.1, Or.inl ⟨hidx, hinst.log_eq⟩⟩

/-- The round that sends entries, up to the reply. -/
theorem Session.append (h : Session l f peer) (hlt : l.log.head.index < l.next peer) : ∃ req,
    l.replicateToHead peer = (l.clampNext peer, some (.append req)) ∧ req.term = l.currentTerm ∧
      req.prevLogIndex + req.entries.length = l.log.lastLogIndexLocked ∧
      (f.PrevMatches req ↔ Attaches l f peer) := by
  have hlast := Log.lastLogIndex_of_contiguous h.log
  have hhead : l.replicateToHead peer = ((l.makeAppendRequestLocked peer).1,
      (l.makeAppendRequestLocked peer).2.map .append) := by
    have hshould : ¬ l.shouldInstallSnapshotLocked peer = true := by
      unfold shouldInstallSnapshotLocked Log.lastIncludedIndexLocked
      simp only [Bool.and_eq_true, decide_eq_true_eq]
      omega
    unfold replicateToHead
    rw [if_neg (by simp [h.leader]), if_neg hshould]
  obtain ⟨t, ht, heq⟩ := makeAppendRequest_eq h.log hlt
  rw [heq] at hhead
  refine ⟨_, hhead, rfl, ?_, ?_⟩
  · -- everything behind the start is sent
    simp only [List.length_drop]
    unfold startIndex
    omega
  · unfold PrevMatches Attaches
    rw [ht]
    rfl

/-- The entries fit the peer's log: it is confirmed up to its end. -/
theorem Session.accepted (h : Session l f peer) (hlt : l.log.head.index < l.next peer)
    (hfit : Attaches l f peer) :
    (round l f peer).1 = (l.clampNext peer).matched peer l.log.lastLogIndexLocked := by
  obtain ⟨req, hhead, hreq, hlen, hprev⟩ := h.append hlt
  obtain ⟨next, hclamp⟩ := l.clampNext_eq peer
  have hterm := h.term_le
  unfold round
  rw [hhead]
  dsimp only
  rcases f.handleAppendEntries_cases req with ⟨hstale, _⟩ | ⟨_, hno, _⟩ | ⟨_, _, heq⟩
  · omega
  · exact absurd (hprev.mpr hfit) hno
  · rw [heq]
    unfold replicateToAppended
    rw [if_neg (by simp [hclamp, h.leader, hreq]), if_neg (by simp [hclamp, hreq]), if_pos rfl,
      hlen]

/-- They do not: the log of the peer stays as it is, and the next round starts further back. -/
theorem Session.refused (h : Session l f peer) (hlt : l.log.head.index < l.next peer)
    (hfit : ¬ Attaches l f peer) : ∃ nx f', round l f peer =
        ({ l with nextIndex := nx, goroutines := l.goroutines ++ [.replicateTo peer] }, f') ∧
      (nx peer).getD 0 = (if l.startIndex peer > l.log.head.index + 1 then l.startIndex peer - 1
        else if l.log.head.index > 0 then l.log.head.index else l.startIndex peer) ∧
      f'.currentTerm = l.currentTerm ∧ f'.log = f.log := by
  obtain ⟨req, hhead, hreq, _, hprev⟩ := h.append hlt
  obtain ⟨next, hclamp⟩ := l.clampNext_eq peer
  have hnext := l.next_clampNext peer
  have hterm := h.term_le
  have hbase := h.base_nonneg
  unfold round
  rw [hhead]
  dsimp only
  rcases f.handleAppendEntries_cases req with ⟨hstale, _⟩ | ⟨hle, _, heq⟩ | ⟨_, hyes, _⟩
  · omega
  swap
  · exact absurd (hprev.mp hyes) hfit
  obtain ⟨hcur, _, hlog⟩ := f.hearLeader_fields (not_lt.mpr hle) req.leaderID
  rw [heq]
  unfold replicateToAppended
  rw [if_neg (by simp [hclamp, h.leader, hreq]), if_neg (by simp [hclamp, hreq]),
    if_neg Bool.false_ne_true]
  dsimp only
  rw [hnext, hclamp]
  unfold Log.lastIncludedIndexLocked
  dsimp only
  split
  · exact ⟨_, _, rfl, next_setNext _ _ _, hcur.trans hreq, hlog⟩
  split
  · exact ⟨_, _, rfl, next_setNext _ _ _, hcur.trans hreq, hlog⟩
  · -- nothing is compacted, and the request has started from the dummy
    have hone : ¬ l.startIndex peer > 1 := by omega
    rw [if_neg hone]
    rw [hclamp] at hnext
    exact ⟨_, _, rfl, hnext, hcur.trans hreq, hlog⟩

/-! ## Rounds that lead on -/

/-- The start of the peer's log is an entry of the leader's, if the leader has not compacted it, and
the leader's requests start behind it. -/
structure Linked (l f : RaftNode σ) (peer : String) : Prop extends Session l f peer where
  peer_nonneg : 0 ≤ f.log.head.index
  agree : l.log.head.index ≤ f.log.head.index →
    l.log.termAtLocked f.log.head.index = some f.log.head.term
  reach : f.log.head.index < l.next peer ∨ f.log.head.index ≤ l.log.head.index

/-- A request that starts right behind the peer's dummy fits. -/
theorem Linked.attaches (h : Linked l f peer) (hle : l.log.head.index ≤ f.log.head.index)
    (heq : l.startIndex peer - 1 = f.log.head.index) : Attaches l f peer := by
  unfold Attaches
  rw [heq]
  refine ⟨le_refl _, ?_⟩
  rw [h.agree hle]
  unfold Log.termAtLocked
  rw [Log.entryAt_head]
  rfl

/-- The bound by the end of the log does not matter. -/
theorem Linked.reach_start (h : Linked l f peer) :
    f.log.head.index < l.startIndex peer ∨ f.log.head.index ≤ l.log.head.index := by
  rcases h.reach with hlt | hle
  swap
  · exact Or.inr hle
  rcases le_or_gt f.log.head.index l.log.head.index with hle | hgt
  · exact Or.inr hle
  -- the leader holds the entry, so its log goes that far
  obtain ⟨q, hq, hidx⟩ := Log.exists_position (l := l.log) hgt.le (h.agree hgt.le)
  have hlast := Log.lastLogIndex_of_contiguous h.log
  left
  unfold startIndex
  omega

/-- A snapshot puts the peer where the leader's own snapshot was. -/
theorem Linked.sent (h : Linked l f peer) (hle : l.next peer ≤ l.log.head.index) : ∃ l' f',
    round l f peer = (l', f') ∧ Confirmed l peer l.log.head.index l' ∧ Linked l' f' peer ∧
      f'.log.head.index = l.log.head.index := by
  obtain ⟨f', hround, hterm, hlog⟩ := h.toSession.sent hle
  have hconf := confirmed l peer l.log.head.index
  have hbase := h.base_nonneg
  have hmove := hconf.log.head_le
  have hown : l.log.termAtLocked l.log.head.index = some l.log.head.term := by
    unfold Log.termAtLocked
    rw [Log.entryAt_head]
    rfl
  obtain ⟨hidx, hdummy⟩ : f'.log.head.index = l.log.head.index ∧
      f'.log.head.term = l.log.head.term := by
    rcases hlog with ⟨_, heq⟩ | ⟨hge, heq⟩
    · rw [heq]
      exact ⟨rfl, rfl⟩
    · -- it has the same one already
      have hsame : f.log.head.index = l.log.head.index := by
        have hreach := h.reach
        omega
      have hagree := h.agree hge
      rw [hsame, hown] at hagree
      rw [heq]
      exact ⟨hsame, (Option.some.inj hagree).symm⟩
  refine ⟨_, f', hround, hconf, ⟨⟨?_, ?_, ?_, ?_, ?_⟩, ?_, ?_, ?_⟩, hidx⟩
  · rw [hconf.state_eq]
    exact h.leader
  · rw [hconf.term_eq, hterm]
  · exact hconf.log.contiguous h.log
  · omega
  · rw [hconf.next_eq]
    omega
  · omega
  · intro hge
    rw [hconf.log.termAt_eq hge, hidx, hown, hdummy]
  · left
    rw [hconf.next_eq]
    omega

/-- A refusal moves the start back, to the leader's snapshot at last. -/
theorem Linked.refused (h : Linked l f peer) (hlt : l.log.head.index < l.next peer)
    (hfit : ¬ Attaches l f peer) : ∃ l' f', round l f peer = (l', f') ∧ Linked l' f' peer ∧
      l'.log = l.log ∧ l'.goroutines = l.goroutines ++ [.replicateTo peer] ∧
      (l'.next peer ≤ l.log.head.index ∨ l'.next peer = l.startIndex peer - 1) := by
  obtain ⟨nx, f', hround, hnext, hterm', hlog'⟩ := h.toSession.refused hlt hfit
  have hbase := h.base_nonneg
  have hpeer := h.peer_nonneg
  have hreach := h.reach_start
  have hstart : l.log.head.index < l.startIndex peer := by
    have hlast := Log.lastLogIndex_of_contiguous h.log
    unfold startIndex
    omega
  -- the entry before the start is not the peer's dummy
  have hno : l.log.head.index ≤ f.log.head.index → l.startIndex peer - 1 ≠ f.log.head.index :=
    fun hle heq => hfit (h.attaches hle heq)
  have hmoved : 0 < (nx peer).getD 0 ∧
      ((nx peer).getD 0 ≤ l.log.head.index ∨ (nx peer).getD 0 = l.startIndex peer - 1) ∧
      (f.log.head.index < (nx peer).getD 0 ∨ f.log.head.index ≤ l.log.head.index) := by
    rw [hnext]
    split
    · omega
    split
    · omega
    · omega
  refine ⟨_, f', hround, ⟨⟨h.leader, hterm'.le, h.log, hbase, hmoved.1⟩, ?_, ?_, ?_⟩, rfl, rfl,
    hmoved.2.1⟩
  · rw [hlog']
    exact hpeer
  · rw [hlog']
    exact h.agree
  · rw [hlog']
    exact hmoved.2.2

end Node
