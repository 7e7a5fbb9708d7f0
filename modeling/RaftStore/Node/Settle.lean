import RaftStore.Node.Loops
import RaftStore.Node.Round

/-!
# A leader that has appended an entry

`becomeLeaderLocked` and `Propose` append an entry, and then commit and apply what can be and
replicate (`settle`). This keeps the tracking of the peers, may compact the log, and commits the
entry if the leader itself is a majority (`Settles`, `proposed`).
-/

namespace Node

open Raft Cluster RaftNode

variable {σ : Type} {n n' : RaftNode σ} {l c : Log} {e : LogEntry}

/-- Commit and apply what can be, and replicate. -/
def settle (n : RaftNode σ) : RaftNode σ :=
  n.advanceCommitLocked.applyCommittedLocked.broadcastAppendEntriesLocked

/-- Settling may compact the log, and keeps the tracking of the peers. -/
structure Settles (n n' : RaftNode σ) : Prop where
  state_eq : n'.state = n.state
  term_eq : n'.currentTerm = n.currentTerm
  next_eq : n'.nextIndex = n.nextIndex
  match_eq : n'.matchIndex = n.matchIndex
  log : n.log.Compacted n'.log
  mem : ∀ g ∈ n.goroutines, g ∈ n'.goroutines
  loops : n'.transport.isSome = true → ∀ p ∈ n'.peerIDs, p ≠ n'.id → n.replicating p = false →
    .replicateTo p ∈ n'.goroutines
  commits : ∀ L, n.log.termAtLocked L = some n.currentTerm → L ≤ n.log.lastLogIndexLocked →
    n.majority ≤ n.replicas L → L ≤ n'.commitIndex

/-- What a majority holds is committed. -/
theorem commit_advance {L : Int} (hterm : n.log.termAtLocked L = some n.currentTerm)
    (hle : L ≤ n.log.lastLogIndexLocked) (hmaj : n.majority ≤ n.replicas L) :
    L ≤ n.advanceCommitLocked.commitIndex := by
  have hcan : n.Committable L := ⟨hterm, hmaj⟩
  rcases n.advanceCommit_cases with ⟨heq, hnone⟩ | ⟨j, heq, _, _, _, hmax⟩
  · rw [heq]
    by_contra hlt
    exact hnone L (not_le.mp hlt) hle hcan
  · rw [heq]
    by_contra hlt
    exact hmax L (not_le.mp hlt) hle hcan

theorem settles (n : RaftNode σ) : Settles n (settle n) := by
  have hcommit : ∀ L, n.log.termAtLocked L = some n.currentTerm → L ≤ n.log.lastLogIndexLocked →
      n.majority ≤ n.replicas L →
      L ≤ n.advanceCommitLocked.applyCommittedLocked.commitIndex := by
    intro L hterm hle hmaj
    rw [commitIndex_applyCommitted]
    exact commit_advance hterm hle hmaj
  have hstanding := standing_settle n
  have hthreads := threads_settle n
  have hlog : n.log.Compacted n.advanceCommitLocked.applyCommittedLocked.log := by
    obtain ⟨c, _, heq⟩ := n.advanceCommit_eq
    rw [heq]
    exact compacted_applyCommitted _
  unfold settle
  generalize n.advanceCommitLocked.applyCommittedLocked = m at hcommit hstanding hthreads hlog ⊢
  simp only [standing, Prod.mk.injEq] at hstanding
  simp only [threads, Prod.mk.injEq] at hthreads
  have hmem := (loops_broadcast m).mem
  have hnew : m.transport.isSome = true → ∀ p ∈ m.peerIDs, p ≠ m.id → n.replicating p = false →
      .replicateTo p ∈ m.broadcastAppendEntriesLocked.goroutines := by
    intro htr p hp hne hfree
    exact mem_broadcast htr hp hne (by rw [hthreads.1]; exact hfree)
  obtain ⟨r, g, heq⟩ := m.broadcast_eq
  rw [heq] at hmem hnew ⊢
  exact ⟨hstanding.1, hstanding.2.1, hstanding.2.2.1, hstanding.2.2.2.1, hlog,
    fun x hx => hmem x (by rw [hthreads.2.1]; exact hx), hnew, hcommit⟩

/-- The entry that was appended is the last one, and keeps its term. -/
theorem newest (hl : l.Contiguous) (he : e.index = l.lastLogIndexLocked + 1)
    (h : (l.append [e]).Compacted c) : c.lastLogIndexLocked = l.lastLogIndexLocked + 1 ∧
      c.termAtLocked (l.lastLogIndexLocked + 1) = some e.term := by
  have hcont := hl.append he
  have hlen : (l.append [e]).lastLogIndexLocked = l.lastLogIndexLocked + 1 := by
    rw [Log.lastLogIndex_of_contiguous hcont, Log.lastLogIndex_of_contiguous hl]
    simp [Log.append]
    omega
  have hlast : c.lastLogIndexLocked = l.lastLogIndexLocked + 1 :=
    (h.lastLogIndex_eq hcont).trans hlen
  refine ⟨hlast, ?_⟩
  have hc := Log.lastLogIndex_of_contiguous (h.contiguous hcont)
  rw [h.termAt_eq (by omega), Log.lastLogIndex_of_contiguous hl]
  unfold Log.termAtLocked
  rw [show l.head.index + (l.tail.length : Int) + 1 =
      (l.append [e]).head.index + 1 + l.tail.length from by
    show _ = l.head.index + 1 + _
    omega, Log.entryAt_tail]
  simp [Log.append]

/-- What was there before is still there, unless it is compacted. -/
theorem termAt_older (hl : l.Contiguous) (h : (l.append [e]).Compacted c) {i : Int}
    (hle : i ≤ l.lastLogIndexLocked) (hhead : c.head.index ≤ i) :
    c.termAtLocked i = l.termAtLocked i := by
  rw [h.termAt_eq hhead]
  have hmove := h.head_le
  have hlen := Log.lastLogIndex_of_contiguous hl
  obtain ⟨q, rfl⟩ : ∃ q : Nat, i = l.head.index + q :=
    ⟨(i - l.head.index).toNat, by
      have : (l.append [e]).head.index = l.head.index := rfl
      omega⟩
  have hslot : (l.append [e]).entryAtLocked (l.head.index + q) =
      l.entryAtLocked (l.head.index + q) := by
    rw [show l.head.index + (q : Int) = (l.append [e]).head.index + q from rfl, Log.entryAt_slot]
    show (l.append [e]).toList[q]? = l.entryAtLocked (l.head.index + q)
    rw [Log.entryAt_slot]
    have hlt : q < l.toList.length := by
      simp only [Log.toList, List.length_cons]
      omega
    exact List.getElem?_append_left hlt
  unfold Log.termAtLocked
  rw [hslot]

/-! ## Proposals -/

/-- A leader that has accepted a command. -/
structure Proposed (n : RaftNode σ) (n' : RaftNode σ) : Prop where
  state_eq : n'.state = n.state
  term_eq : n'.currentTerm = n.currentTerm
  log : ∃ e, e.index = n.log.lastLogIndexLocked + 1 ∧ e.term = n.currentTerm ∧
    (n.log.append [e]).Compacted n'.log
  next_ne : ∀ p, p ≠ n.id → n'.next p = n.next p
  match_self : n'.matchIndex n.id = n.log.lastLogIndexLocked + 1
  mem : ∀ g ∈ n.goroutines, g ∈ n'.goroutines
  commits : n.log.Contiguous → n.majority ≤ n.peerIDs.countP
    (fun p => decide (n.log.lastLogIndexLocked + 1 ≤ n'.matchIndex p)) →
    n.log.lastLogIndexLocked + 1 ≤ n'.commitIndex

/-- The entry of a command that the leader accepts. -/
def entryOf (n : RaftNode σ) (cmd : Bytes) : LogEntry :=
  { term := n.currentTerm, index := n.log.lastLogIndexLocked + 1, command := cmd }

/-- The leader has saved the entry, and has not settled yet. -/
def withEntry (n : RaftNode σ) (cmd : Bytes) : RaftNode σ :=
  ({ n with log := n.log.append [entryOf n cmd] } : RaftNode σ).persistLocked.trackSelf
    (n.log.lastLogIndexLocked + 1)

/-- **A leader accepts a command.** -/
theorem proposed (hs : n.state = .leader) (hstop : n.stopped = false) (cmd : Bytes) :
    ∃ n', n.propose cmd = (n', .ok (n.log.lastLogIndexLocked + 1, n.currentTerm)) ∧
      Proposed n n' := by
  have hset : Settles (withEntry n cmd) (settle (withEntry n cmd)) := settles _
  refine ⟨settle (withEntry n cmd), ?_, hset.state_eq, hset.term_eq,
    ⟨entryOf n cmd, rfl, rfl, hset.log⟩,
    fun p hp => ?_, ?_, hset.mem, fun hlog hmaj => ?_⟩
  · unfold RaftNode.propose
    rw [if_neg (by simp [hstop]), if_neg (by simp [hs])]
    rfl
  · unfold RaftNode.next
    rw [hset.next_eq]
    simp [withEntry, trackSelf, setMatch, setNext, persistLocked, hp]
  · rw [hset.match_eq]
    simp [withEntry, trackSelf, setMatch, setNext, persistLocked]
  · obtain ⟨hlast, hterm⟩ := newest (e := entryOf n cmd) hlog rfl (.refl _)
    refine hset.commits _ hterm hlast.ge ?_
    rw [hset.match_eq] at hmaj
    exact hmaj

end Node
