import RaftStore.Lib.Rank
import RaftStore.Results.Membership

/-!
# The commit rule

`advanceCommitLocked` goes through the log from its end down to `commitIndex`. It skips entries of
other terms, counts the members that hold an entry, and commits the first one that a majority holds.

The rule can be said without a scan. Sort the match indexes of the members: the index that a
majority holds is the `majority`-th largest of them (`quorumIndex`), and it is committed if it is
new and its entry is of the leader's term.

* `committable_iff`: what is counted index by index lies below `quorumIndex`;
* `term_le_of_entryAt`: where terms do not fall, an older term at `quorumIndex` means older terms
  everywhere below it, so that the scan finds nothing there either;
* `commit_is_quorum_quantile`: the scan and the rule agree;
* `leader_commits_by_quorum`: what this needs holds of every leader in a run.
-/

namespace Raft

open Rank

variable {σ : Type} {n : RaftNode σ} {N : Int}

/-- The index that a majority of the members is known to hold: the `majority`-th largest match
index. -/
def RaftNode.quorumIndex (n : RaftNode σ) : Option Int :=
  nthLargest (n.peerIDs.map n.matchIndex) n.majority

/-- What the scan relies on: entries carry their index, their terms do not fall and are not above
the leader's, the snapshot is committed, and nobody is taken to hold more than the leader's log. -/
structure Tallies (n : RaftNode σ) : Prop where
  contiguous : n.log.Contiguous
  ordered : n.log.tail.Pairwise (fun x y => x.term ≤ y.term)
  bounded : ∀ e ∈ n.log.tail, e.term ≤ n.currentTerm
  covered : n.log.lastIncludedIndexLocked ≤ n.commitIndex
  tracked : ∀ p ∈ n.peerIDs, n.matchIndex p ≤ n.log.lastLogIndexLocked

/-! ## Counting and sorting -/

/-- A node with members has a quorum index. -/
theorem exists_quorumIndex (hne : n.peerIDs ≠ []) : ∃ N, n.quorumIndex = some N := by
  have hpos := List.length_pos_iff.mpr hne
  refine exists_nthLargest (Nat.succ_pos _) ?_
  rw [List.length_map]
  unfold RaftNode.majority
  omega

theorem majority_le_replicas_iff (hN : n.quorumIndex = some N) (i : Int) :
    n.majority ≤ n.replicas i ↔ i ≤ N := by
  rw [le_nthLargest_iff hN, List.countP_map]
  rfl

theorem committable_iff (hN : n.quorumIndex = some N) (i : Int) :
    n.Committable i ↔ n.log.termAtLocked i = some n.currentTerm ∧ i ≤ N := by
  rw [← majority_le_replicas_iff hN]
  exact ⟨fun h => ⟨h.term, h.held⟩, fun h => ⟨h.1, h.2⟩⟩

theorem Tallies.quorumIndex_le (h : Tallies n) (hN : n.quorumIndex = some N) :
    N ≤ n.log.lastLogIndexLocked := by
  obtain ⟨p, hp, rfl⟩ := List.mem_map.mp (mem_of_nthLargest hN)
  exact h.tracked p hp

/-! ## Terms along the log -/

/-- Above the snapshot, terms do not fall. -/
theorem term_le_of_entryAt {l : Log} (hord : l.tail.Pairwise (fun x y => x.term ≤ y.term))
    {i j : Int} {x y : LogEntry} (hi : l.head.index < i) (hij : i ≤ j)
    (hx : l.entryAtLocked i = some x) (hy : l.entryAtLocked j = some y) : x.term ≤ y.term := by
  -- both entries lie behind the dummy
  rcases Log.entryAt_cases hx with ⟨rfl, _⟩ | ⟨k, rfl, hk⟩
  · exact absurd hi (lt_irrefl _)
  rcases Log.entryAt_cases hy with ⟨rfl, _⟩ | ⟨m, rfl, hm⟩
  · omega
  obtain ⟨hklt, rfl⟩ := List.getElem?_eq_some_iff.mp hk
  obtain ⟨hmlt, rfl⟩ := List.getElem?_eq_some_iff.mp hm
  have hkm : k ≤ m := by omega
  rcases hkm.lt_or_eq with hlt | rfl
  · exact List.pairwise_iff_getElem.mp hord k m hklt hmlt hlt
  · exact le_refl _

/-- An entry of the leader's term is followed by entries of its term only. -/
theorem Tallies.term_of_le (h : Tallies n) {i j : Int} (hi : n.commitIndex < i) (hij : i ≤ j)
    (hj : j ≤ n.log.lastLogIndexLocked) (ht : n.log.termAtLocked i = some n.currentTerm) :
    n.log.termAtLocked j = some n.currentTerm := by
  -- the entry lies behind what is compacted
  have hhead : n.log.head.index < i := lt_of_le_of_lt h.covered hi
  obtain ⟨x, hx, hxt⟩ := Option.map_eq_some_iff.mp ht
  rw [Log.lastLogIndex_of_contiguous h.contiguous] at hj
  obtain ⟨q, hq⟩ : ∃ q : Nat, j = n.log.head.index + q := ⟨(j - n.log.head.index).toNat, by omega⟩
  obtain ⟨y, hy⟩ := Log.entryAt_position (l := n.log) (q := q) (by omega)
  rw [← hq] at hy
  -- terms rise along the log, up to the leader's own
  have hge : x.term ≤ y.term := term_le_of_entryAt h.ordered hhead hij hx hy
  have hle : y.term ≤ n.currentTerm := by
    rcases Log.entryAt_cases hy with ⟨rfl, _⟩ | ⟨k, _, hk⟩
    · omega
    · exact h.bounded y (List.mem_of_getElem? hk)
  unfold Log.termAtLocked
  rw [hy, Option.map_some, show y.term = n.currentTerm from by omega]

/-! ## The scan is the rule -/

/-- **The scan finds the quorum index**, or nothing. -/
theorem Tallies.advanceCommit (h : Tallies n) (hN : n.quorumIndex = some N) :
    n.advanceCommitLocked =
      if n.commitIndex < N ∧ n.log.termAtLocked N = some n.currentTerm then
        { n with commitIndex := N }
      else n := by
  have hlast := h.quorumIndex_le hN
  rcases n.advanceCommit_cases with ⟨heq, hnone⟩ | ⟨i, heq, hlo, hhi, hc, hmax⟩
  -- nothing was found, so the quorum index is committed or of another term
  · rw [heq, if_neg]
    rintro ⟨hlt, hterm⟩
    exact hnone N hlt hlast ((committable_iff hN N).mpr ⟨hterm, le_refl N⟩)
  · obtain ⟨hterm, hiN⟩ := (committable_iff hN i).mp hc
    -- the entry at `N` has the term of the one that the scan has found
    have hNterm := h.term_of_le hlo hiN hlast hterm
    have hNi : N ≤ i := by
      by_contra hlt
      exact hmax N (not_le.mp hlt) hlast ((committable_iff hN N).mpr ⟨hNterm, le_refl N⟩)
    obtain rfl : i = N := le_antisymm hiN hNi
    rw [heq, if_pos ⟨hlo, hterm⟩]

/-- **The commit rule.** `advanceCommitLocked` commits the `majority`-th largest match index if it
is above the commit index and its entry is of the current term, and otherwise it does nothing. So an
entry of an older term is not committed for being held by a majority. The role of the node plays no
part in it. -/
theorem commit_is_quorum_quantile (h : Tallies n) (hne : n.peerIDs ≠ []) :
    ∃ N, n.quorumIndex = some N ∧
      n.advanceCommitLocked =
        (if n.commitIndex < N ∧ n.log.termAtLocked N = some n.currentTerm then
          { n with commitIndex := N }
        else n) ∧
      (n.advanceCommitLocked.commitIndex ≠ n.commitIndex →
        n.log.termAtLocked n.advanceCommitLocked.commitIndex = some n.currentTerm) := by
  obtain ⟨N, hN⟩ := exists_quorumIndex hne
  have hrule := h.advanceCommit hN
  refine ⟨N, hN, hrule, fun hmoved => ?_⟩
  rw [hrule] at hmoved ⊢
  split at hmoved
  · next hok =>
    rw [if_pos hok]
    exact hok.2
  · exact absurd rfl hmoved

/-! A leader of three nodes with a compacted log. The entry at index 3 is of an older term, those at
4 and 5 are of its own. What the second node has confirmed is the majority's index. -/

/-- The dummy at index 2, and three entries. -/
def compactedLog : Log where
  head := { term := 1, index := 2 }
  tail := [{ term := 1, index := 3 }, { term := 2, index := 4 }, { term := 2, index := 5 }]

/-- `n1` leads term 2; `confirmed` is what `n2` has. -/
def countingLeader (confirmed : Int) : RaftNode Unit :=
  { RaftNode.boot Cluster.idle (Cluster.sample.config "n1") (some {}) with
    state := .leader
    currentTerm := 2
    log := compactedLog
    commitIndex := 2
    lastApplied := 2
    matchIndex := fun p => if p = "n1" then 5 else if p = "n2" then confirmed else 0 }

/-- The leader of the example is one that the result speaks of. -/
theorem countingLeader_tallies {confirmed : Int} (h : confirmed ≤ 5) :
    Tallies (countingLeader confirmed) where
  contiguous := by
    intro k e he
    match k, he with
    | 0, rfl => rfl
    | 1, rfl => rfl
    | 2, rfl => rfl
  ordered := show compactedLog.tail.Pairwise (fun x y => x.term ≤ y.term) by decide
  bounded := show ∀ e ∈ compactedLog.tail, e.term ≤ 2 by decide
  covered := le_refl (2 : Int)
  tracked := by
    intro p _
    show (if p = "n1" then (5 : Int) else if p = "n2" then confirmed else 0) ≤ 5
    split
    · omega
    · split
      · exact h
      · omega

theorem commit_is_quorum_quantile_sample :
    ((countingLeader 4).quorumIndex = some 4 ∧
      (countingLeader 4).advanceCommitLocked.commitIndex = 4) ∧
    (countingLeader 3).quorumIndex = some 3 ∧
      (countingLeader 3).advanceCommitLocked.commitIndex = 2 := by
  have hown : (countingLeader 4).quorumIndex = some 4 := by decide +kernel
  have holder : (countingLeader 3).quorumIndex = some 3 := by decide +kernel
  obtain ⟨N, hN, hrule, _⟩ :=
    commit_is_quorum_quantile (countingLeader_tallies (show (4 : Int) ≤ 5 by decide))
      (by decide +kernel)
  obtain ⟨N', hN', hrule', _⟩ :=
    commit_is_quorum_quantile (countingLeader_tallies (show (3 : Int) ≤ 5 by decide))
      (by decide +kernel)
  obtain rfl : 4 = N := Option.some.inj (hown.symm.trans hN)
  obtain rfl : 3 = N' := Option.some.inj (holder.symm.trans hN')
  refine ⟨⟨hown, ?_⟩, holder, ?_⟩
  · rw [hrule, if_pos (by decide +kernel)]
  · rw [hrule', if_neg (by decide +kernel)]
    rfl

end Raft

/-! ## Leaders of a run -/

namespace Refine

open Raft Consensus Cluster

variable {σ : Type} {X : Mode σ} {a : Chron} {id : String} {n : RaftNode σ}

/-- The history behind a log is ascending, and so is what compaction leaves of it. -/
theorem pairwise_of_ascending {h : List LogEntry} {members : AddrMap}
    (hasc : Ascending (scheme members) h) (b : Nat) :
    (h.drop b).Pairwise (fun x y => x.term ≤ y.term) := by
  rw [List.pairwise_iff_getElem]
  intro i j hi hj hij
  rw [List.length_drop] at hi hj
  simp only [List.getElem_drop]
  exact hasc (b + i) (b + j) _ _ (by omega) (List.getElem?_eq_getElem (by omega))
    (List.getElem?_eq_getElem (by omega))

/-- A leader of a run is one that the result speaks of. -/
theorem Live.tallies (h : Live X a id n) (hg : Good X a) (hs : X.strict) (hld : n.state = .leader) :
    Tallies n := by
  obtain ⟨b, hst⟩ := h.stored
  have hL := h.leader hld
  have hp := h.progress hs
  obtain ⟨Q, hwon⟩ := hL.won
  have hreign : a.log id = a.reign n.currentTerm := hg.inv.logs.leader_log hwon hst.term_eq
  -- its log, as the chronicle has it
  have hlast : n.log.lastLogIndexLocked = (a.log id).length := by
    rw [hst.log_eq]
    exact lastLogIndex_render (hg.numbered_log id) hst.base_le
  have htail : n.log.tail = (a.log id).drop b := by
    rw [hst.log_eq]
    rfl
  refine ⟨?_, ?_, ?_, hp.base_le.trans hp.applied_le, ?_⟩
  -- contiguous, ordered, of no later term, and tracked within its length
  · rw [hst.log_eq]
    exact contiguous_render (hg.numbered_log id) b
  · rw [htail]
    exact pairwise_of_ascending (hg.inv.logs.ascending_log id) b
  · intro e he
    rw [htail] at he
    rw [← hst.term_eq]
    exact hg.inv.logs.log_le (List.mem_of_mem_drop he)
  · intro p _
    rw [hlast]
    -- what a peer has confirmed is on record, and no record goes beyond the leader's log
    rcases le_or_gt (n.matchIndex p) 0 with hzero | hpos
    · omega
    · have hack := (hg.inv.commits.ack_le (hL.tracked hs p hpos)).2
      rw [← hreign] at hack
      omega

/-- A leader has members. -/
theorem Live.peerIDs_ne_nil (h : Live X a id n) (hg : Good X a) (hv : X.Valid)
    (hld : n.state = .leader) : n.peerIDs ≠ [] := by
  have hpeers : n.peerAddrs.isEmpty = false := by
    rw [(h.leader hld).peers]
    exact peersAfter_isEmpty hv.members_ne (hg.sound_log id)
  rw [h.peerIDs_eq]
  exact OrdMap.keys_ne_nil hpeers

end Refine

namespace Cluster

open Raft Refine Consensus

variable {σ : Type} {S : Setup σ} {members : AddrMap} {w : World σ} {acts : List Action}
  {id : String}

/-- **Leaders commit by the quorum rule**, in every state of a run in which servers are added and
removed with care. -/
theorem leader_commits_by_quorum (hS : Joinable S members) (hsub : Substantial S)
    (hrun : Run S (Careful members) (World.init S) acts w) (hup : w.up id = true)
    (hld : (w.node id).state = .leader) :
    ∃ N, (w.node id).quorumIndex = some N ∧
      (w.node id).advanceCommitLocked =
        if (w.node id).commitIndex < N ∧
            (w.node id).log.termAtLocked N = some (w.node id).currentTerm then
          { w.node id with commitIndex := N }
        else w.node id := by
  have hv := joinMode_valid hS hsub
  obtain ⟨a, hrel, _⟩ :=
    (WorldRel.init hv).run hv (hrun.mono fun _ _ => admissible_of_careful)
  have hlive := (hrel.node_rel hup).toLive
  obtain ⟨N, hN⟩ := exists_quorumIndex (hlive.peerIDs_ne_nil hrel.good hv hld)
  exact ⟨N, hN, (hlive.tallies hrel.good trivial hld).advanceCommit hN⟩

end Cluster
