import RaftStore.Results.Writes

/-!
# Acknowledged replication

A leader counts towards a commit what its peers have acknowledged, so a peer must not lose it
while it stays in the leader's term. With compaction it may: `HandleInstallSnapshot` replaces the
whole log, also where the log goes on behind the snapshot. A leader that is re-elected while an
old `replicateTo` is still waiting for a reply runs two of them for one peer, and the snapshot
that one of them has sent may arrive after the entries of the other (`undone_replication`).

Where a delivered snapshot does not stand for a proper part of the receiver's log, acknowledged
entries stay (`acknowledged_replication`).
-/

namespace Cluster

open Raft Refine Consensus

variable {σ : Type} {S : Setup σ} {members : AddrMap} {w : World σ} {acts : List Action}

/-- Whatever a leader takes a peer in its term to hold, the peer holds, in its log or in its
snapshot: the history behind it has the leader's entries as far. -/
def ReplicationKept (H : List LogEntry) (w : World σ) : Prop :=
  ∀ l p, w.up l = true → w.up p = true → (w.node l).state = .leader →
    (w.node p).currentTerm = (w.node l).currentTerm →
    (w.node l).matchIndex p ≤ ((w.node p).history H).length ∧
      ((w.node p).history H).take ((w.node l).matchIndex p).toNat =
        ((w.node l).history H).take ((w.node l).matchIndex p).toNat

/-! ## Replication that is undone

`n1` leads term 1 and has sent its first entry to both peers when `n3` campaigns in term 2. `n1`
wins term 3, while its `replicateTo` for `n2` still waits. It commits index 2 with `n3` and takes
a snapshot there, and has sent `n2` the entries up to 3. Now the old reply arrives: it makes `n1`
forget that it is sending to `n2` already, and another `replicateTo` sends `n2` the snapshot.
Then `n2` acknowledges index 3, and then the snapshot arrives. -/

/-- Three nodes that compact after two entries. -/
def compactingSample : Setup Unit := uniform idle threeNodes 2

/-- The schedule described above. -/
def undoing : List Action :=
  [.tick "n1" true, .go "n1" 0, .deliver 0, .reply 0, .go "n1" 1, .deliver 1, .go "n1" 1,
    .deliver 2, .tick "n3" true, .go "n3" 0, .deliver 3, .tick "n1" true, .go "n1" 1, .deliver 4,
    .reply 4, .go "n1" 3, .deliver 5, .propose "n1" [7], .go "n1" 2, .deliver 6, .reply 5, .reply 1,
    .go "n1" 3, .tick "n1" true, .go "n1" 3, .reply 6, .deliver 7]

/-- The snapshot has overtaken the entry that was counted. -/
def undoneWorld : World Unit := after compactingSample (World.init compactingSample) undoing

/-- **Acknowledged entries may be removed**, whatever the history of the run is taken to be. -/
theorem undone_replication : ∃ acts w,
    Run compactingSample NoChange (World.init compactingSample) acts w ∧
      ∀ H, ¬ ReplicationKept H w := by
  refine ⟨undoing, undoneWorld, run_after (by simp [undoing, NoChange]) (by decide +kernel), ?_⟩
  intro H hkept
  -- `n1` counts three entries for `n2`
  obtain ⟨hle, _⟩ := hkept "n1" "n2" (by decide +kernel) (by decide +kernel) (by decide +kernel)
    (by decide +kernel)
  -- n2 has a snapshot up to index 2 and nothing else
  have hbase : (undoneWorld.node "n2").log.lastIncludedIndexLocked = 2 := by decide +kernel
  have htail : (undoneWorld.node "n2").log.tail = [] := by decide +kernel
  have hmatch : (undoneWorld.node "n1").matchIndex "n2" = 3 := by decide +kernel
  unfold RaftNode.history at hle
  rw [hmatch, hbase, htail, List.append_nil, List.length_take] at hle
  omega

/-! ## Replication that is kept -/

/-- **Acknowledged replication.** If no delivered snapshot stands for a proper part of the
receiver's log, what a leader has counted stays where it is. -/
theorem acknowledged_replication (hS : Fixed S members) (hsub : Substantial S)
    (hlaw : Lawful S.machine)
    (hrun : Run S (fun w act => NoChange w act ∧ KeepsLogs w act) (World.init S) acts w) :
    ∃ H, HistoryOf S members acts H ∧ ReplicationKept H w := by
  -- the history of the run, and each node's part of it
  obtain ⟨a, H, T, hw, _, hH, hhist⟩ := compacted_history hS hsub hlaw hrun
  refine ⟨H, hhist, fun l p hl hp hld hterm => ?_⟩
  -- what a node has, with what it compacted, is its log in the protocol
  have hlog : ∀ q, w.up q = true → (w.node q).history H = a.log q := by
    intro q hq
    have := hw.history_eq trivial (Extends.refl a) hw.good hH hhist (passes_of_run hrun) q
    rwa [revived_of_up hq] at this
  rw [hlog l hl, hlog p hp]
  -- what a leader counts was acknowledged in its term
  have hL := (hw.node_rel hl).leader hld
  rcases le_or_gt ((w.node l).matchIndex p) 0 with hzero | hpos
  · -- nothing is counted
    rw [Int.toNat_eq_zero.mpr hzero]
    exact ⟨by omega, by simp⟩
  · have hack := hL.tracked trivial p hpos
    obtain ⟨b, hst⟩ := (hw.node_rel hp).stored
    have hlen := (hw.good.inv.commits.ack_le hack).2
    rw [← hterm, ← hst.term_eq] at hack
    -- what is acknowledged in the present term is held
    have hpre := (hw.good.inv.safe trivial).hold hack
    rw [hst.term_eq, hterm, (hw.leader hl hld).2] at hpre
    rw [(hw.leader hl hld).2] at hlen
    have hle := hpre.length_le
    rw [List.length_take, Nat.min_eq_left hlen] at hle
    -- and what is held is a piece of the leader's log
    refine ⟨by omega, ?_⟩
    have htake := List.prefix_iff_eq_take.mp hpre
    rw [List.length_take, Nat.min_eq_left hlen] at htake
    exact htake.symm

/-! The run above, up to the delivery of the snapshot. -/

/-- The schedule without its last step. -/
def undoingStart : List Action := undoing.dropLast

/-- `n2` still has the three entries. -/
def countedWorld : World Unit := after compactingSample (World.init compactingSample) undoingStart

theorem compactingSample_fixed : Fixed compactingSample threeNodes :=
  uniform_fixed idle 2 (by decide) (by decide)

theorem compactingSample_substantial : Substantial compactingSample := by
  intro m d hd
  cases hd
  decide

theorem undoingStart_run : Run compactingSample (fun w act => NoChange w act ∧ KeepsLogs w act)
    (World.init compactingSample) undoingStart countedWorld :=
  run_checked (fun _ _ hg => ⟨noChange_of_calm hg, keepsLogs_of_calm hg⟩) (by decide +kernel)
    (by decide +kernel)

theorem acknowledged_replication_sample :
    ((countedWorld.node "n1").state = .leader ∧ (countedWorld.node "n1").matchIndex "n2" = 3 ∧
      (countedWorld.node "n1").log.lastIncludedIndexLocked = 2 ∧
      (countedWorld.node "n2").currentTerm = (countedWorld.node "n1").currentTerm) ∧
      ∃ H, HistoryOf compactingSample threeNodes undoingStart H ∧ ReplicationKept H countedWorld :=
  ⟨by decide +kernel, acknowledged_replication compactingSample_fixed compactingSample_substantial
    idle_lawful undoingStart_run⟩

end Cluster
