import RaftStore.Results.Replication
import RaftStore.Cluster.Hearing
import RaftStore.Node.Level

/-!
# Progress of applying

As long as a node stays up its commit index and its applied index should only grow: then `apply` is
called at most once for an index, and the store is never rolled back. With compaction they may
shrink: a snapshot that arrives late is installed although the node has applied entries behind it
(`lowered_progress`).

Where a delivered snapshot does not stand for a proper part of the receiver's log, both indexes only
grow, and the four indexes of a node stay in order (`apply_progress`). Since every section ends with
applying what it has committed, it is enough that the applied index does not go back.
-/

namespace Cluster

open Raft Refine Consensus

variable {σ : Type} {X : Mode σ} {a a' : Chron} {S : Setup σ} {members : AddrMap}
  {w w' : World σ} {act : Action} {acts acts' : List Action} {id : String}

/-- What a node has come to in a run with the actions `acts`, compared with an earlier state of its
life. Both stores are outcomes of the run's one history, the later one of no shorter a part of it.
-/
structure Progressed (S : Setup σ) (members : AddrMap) (acts : List Action) (n n' : RaftNode σ) :
    Prop where
  commit_le : n.commitIndex ≤ n'.commitIndex
  applied_le : n.lastApplied ≤ n'.lastApplied
  calls : Node.Once n.applies n'
  store : Lawful S.machine → ∃ H, HistoryOf S members acts H ∧
    n.machine = replay S.machine (H.take n.lastApplied.toNat) ∧
    n'.machine = replay S.machine (H.take n'.lastApplied.toNat)
  inOrder : Node.InOrder n'

/-! ## Progress that is undone

The run in which replication is undone, with nodes that take snapshots at different times: `n2` has
not compacted anything yet. Before the snapshot up to 2 arrives, `n2` also hears that index 3 is
committed, and applies it. -/

/-- `n1` compacts early, the others late. -/
def staggered : Setup Unit where
  machine := idle
  config := fun id =>
    { id := id, peerAddrs := threeNodes, snapshotThreshold := if id = "n1" then 2 else 5 }
  encode := fun _ value => value
  httpHost := fun _ => none

/-- The schedule described above: `n2` applies the third entry. -/
def applyThird : List Action :=
  undoing.dropLast ++ [.go "n1" 3, .tick "n1" true, .go "n1" 3, .deliver 8]

/-- `n2` has applied three entries. -/
def appliedWorld : World Unit := after staggered (World.init staggered) applyThird

/-- The snapshot has lowered what `n2` has applied. -/
def loweredWorld : World Unit := after staggered appliedWorld [.deliver 7]

/-- **A late snapshot sets the applied index back**, and leaves the commit index behind the end of
the log. -/
theorem lowered_progress : ∃ acts acts' w w',
    Run staggered NoChange (World.init staggered) acts w ∧ Run staggered NoChange w acts' w' ∧
      (∀ act ∈ acts', act ≠ .restart "n2") ∧ w.up "n2" = true ∧ w'.up "n2" = true ∧
      (w'.node "n2").lastApplied < (w.node "n2").lastApplied ∧ ¬ Node.InOrder (w'.node "n2") := by
  refine ⟨applyThird, [.deliver 7], appliedWorld, loweredWorld,
    run_after (by simp [applyThird, undoing, NoChange]) (by decide +kernel),
    run_after (by simp [NoChange]) (by decide +kernel), by simp, by decide +kernel,
    by decide +kernel, by decide +kernel, ?_⟩
  intro h
  -- `n2` has committed more than its log holds
  have hcommit : (loweredWorld.node "n2").commitIndex = 3 := by decide +kernel
  have hlast : (loweredWorld.node "n2").log.lastLogIndexLocked = 2 := by decide +kernel
  have hle := h.commit_le
  omega

/-! ## Reading off a chronicle -/

/-- The indexes of a node that a strict chronicle describes. -/
theorem inOrder_of_rel (h : WorldRel X a w) (hs : X.strict) (hup : w.up id = true) :
    Node.InOrder (w.node id) := by
  have hp := (h.node_rel hup).progress hs
  refine ⟨hp.base_le, hp.applied_le, ?_⟩
  rw [(h.node_rel hup).toLive.lastLogIndex_eq h.good]
  exact hp.commit_le

/-! ## One step -/

/-- Every node that is up has applied all it has committed, and has called `apply` at most once for
an index. -/
structure Abreast (X : Mode σ) (w : World σ) : Prop where
  rel : ∃ a, WorldRel X a w
  level : ∀ j, w.up j = true → Node.Level (w.node j)
  once : ∀ j, w.up j = true → Node.Once [] (w.node j)

/-- The later state of a node that has stayed up. -/
structure Onwards (n n' : RaftNode σ) : Prop where
  commit_le : n.commitIndex ≤ n'.commitIndex
  applied_le : n.lastApplied ≤ n'.lastApplied
  once : ∀ p, Node.Once p n → Node.Once p n'

/-- A node that is not started anew goes on. -/
theorem Abreast.onwards (h : Abreast X w) (hs : X.strict) (hv : X.Valid)
    (hadm : Admissible X w act) (hstep : step X.setup w act = some w') {j : String}
    (hup : w'.up j = true) (hact : act ≠ .restart j) :
    Node.Level (w'.node j) ∧ Onwards (w.node j) (w'.node j) := by
  obtain ⟨a, hrel⟩ := h.rel
  obtain ⟨a', hadv⟩ := hrel.step hv hadm hstep
  -- the node took a turn, from an ordered state to an ordered one
  obtain ⟨hwup, gs, stopped, ev, _, _, heq⟩ := step_heard hstep hup hact
  have hle := hadv.applied hs j hwup hup
  have hord := inOrder_of_rel hadv.rel hs hup
  have hbase := (inOrder_of_rel hrel hs hwup).base_le
  have hlevel := h.level j hwup
  have hlevel' : Node.Level (w'.node j) := by
    rw [heq] at hord ⊢
    exact Node.level_handle (n := { w.node j with goroutines := gs, stopped := stopped })
      ((hrel.node_rel hwup).toLive.contiguous hrel.good) hbase hlevel hord
  refine ⟨hlevel', ?_, hle, fun p hp => ?_⟩
  · -- all that is committed is applied, before and after
    rw [← hlevel, ← hlevel']
    exact hle
  -- calls of `apply` are for indices that rise
  · have hp' : Node.Once p { w.node j with goroutines := gs, stopped := stopped } := { hp with }
    rw [heq] at hle ⊢
    exact Node.once_handle hp' hle

/-- **A step keeps every node's commits applied.** -/
theorem Abreast.step (h : Abreast X w) (hs : X.strict) (hv : X.Valid)
    (hadm : Admissible X w act) (hstep : step X.setup w act = some w') : Abreast X w' := by
  obtain ⟨a, hrel⟩ := h.rel
  obtain ⟨a', hadv⟩ := hrel.step hv hadm hstep
  have hnode : ∀ j, w'.up j = true → Node.Level (w'.node j) ∧ Node.Once [] (w'.node j) := by
    intro j hup
    by_cases hact : act = .restart j
    -- a node that is started again has made no call
    · subst hact
      rw [node_restart hstep]
      exact ⟨Node.level_boot _ _ _, Node.once_boot _ _ _⟩
    · obtain ⟨hlevel, hon⟩ := h.onwards hs hv hadm hstep hup hact
      exact ⟨hlevel, hon.once [] (h.once j (step_heard hstep hup hact).1)⟩
  exact ⟨⟨a', hadv.rel⟩, fun j hup => (hnode j hup).1, fun j hup => (hnode j hup).2⟩

/-! ## Runs -/

theorem abreast_init (hv : X.Valid) : Abreast X (World.init X.setup) :=
  ⟨⟨_, WorldRel.init hv⟩, fun _ _ => Node.level_boot _ _ _, fun _ _ => Node.once_boot _ _ _⟩

/-- Along one life of a node. -/
theorem Abreast.run (h : Abreast X w) (hs : X.strict) (hv : X.Valid)
    (hrun : Run X.setup (fun w act => Admissible X w act ∧ act ≠ .restart id) w acts w')
    (hup : w'.up id = true) : Abreast X w' ∧ Onwards (w.node id) (w'.node id) := by
  -- along the run: levels at every node, and progress at this one
  have hpres : ∀ (v : World σ) (x : Action) (v' : World σ),
      Abreast X v ∧ (v.up id = true → Onwards (w.node id) (v.node id)) →
      Admissible X v x ∧ x ≠ .restart id → Cluster.step X.setup v x = some v' →
      Abreast X v' ∧ (v'.up id = true → Onwards (w.node id) (v'.node id)) := by
    rintro v x v' ⟨hv', hon⟩ ⟨hadm, hact⟩ hstep
    refine ⟨hv'.step hs hv hadm hstep, fun hup' => ?_⟩
    have hbefore := hon (step_heard hstep hup' hact).1
    have hnext := (hv'.onwards hs hv hadm hstep hup' hact).2
    exact ⟨hbefore.commit_le.trans hnext.commit_le, hbefore.applied_le.trans hnext.applied_le,
      fun p hp => hnext.once p (hbefore.once p hp)⟩
  have hstart : Abreast X w ∧ (w.up id = true → Onwards (w.node id) (w.node id)) :=
    ⟨h, fun _ => ⟨le_refl _, le_refl _, fun _ hp => hp⟩⟩
  obtain ⟨habreast, hon⟩ := hrun.invariant hpres hstart
  exact ⟨habreast, hon hup⟩

/-- **Progress of applying.** If no delivered snapshot stands for a proper part of the receiver's
log, then between any two states of one life of a node its commit index and its applied index do not
decrease, `apply` is called at most once for an index, the store moves forward along the one history
of the run, and the four indexes of the node are in order. -/
theorem apply_progress (hS : Fixed S members) (hsub : Substantial S)
    (hrun : Run S (fun w act => NoChange w act ∧ KeepsLogs w act) (World.init S) acts w)
    (hrun' : Run S (fun w act => NoChange w act ∧ KeepsLogs w act) w acts' w')
    (hup : w.up id = true) (hup' : w'.up id = true) (hlife : ∀ act ∈ acts', act ≠ .restart id) :
    Progressed S members (acts ++ acts') (w.node id) (w'.node id) := by
  let X := fixedMode S members True True
  have hv : X.Valid := fixedMode_valid hS (fun hc => absurd trivial hc) (fun _ _ => hsub)
  have hok : ∀ (v : World σ) (act : Action), NoChange v act ∧ KeepsLogs v act →
      Admissible X v act :=
    fun v act hn => admissible_of_noChange hn.1 (fun _ _ => hn.2)
  have hw : Abreast X w := StepPath.invariant
    (fun _ _ _ h hadm hstep => h.step trivial hv hadm hstep) (hrun.mono hok) (abreast_init hv)
  -- the node is not started again in the second part
  have hsegment : Run S (fun v act => Admissible X v act ∧ act ≠ .restart id) w acts' w' :=
    (hrun'.restrict hlife).mono (fun v act h => ⟨hok v act h.1, h.2⟩)
  obtain ⟨hw', hon⟩ := hw.run trivial hv hsegment hup'
  obtain ⟨_, hrel'⟩ := hw'.rel
  refine ⟨hon.commit_le, hon.applied_le, ?_, fun hlaw => ?_, inOrder_of_rel hrel' trivial hup'⟩
  · have honce := hw.once id hup
    exact hon.once _ ⟨List.prefix_refl _, honce.sorted, honce.bounded⟩
  -- the machine at either end is the one of the same history
  · obtain ⟨_, H, _, _, _, _, hhist⟩ := compacted_history hS hsub hlaw (hrun.append hrun')
    have hf := hhist.follows w (passes_of_run hrun).append id
    have hf' := hhist.follows w' (passes_of_run (hrun.append hrun')) id
    rw [revived_of_up hup] at hf
    rw [revived_of_up hup'] at hf'
    exact ⟨H, hhist, hf.machine_eq, hf'.machine_eq⟩

/-! The run above, up to the delivery of the snapshot: `n2` applies three entries at once. -/

/-- The schedule without its last step. -/
def tellThird : List Action := applyThird.dropLast

/-- `n2` has the entries, and does not know that they are committed. -/
def toldWorld : World Unit := after staggered (World.init staggered) tellThird

/-- `n2` hears of the commits. -/
def thirdWorld : World Unit := after staggered toldWorld [.deliver 8]

theorem staggered_fixed : Fixed staggered threeNodes :=
  ⟨fun _ => rfl, fun _ => rfl, by decide, by decide⟩

theorem tellThird_run : Run staggered (fun w act => NoChange w act ∧ KeepsLogs w act)
    (World.init staggered) tellThird toldWorld :=
  run_checked (fun _ _ hg => ⟨noChange_of_calm hg, keepsLogs_of_calm hg⟩) (by decide +kernel)
    (by decide +kernel)

theorem third_run : Run staggered (fun w act => NoChange w act ∧ KeepsLogs w act) toldWorld
    [.deliver 8] thirdWorld :=
  run_checked (fun _ _ hg => ⟨noChange_of_calm hg, keepsLogs_of_calm hg⟩) (by decide +kernel)
    (by decide +kernel)

theorem apply_progress_sample :
    ((toldWorld.node "n2").lastApplied = 0 ∧ (thirdWorld.node "n2").lastApplied = 3) ∧
      Progressed staggered threeNodes (tellThird ++ [.deliver 8]) (toldWorld.node "n2")
        (thirdWorld.node "n2") :=
  ⟨by decide +kernel, apply_progress staggered_fixed compactingSample_substantial tellThird_run
    third_run (by decide +kernel) (by decide +kernel) (by simp)⟩

end Cluster
