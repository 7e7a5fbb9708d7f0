import RaftStore.Node.Stop
import RaftStore.Results.Fixed

/-!
# Stopped instances

`Stop` waits for the ticker only. A goroutine that waits for a vote wakes up when it is granted, and
the stopped instance becomes leader, appends an entry and saves its state: over that of the instance
which was started in its place (`woken_after_stop`).

As long as the replies that reach it are harmless, a stopped instance keeps its role, its log, its
term and its vote, and the disk is the running instance's. Every other reply changes one of these
(`stopped_is_quiescent`).
-/

namespace Node

open Raft Cluster Instances

variable {σ : Type} {M : Machine σ} {s t : Instances σ} {cfg : Config} {disk : Option Storage}
  {acts acts' : List InstanceStep}

/-- A run of the instances of one node. -/
abbrev InstanceRun (M : Machine σ) (ok : Instances σ → InstanceStep → Prop) :
    Instances σ → List InstanceStep → Instances σ → Prop :=
  StepPath (Instances.step M) ok

/-! `n1` campaigns in term 1 and is stopped. The instance that takes its place hears of a leader in
term 2. Then the vote of `n2` in term 1 arrives. -/

/-- The configuration of the instances, old and new. -/
def voterConfig : Config where
  id := "n1"
  peerAddrs := threeNodes
  snapshotThreshold := 0

/-- The vote for the campaign of the stopped instance. -/
def lateVote : Event :=
  .voteReply "n2" { term := 1, candidateID := "n1", lastLogIndex := 0, lastLogTerm := 0 }
    { term := 1, voteGranted := true }

/-- A campaign, `Stop`, a restart and a heartbeat in a later term. -/
def stopAndRestart : List InstanceStep :=
  [.event (.tick true), .stop, .restart voterConfig,
    .event (.appendEntries
      { term := 2, leaderID := "n3", prevLogIndex := 0, prevLogTerm := 0,
        entries := [{ term := 2, index := 1 }], leaderCommit := 0 })]

/-- The new instance runs, the old one still waits for votes. -/
def restarted : Instances Unit :=
  (exec (Instances.step idle) (start idle voterConfig (some {})) stopAndRestart).getD
    ⟨none, [], none⟩

/-- The vote has reached the stopped instance. -/
def woken : Instances Unit := (restarted.step idle (.late 0 lateVote)).getD ⟨none, [], none⟩

/-- **A stopped instance wakes up.** It becomes leader, its log is longer than before, and the disk
holds its term and not the one of the running instance. -/
theorem woken_after_stop : ∃ s t : Instances Unit,
    InstanceRun idle (fun _ _ => True) (start idle voterConfig (some {})) stopAndRestart s ∧
      s.step idle (.late 0 lateVote) = some t ∧
      s.stopped.map (·.state) = [.candidate] ∧ t.stopped.map (·.state) = [.leader] ∧
      s.stopped.map (·.log.lastLogIndexLocked) = [0] ∧
      t.stopped.map (·.log.lastLogIndexLocked) = [1] ∧
      t.running.map (·.currentTerm) = some 2 ∧ t.disk.map (·.load.currentTerm) = some 1 := by
  have hrun : exec (Instances.step idle) (start idle voterConfig (some {})) stopAndRestart =
      some restarted := rfl
  exact ⟨restarted, woken, StepPath.of_exec (fun _ _ _ => trivial) hrun, rfl, by decide +kernel,
    by decide +kernel, by decide +kernel, by decide +kernel, by decide +kernel, by decide +kernel⟩

theorem sound_of_run (hrun : InstanceRun M Undisturbed (start M cfg disk) acts s) : s.Sound :=
  StepPath.invariant (fun _ _ _ h hok hstep => h.step hok hstep) hrun (sound_start cfg disk)

/-- **A stopped instance is quiescent**: whatever happens after `Stop`, it keeps its role, its log,
its term and its vote, no step of it saves anything, and the disk is the running instance's. The
condition on the steps is exact. -/
theorem stopped_is_quiescent (hrun : InstanceRun M Undisturbed (start M cfg disk) acts s)
    (hrun' : InstanceRun M Undisturbed s acts' t) :
    StillThere s t ∧ (∀ n, t.running = some n → t.disk = n.storage) ∧
      ∀ k ev n u, t.stopped[k]? = some n → t.step M (.late k ev) = some u →
        (t.Undisturbed (.late k ev) ↔ (∃ m, u.stopped[k]? = some m ∧ Frozen n m) ∧
          u.disk = t.disk) := by
  -- both halves are kept by every step that disturbs nothing
  have hpres : ∀ (u : Instances σ) (x : InstanceStep) (v : Instances σ), u.Sound ∧ StillThere s u →
      u.Undisturbed x → u.step M x = some v → v.Sound ∧ StillThere s v :=
    fun u x v h hok hstep => ⟨h.1.step hok hstep, h.2.trans (hok.stillThere h.1 hstep)⟩
  obtain ⟨hsound, hthere⟩ := StepPath.invariant hpres hrun' ⟨sound_of_run hrun, StillThere.refl s⟩
  refine ⟨hthere, hsound.disk_eq, fun k ev n u hn hstep => ⟨fun hok => ?_, fun ⟨hkept, _⟩ => ?_⟩⟩
  · obtain ⟨_, _, hdisk, _⟩ := hok.late hsound hstep
    exact ⟨hok.stillThere hsound hstep k n hn, hdisk⟩
  -- a reply after which the instance has kept its role, log and term was harmless
  · obtain ⟨_, n', hn', rfl⟩ := step_late hstep
    obtain rfl : n = n' := Option.some.inj (hn.symm.trans hn')
    obtain ⟨m, hm, hfrozen⟩ := hkept
    have hsame : run t.disk n ev = m := by
      simpa [(List.getElem?_eq_some_iff.mp hn).1] using hm
    intro n' hn'
    obtain rfl : n = n' := Option.some.inj (hn.symm.trans hn')
    subst hsame
    exact harmless_of_kept hfrozen.state_eq hfrozen.log_eq hfrozen.currentTerm_eq

/-! The same instances, and a vote that is refused. -/

/-- The same reply, with the vote refused. -/
def refusedVote : Event :=
  .voteReply "n2" { term := 1, candidateID := "n1", lastLogIndex := 0, lastLogTerm := 0 }
    { term := 1, voteGranted := false }

/-- The refused vote has reached the stopped instance. -/
def undisturbed : Instances Unit :=
  (restarted.step idle (.late 0 refusedVote)).getD ⟨none, [], none⟩

theorem restarted_run : InstanceRun idle Undisturbed (start idle voterConfig (some {}))
    stopAndRestart restarted :=
  StepPath.cons trivial rfl (StepPath.cons trivial rfl (StepPath.cons trivial rfl
    (StepPath.cons trivial rfl (StepPath.nil _))))

theorem refused_harmless : restarted.Undisturbed (.late 0 refusedVote) := by
  intro n hn
  -- the stopped instance is still in term 1, the term of the reply
  have hterm : restarted.stopped.map (·.currentTerm) = [1] := by decide +kernel
  have hcur : n.currentTerm = 1 := by
    have hget := congrArg (·[0]?) hterm
    simp only [List.getElem?_map, hn] at hget
    exact Option.some.inj hget
  exact ⟨hcur.ge, fun _ _ h => absurd h (by decide)⟩

theorem stopped_is_quiescent_sample :
    undisturbed.stopped.map (·.state) = [.candidate] ∧
      undisturbed.disk.map (·.load.currentTerm) = some 2 ∧ StillThere restarted undisturbed :=
  ⟨by decide +kernel, by decide +kernel,
    (stopped_is_quiescent restarted_run (StepPath.cons refused_harmless rfl (StepPath.nil _))).1⟩

end Node
