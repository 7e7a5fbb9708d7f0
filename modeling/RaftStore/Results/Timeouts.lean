import RaftStore.Cluster.Clock
import RaftStore.Results.Fixed

/-!
# Election timeouts

A node whose election timer was set waits for at least `ElectionTimeoutMin` before it opens an
election, whatever it hears in the meantime, and whatever is random. If it hears nothing that sets
the timer again, the first tick after `ElectionTimeoutMax` opens one (`election_timeout`).
-/

namespace Cluster

open Raft Node

variable {σ : Type} {S : Setup σ} {T : String → Timeouts} {c c' c₁ c₂ c₃ : Timed σ}
  {x : TimedAction} {xs : List TimedAction} {id : String}

/-- Nothing sets the election timer of `id`. -/
def Silent (id : String) (c : Timed σ) (x : TimedAction) : Prop := resetsAt c id x = false

/-- A deadline that was drawn at time `s` or later. -/
theorem deadline_ge_run {ok : Timed σ → TimedAction → Prop} {s : Int}
    (h : TimedRun S T ok c xs c') (hs : s ≤ c.now)
    (hd : s + (T id).electionTimeoutMin ≤ (c.timers id).electionDeadline) :
    s ≤ c'.now ∧ s + (T id).electionTimeoutMin ≤ (c'.timers id).electionDeadline := by
  induction h with
  | nil c => exact ⟨hs, hd⟩
  | cons _ hstep _ ih =>
    exact ih (hs.trans (now_step hstep)) (deadline_ge_step hstep hd (by omega))

/-- Nothing but what a node hears or does moves its deadline. -/
theorem deadline_eq_run (h : TimedRun S T (Silent id) c xs c') :
    (c'.timers id).electionDeadline = (c.timers id).electionDeadline := by
  induction h with
  | nil c => rfl
  | cons hok hstep _ ih => exact ih.trans (deadline_of_keeps hstep hok)

/-- A tick is due or not by the clock. -/
theorem node_of_tick {b : Bool} {r : Nat} (h : timedStep S T c (.act (.tick id b) r) = some c') :
    c'.world.node id = (c.world.node id).tick b ∧
      b = due (c.world.node id) (c.timers id) c.now := by
  cases timedStepped_of_step h with
  | act hdue hw =>
    refine ⟨?_, hdue id b rfl⟩
    cases stepped_of_step hw with
    | tick => simp [World.setNode]

/-- **How long a node waits.** -/
theorem election_timeout (hx : timedStep S T c x = some c₁) (hset : resetsAt c id x = true)
    (hrun : TimedRun S T (fun _ _ => True) c₁ xs c₂) {b : Bool} {r : Nat}
    (htick : timedStep S T c₂ (.act (.tick id b) r) = some c₃) :
    (c₂.now < c.now + (T id).electionTimeoutMin →
      (c₃.world.node id).currentTerm = (c₂.world.node id).currentTerm) ∧
    (TimedRun S T (Silent id) c₁ xs c₂ → c.now + (T id).electionTimeoutMax ≤ c₂.now →
      (c₂.world.node id).state ≠ .leader →
      (c₂.world.node id).joining = false → (c₂.world.node id).isVoterLocked = true →
      (c₃.world.node id).currentTerm = (c₂.world.node id).currentTerm + 1) := by
  obtain ⟨hnow, hmin, hmax⟩ := deadline_of_resetsAt hx hset
  obtain ⟨hnode, hdue⟩ := node_of_tick htick
  -- a leader looks at its heartbeat timer instead
  have hdue' : (c₂.world.node id).state ≠ .leader →
      b = decide ((c₂.timers id).electionDeadline ≤ c₂.now) := by
    intro hrole
    rw [hdue]
    unfold due
    split
    · next hld => exact absurd hld hrole
    · rfl
  refine ⟨fun hearly => ?_, fun hsilent hlate hrole hjoin hvoter => ?_⟩
  -- too early: a follower or a candidate does not campaign, and a leader never does
  · have hd := (deadline_ge_run (s := c.now) hrun hnow.ge hmin).2
    obtain ⟨m, heq, hm⟩ := (c₂.world.node id).tick_cases b
    rw [hnode, heq, RaftNode.currentTerm_applyCommitted]
    rcases hm with rfl | ⟨_, rfl⟩ | ⟨hrole, hgo, _⟩
    · rfl
    · obtain ⟨_, _, hsame⟩ := (c₂.world.node id).broadcast_eq
      rw [hsame]
    · rw [hdue' hrole, Bool.and_eq_true, decide_eq_true_iff] at hgo
      omega
  -- late enough, and nothing has moved the deadline since
  · have hgo : b = true := by
      rw [hdue' hrole, decide_eq_true_iff, deadline_eq_run hsilent]
      omega
    have hcan : (!(c₂.world.node id).joining && (c₂.world.node id).isVoterLocked) = true := by
      rw [hjoin, hvoter]
      rfl
    rw [hnode]
    unfold RaftNode.tick
    rw [RaftNode.currentTerm_applyCommitted]
    split
    · next hld => exact absurd hld hrole
    · rw [if_pos (by rw [hcan, hgo]; rfl)]
      exact term_startElection _ hcan

/-! `n1` campaigns, and `n2`, which votes for it, hears nothing more. -/

/-- The defaults of `NewNode`: 150 to 300 milliseconds. -/
def usualTimeouts : String → Timeouts := fun _ => newTimeouts defaultTimeouts

/-- `n1` campaigns when its timeout is over, and asks `n2`. -/
def sampleAsked : Timed Unit := (Timed.init sample usualTimeouts 0 (fun _ => 0)).after sample
  usualTimeouts [.elapse 150000000, .act (.tick "n1" true) 7, .act (.go "n1" 0) 0]

/-- `n2` has voted, and its deadline is reset. -/
def sampleVoted : Timed Unit := sampleAsked.after sample usualTimeouts [.act (.deliver 0) 5]

/-- The longest timeout has passed. -/
def sampleWaited : Timed Unit := sampleVoted.after sample usualTimeouts [.elapse 300000000]

/-- `n2` campaigns itself. -/
def sampleCampaign : Timed Unit :=
  sampleWaited.after sample usualTimeouts [.act (.tick "n2" true) 0]

theorem step_of_exec (h : exec (timedStep S T) c [x] = some c') : timedStep S T c x = some c' := by
  obtain ⟨v, hv, hnil⟩ := Option.bind_eq_some_iff.mp h
  cases hnil
  exact hv

theorem election_timeout_sample :
    (sampleAsked.now = 150000000 ∧ (sampleAsked.world.node "n2").state = .follower) ∧
      (sampleCampaign.world.node "n2").currentTerm =
        (sampleWaited.world.node "n2").currentTerm + 1 := by
  have hwait : exec (timedStep sample usualTimeouts) sampleVoted [.elapse 300000000] =
      some sampleWaited := Timed.exec_after (by decide +kernel)
  refine ⟨by decide +kernel, ?_⟩
  exact (election_timeout (step_of_exec (Timed.exec_after (by decide +kernel))) (by decide +kernel)
    (StepPath.of_exec (by simp) hwait) (step_of_exec (Timed.exec_after (by decide +kernel)))).2
    (StepPath.of_exec (by simp [Silent, resetsAt]) hwait) (by decide +kernel) (by decide +kernel)
    (by decide +kernel) (by decide +kernel)

end Cluster
