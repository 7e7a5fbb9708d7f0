import RaftStore.Cluster.Hearing
import RaftStore.Cluster.Runs
import RaftStore.Node.Timers

/-!
# A cluster with a clock

The deadlines of the nodes, a clock, and the steps of the cluster: a tick finds a deadline passed if
and only if it has, sections set the deadlines as `Node.Timers` says, and time passes in steps of
its own. There is no bound on how late a tick comes.

Every run with a clock is a run of the cluster (`Timed.run_world`): what holds of all runs holds
with a clock, too.
-/

namespace Cluster

open Raft Node

variable {σ : Type} {S : Setup σ} {T : String → Timeouts}

/-- Time stands in nanoseconds since the zero time. -/
structure Timed (σ : Type) where
  world : World σ
  now : Int
  timers : String → Timers

/-- All nodes are started at `now`. -/
def Timed.init (S : Setup σ) (T : String → Timeouts) (now : Int) (r : String → Nat) : Timed σ where
  world := World.init S
  now := now
  timers := fun id => startTimers (T id) now (r id)

/-- `r` is what the random generator of the node has to offer. -/
inductive TimedAction
  | act (a : Action) (r : Nat)
  | elapse (d : Nat)

/-! ## Steps -/

/-- The tick that an action runs. -/
def Action.ticks : Action → Option (String × Bool)
  | .tick id due => some (id, due)
  | .crashDuring a _ => a.ticks
  | _ => none

/-- The handler that a request runs. -/
def Rpc.received : Rpc → Event
  | .requestVote req _ => .requestVote req
  | .appendEntries req _ _ => .appendEntries req
  | .installSnapshot req _ => .installSnapshot req

/-- The section that a reply runs. -/
def Call.replyEvent (c : Call) : Option Event :=
  match c.rpc with
  | .requestVote req (some resp) => some (.voteReply c.dst req resp)
  | .appendEntries req (some resp) none => some (.appendReply c.dst req resp)
  | .appendEntries req (some resp) (some _) => some (.confirmReply req.term resp)
  | .installSnapshot req (some resp) => some (.installReply c.dst req resp)
  | _ => none

/-- The sections that have to do with deadlines. -/
def sectionOf (w : World σ) : Action → Option (String × Event)
  | .tick id due => some (id, .tick due)
  | .deliver k => w.calls[k]?.map (fun c => (c.dst, c.rpc.received))
  | .reply k => w.calls[k]?.bind (fun c => c.replyEvent.map (fun ev => (c.src, ev)))
  | .restart id => some (id, .restart)
  | _ => none

/-- The deadlines after an action. -/
def Timed.timersAfter (T : String → Timeouts) (c : Timed σ) (r : Nat) (a : Action) :
    String → Timers :=
  match sectionOf c.world a with
  | none => c.timers
  | some (id, ev) =>
    Function.update c.timers id
      (Node.timersAfter (T id) c.now r (c.world.node id) ev (c.timers id))

def timedStep (S : Setup σ) (T : String → Timeouts) (c : Timed σ) : TimedAction → Option (Timed σ)
  | .act a r =>
    if a.ticks.all (fun x => x.2 = due (c.world.node x.1) (c.timers x.1) c.now) then
      (step S c.world a).map (fun w => { c with world := w, timers := c.timersAfter T r a })
    else none
  | .elapse d => some { c with now := c.now + d }

/-- A guard on the steps of the cluster. -/
def Paced (ok : World σ → Action → Prop) (c : Timed σ) : TimedAction → Prop
  | .act a _ => ok c.world a
  | .elapse _ => True

abbrev TimedRun (S : Setup σ) (T : String → Timeouts) (ok : Timed σ → TimedAction → Prop) :
    Timed σ → List TimedAction → Timed σ → Prop :=
  StepPath (timedStep S T) ok

/-- The state after a list of actions, if all of them are possible. -/
def Timed.after (S : Setup σ) (T : String → Timeouts) (c : Timed σ) (xs : List TimedAction) :
    Timed σ :=
  (exec (timedStep S T) c xs).getD c

theorem Timed.exec_after {c : Timed σ} {xs : List TimedAction}
    (h : (exec (timedStep S T) c xs).isSome = true) :
    exec (timedStep S T) c xs = some (c.after S T xs) := by
  unfold Timed.after
  obtain ⟨c', hc'⟩ := Option.isSome_iff_exists.mp h
  rw [hc']
  rfl

variable {c c' : Timed σ} {x : TimedAction} {id : String}

/-- **What a step with a clock can do.** -/
inductive TimedStepped (S : Setup σ) (T : String → Timeouts) (c : Timed σ) :
    TimedAction → Timed σ → Prop
  | act {a : Action} {r : Nat} {w' : World σ}
      (hdue : ∀ p b, a.ticks = some (p, b) → b = due (c.world.node p) (c.timers p) c.now)
      (h : step S c.world a = some w') :
      TimedStepped S T c (.act a r) { c with world := w', timers := c.timersAfter T r a }
  | elapse (d : Nat) : TimedStepped S T c (.elapse d) { c with now := c.now + d }

theorem timedStepped_of_step (h : timedStep S T c x = some c') : TimedStepped S T c x c' := by
  cases x with
  | act a r =>
    obtain ⟨hdue, h⟩ := Option.ite_none_right_eq_some.mp h
    obtain ⟨w', hstep, rfl⟩ := Option.map_eq_some_iff.mp h
    refine .act (fun p b hticks => ?_) hstep
    rw [hticks] at hdue
    simpa using hdue
  | elapse d =>
    cases h
    exact .elapse d

/-- **A clock adds no runs.** -/
theorem Timed.run_world {ok : World σ → Action → Prop} {xs : List TimedAction}
    (h : TimedRun S T (Paced ok) c xs c') : ∃ acts, Run S ok c.world acts c'.world := by
  induction h with
  | nil c => exact ⟨[], .nil _⟩
  | cons hok hstep _ ih =>
    obtain ⟨acts, hrest⟩ := ih
    cases timedStepped_of_step hstep with
    | act _ hw => exact ⟨_ :: acts, .cons hok hw hrest⟩
    | elapse => exact ⟨acts, hrest⟩

theorem now_step (h : timedStep S T c x = some c') : c.now ≤ c'.now := by
  cases timedStepped_of_step h with
  | act => exact le_rfl
  | elapse d => exact Int.le_add_of_nonneg_right (Int.natCast_nonneg d)

/-! ## Deadlines -/

/-- The election timer of `id` is set. -/
def resetsAt (c : Timed σ) (id : String) : TimedAction → Bool
  | .act a _ =>
    (sectionOf c.world a).any (fun x => decide (x.1 = id) && resets (c.world.node x.1) x.2)
  | .elapse _ => false

/-- Where the timer is set, the deadline is drawn between the two timeouts. -/
theorem deadline_of_resetsAt (h : timedStep S T c x = some c') (hr : resetsAt c id x = true) :
    c'.now = c.now ∧ c.now + (T id).electionTimeoutMin ≤ (c'.timers id).electionDeadline ∧
      (c'.timers id).electionDeadline < c.now + (T id).electionTimeoutMax := by
  cases timedStepped_of_step h with
  | @act a r w' hdue hw =>
    simp only [resetsAt] at hr
    refine ⟨rfl, ?_⟩
    show _ ≤ (c.timersAfter T r a id).electionDeadline ∧
      (c.timersAfter T r a id).electionDeadline < _
    unfold Timed.timersAfter
    cases hsec : sectionOf c.world a with
    | none =>
      rw [hsec] at hr
      cases hr
    | some y =>
      obtain ⟨j, ev⟩ := y
      rw [hsec, Option.any_some, Bool.and_eq_true, decide_eq_true_iff] at hr
      obtain ⟨rfl, hres⟩ := hr
      dsimp only
      rw [Function.update_self]
      exact electionDeadline_of_resets (T j) c.now r (c.timers j) hres
  | elapse d => cases hr

/-- Elsewhere it stays. -/
theorem deadline_of_keeps (h : timedStep S T c x = some c') (hr : resetsAt c id x = false) :
    (c'.timers id).electionDeadline = (c.timers id).electionDeadline := by
  cases timedStepped_of_step h with
  | @act a r w' hdue hw =>
    simp only [resetsAt] at hr
    show (c.timersAfter T r a id).electionDeadline = _
    unfold Timed.timersAfter
    cases hsec : sectionOf c.world a with
    | none => rfl
    | some y =>
      obtain ⟨j, ev⟩ := y
      rw [hsec, Option.any_some] at hr
      dsimp only
      by_cases hj : id = j
      · subst hj
        rw [Function.update_self]
        exact electionDeadline_of_keeps (T id) c.now r (c.timers id) (by simpa using hr)
      · rw [Function.update_of_ne hj]
  | elapse d => rfl

/-- A lower bound on a deadline is kept: a new one is drawn later. -/
theorem deadline_ge_step {B : Int} (h : timedStep S T c x = some c')
    (hB : B ≤ (c.timers id).electionDeadline) (hnow : B ≤ c.now + (T id).electionTimeoutMin) :
    B ≤ (c'.timers id).electionDeadline := by
  cases hr : resetsAt c id x with
  | true => exact hnow.trans (deadline_of_resetsAt h hr).2.1
  | false =>
    rw [deadline_of_keeps h hr]
    exact hB

end Cluster
