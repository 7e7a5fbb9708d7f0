import RaftStore.Cluster.Hearing
import RaftStore.Cluster.Runs

/-!
# Fault injection

`raft/faults.go`: a `Faults` object says which pairs of nodes may talk, and every node sends its
calls through a `FilterTransport`, which asks it once, before the call goes out. A call that is
refused fails at its sender; one that has passed is on its way and is not looked at again, nor is
its reply.

A cluster with fault injection (`Chaos`) is a cluster together with the `Faults` and the calls that
have passed. The check is a step of its own (`send`), since the goroutine that sends holds no lock:
faults may change between the section that prepares a call and the check. Every run of such a
cluster is a run of the cluster (`Chaos.run_world`), so what holds of all runs also holds under
fault injection.
-/

namespace Cluster

open Raft

variable {σ : Type} {S : Setup σ}

/-! ## The injector -/

/-- `Faults`: the isolated nodes and the blocked links. -/
structure Faults where
  isolated : String → Bool
  blocked : String → String → Bool

namespace Faults

/-- `NewFaults`. -/
def new : Faults := ⟨fun _ => false, fun _ _ => false⟩

/-- `Allow`: whether a message may pass. -/
def allow (f : Faults) (src dst : String) : Bool :=
  if f.isolated src || f.isolated dst then false
  else if f.blocked src dst then false
  else true

/-- `Isolate`. -/
def isolate (f : Faults) (id : String) : Faults :=
  { f with isolated := Function.update f.isolated id true }

/-- `Heal`. -/
def heal (f : Faults) (id : String) : Faults :=
  { f with isolated := Function.update f.isolated id false }

/-- Set or clear one direction. -/
def setBlocked (f : Faults) (src dst : String) (b : Bool) : Faults :=
  { f with blocked := Function.update f.blocked src (Function.update (f.blocked src) dst b) }

/-- `Disconnect`: both directions. -/
def disconnect (f : Faults) (a b : String) : Faults := (f.setBlocked a b true).setBlocked b a true

/-- `Reconnect`: both directions. -/
def reconnect (f : Faults) (a b : String) : Faults := (f.setBlocked a b false).setBlocked b a false

/-- `HealAll`. -/
def healAll (_ : Faults) : Faults := new

/-- An isolated node is cut off in both directions. -/
theorem allow_eq_false {f : Faults} {src dst id : String} (h : f.isolated id = true)
    (hend : src = id ∨ dst = id) : f.allow src dst = false := by
  unfold allow
  rw [if_pos]
  rcases hend with rfl | rfl
  · simp [h]
  · simp [h]

end Faults

/-- The calls of the injector. -/
inductive FaultOp
  | isolate (id : String)
  | heal (id : String)
  | disconnect (a b : String)
  | reconnect (a b : String)
  | healAll

/-- The injector after a call. -/
def FaultOp.apply (f : Faults) : FaultOp → Faults
  | .isolate id => f.isolate id
  | .heal id => f.heal id
  | .disconnect a b => f.disconnect a b
  | .reconnect a b => f.reconnect a b
  | .healAll => f.healAll

/-! ## A cluster under fault injection -/

/-- `passed` and `refused` are the calls that `FilterTransport` has let through and turned down. -/
structure Chaos (σ : Type) where
  world : World σ
  faults : Faults
  passed : List Nat
  refused : List Nat

/-- No faults, and nothing sent. -/
def Chaos.init (S : Setup σ) : Chaos σ := ⟨World.init S, .new, [], []⟩

/-- A step of the cluster, a message at the injector, or a call of the injector. -/
inductive ChaosAction
  | act (a : Action)
  | send (k : Nat)
  | fault (op : FaultOp)

/-- The call that an action delivers. -/
def Action.delivers : Action → Option Nat
  | .deliver k => some k
  | .crashDuring a _ => a.delivers
  | _ => none

/-- One step. A message is delivered only after it has passed the injector, which decides once. -/
def chaosStep (S : Setup σ) (c : Chaos σ) : ChaosAction → Option (Chaos σ)
  | .act a =>
    -- only what has passed is on its way
    if a.delivers.all (· ∈ c.passed) then (step S c.world a).map (fun w => { c with world := w })
    else none
  | .send k =>
    c.world.calls[k]?.bind (fun call =>
      if call.waiting && !(k ∈ c.passed) && !(k ∈ c.refused) then
        some (if c.faults.allow call.src call.dst then { c with passed := k :: c.passed }
          else { c with refused := k :: c.refused })
      else none)
  | .fault op => some { c with faults := op.apply c.faults }

/-- A guard on the steps of the cluster. -/
def Unaltered (ok : World σ → Action → Prop) (c : Chaos σ) : ChaosAction → Prop
  | .act a => ok c.world a
  | _ => True

/-- A run under fault injection. -/
abbrev ChaosRun (S : Setup σ) (ok : Chaos σ → ChaosAction → Prop) :
    Chaos σ → List ChaosAction → Chaos σ → Prop :=
  StepPath (chaosStep S) ok

/-- The state after a list of actions, if all of them are possible. -/
def Chaos.after (S : Setup σ) (c : Chaos σ) (xs : List ChaosAction) : Chaos σ :=
  (exec (chaosStep S) c xs).getD c

/-- A list of actions that all go through is a run. -/
theorem Chaos.run_after {ok : Chaos σ → ChaosAction → Prop} {c : Chaos σ} {xs : List ChaosAction}
    (hok : ∀ x ∈ xs, ∀ c, ok c x) (h : (exec (chaosStep S) c xs).isSome = true) :
    ChaosRun S ok c xs (c.after S xs) := by
  refine StepPath.of_exec hok ?_
  unfold Chaos.after
  obtain ⟨c', hc'⟩ := Option.isSome_iff_exists.mp h
  rw [hc']
  rfl

variable {c c' : Chaos σ} {x : ChaosAction}

/-- **What a step under fault injection can do.** -/
inductive ChaosStepped (S : Setup σ) (c : Chaos σ) : ChaosAction → Chaos σ → Prop
  | act {a : Action} {w' : World σ} (hpass : ∀ k, a.delivers = some k → k ∈ c.passed)
      (h : step S c.world a = some w') : ChaosStepped S c (.act a) { c with world := w' }
  | passes {k : Nat} {call : Call} (hk : c.world.calls[k]? = some call)
      (hallow : c.faults.allow call.src call.dst = true) :
      ChaosStepped S c (.send k) { c with passed := k :: c.passed }
  | refused (k : Nat) : ChaosStepped S c (.send k) { c with refused := k :: c.refused }
  | fault (op : FaultOp) : ChaosStepped S c (.fault op) { c with faults := op.apply c.faults }

/-- The cases of a step. -/
theorem chaosStepped_of_step (h : chaosStep S c x = some c') : ChaosStepped S c x c' := by
  cases x with
  | act a =>
    obtain ⟨hpass, h⟩ := Option.ite_none_right_eq_some.mp h
    obtain ⟨w', hstep, rfl⟩ := Option.map_eq_some_iff.mp h
    refine .act (fun k hk => ?_) hstep
    rw [hk] at hpass
    simpa using hpass
  | send k =>
    obtain ⟨call, hk, h⟩ := Option.bind_eq_some_iff.mp h
    -- a message is passed or refused, by the faults at that time
    obtain ⟨_, ⟨⟩⟩ := Option.ite_none_right_eq_some.mp h
    split
    · next hallow => exact .passes hk hallow
    · exact .refused k
  | fault op =>
    cases h
    exact .fault op

/-- **Fault injection adds no runs.** -/
theorem Chaos.run_world {ok : World σ → Action → Prop} {xs : List ChaosAction}
    (h : ChaosRun S (Unaltered ok) c xs c') : ∃ acts, Run S ok c.world acts c'.world := by
  induction h with
  | nil c => exact ⟨[], .nil _⟩
  -- the injector's own steps leave the cluster as it is
  | cons hok hstep _ ih =>
    obtain ⟨acts, hrest⟩ := ih
    cases chaosStepped_of_step hstep with
    | act _ hw => exact ⟨_ :: acts, .cons hok hw hrest⟩
    | passes => exact ⟨acts, hrest⟩
    | refused => exact ⟨acts, hrest⟩
    | fault => exact ⟨acts, hrest⟩

/-- Calls are never forgotten. -/
theorem length_calls_step {w w' : World σ} {act : Action} (h : step S w act = some w') :
    w.calls.length ≤ w'.calls.length := by
  by_contra hlt
  have hk : w.calls[w'.calls.length]? = some w.calls[w'.calls.length] :=
    List.getElem?_eq_getElem (by omega)
  obtain ⟨c', hc', _⟩ := (calls_step h).old hk
  exact absurd (List.getElem?_eq_some_iff.mp hc').1 (lt_irrefl _)

/-- What has passed is a call. -/
def Chaos.Known (c : Chaos σ) : Prop := ∀ k ∈ c.passed, k < c.world.calls.length

/-- Only calls that were made have passed. -/
theorem Chaos.Known.step (h : c.Known) (hstep : chaosStep S c x = some c') : c'.Known := by
  cases chaosStepped_of_step hstep with
  | act _ hw => exact fun k hk => (h k hk).trans_le (length_calls_step hw)
  | passes hk =>
    intro j hj
    rcases List.mem_cons.mp hj with rfl | hj
    · exact (List.getElem?_eq_some_iff.mp hk).1
    · exact h j hj
  | refused => exact h
  | fault => exact h

theorem Chaos.known_init (S : Setup σ) : (Chaos.init S).Known := by
  intro k hk
  cases hk

end Cluster
