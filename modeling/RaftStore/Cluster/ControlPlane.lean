import RaftStore.Cluster.Controller
import RaftStore.Cluster.Faults

/-!
# The chaos control plane

`cluster/http.go`: requests that cut nodes off, reconnect them, crash and restart them, and change
the membership. The controller has one `Faults` object, which outlives its nodes: a node is cut off
by its name, whether there is such a node or not.
-/

namespace Controller

variable {σ : Type}

/-- The controller with its fault injector. -/
structure Plane where
  cluster : Cluster
  faults : Cluster.Faults

namespace Plane

/-- `mustExist` for some ids, one after the other, and then a change of the faults. -/
def switch (p : Plane) (ids : List String) (f : Cluster.Faults → Cluster.Faults) :
    Plane × Except Err Unit :=
  match ids.find? (fun id => (p.cluster.members.get? id).isNone) with
  | some id => (p, .error (.unknownNode id))
  | none => ({ p with faults := f p.faults }, .ok ())

def isolate (p : Plane) (id : String) : Plane × Except Err Unit := p.switch [id] (·.isolate id)

def heal (p : Plane) (id : String) : Plane × Except Err Unit := p.switch [id] (·.heal id)

def partition (p : Plane) (a b : String) : Plane × Except Err Unit :=
  p.switch [a, b] (·.disconnect a b)

def healAll (p : Plane) : Plane := { p with faults := p.faults.healAll }

/-- A call that does not look at the faults. -/
def onCluster (p : Plane) (r : Cluster × Except Err Unit) : Plane × Except Err Unit :=
  ({ p with cluster := r.1 }, r.2)

/-- A node that has crashed is reconnected before it is started. -/
def restart (env : Env σ) (p : Plane) (id : String) : Plane × Except Err Unit :=
  match p.cluster.members.get? id with
  | none => (p, .error (.unknownNode id))
  | some m =>
    if !m.crashed then (p, .error (.stillRunning id))
    else { p with faults := p.faults.heal id }.onCluster (startMember env p.cluster id)

end Plane

/-! ## Requests -/

/-- The routes with `POST`. -/
inductive Request (σ : Type)
  | isolate (id : String)
  | heal (id : String)
  | crash (id : String)
  | restart (env : Env σ) (id : String)
  | partition (a b : String)
  | healAll
  | add (env : Env σ) (id : String)
  | remove (env : Env σ) (id : String)

/-- The status of the answer and the text of its error. -/
structure Reply where
  status : Nat
  error : Option String
  deriving DecidableEq

/-- `chaos`. -/
def chaos (r : Plane × Except Err Unit) : Plane × Reply :=
  (r.1,
    match r.2 with
    | .ok () => ⟨200, none⟩
    | .error e => ⟨400, some e.message⟩)

def Plane.handle (p : Plane) : Request σ → Plane × Reply
  | .isolate id => chaos (p.isolate id)
  | .heal id => chaos (p.heal id)
  | .crash id => chaos (p.onCluster (Controller.crash p.cluster id))
  | .restart env id => chaos (p.restart env id)
  | .partition a b => chaos (p.partition a b)
  | .healAll => (p.healAll, ⟨200, none⟩)
  | .add env id => chaos (p.onCluster (Controller.add env p.cluster id "" ""))
  | .remove env id => chaos (p.onCluster (Controller.remove env p.cluster id))

/-- The state after some requests, whatever is answered. -/
def Plane.serve (p : Plane) (reqs : List (Request σ)) : Plane :=
  reqs.foldl (fun p req => (p.handle req).1) p

/-! ## What a request can do -/

variable {p : Plane} {id x : String} {env : Env σ}

theorem Plane.switch_cases (p : Plane) (ids : List String) (f : Cluster.Faults → Cluster.Faults) :
    (∃ id ∈ ids, p.cluster.members.get? id = none ∧
      p.switch ids f = (p, .error (.unknownNode id))) ∨
    (∀ id ∈ ids, (p.cluster.members.get? id).isSome = true) ∧
      p.switch ids f = ({ p with faults := f p.faults }, .ok ()) := by
  unfold Plane.switch
  split
  · next id hfind =>
    have hnone := List.find?_some hfind
    exact Or.inl ⟨id, List.mem_of_find?_eq_some hfind, by simpa using hnone, rfl⟩
  · next hfind =>
    refine Or.inr ⟨fun id hid => ?_, rfl⟩
    simpa [Option.isSome_iff_ne_none] using List.find?_eq_none.mp hfind id hid

/-- The change is refused, or it is made. -/
theorem Plane.faults_switch (p : Plane) (ids : List String) (f : Cluster.Faults → Cluster.Faults) :
    (p.switch ids f).1.faults = p.faults ∨ (p.switch ids f).1.faults = f p.faults := by
  rcases p.switch_cases ids f with ⟨_, _, _, heq⟩ | ⟨_, heq⟩
  · rw [heq]
    exact Or.inl rfl
  · rw [heq]
    exact Or.inr rfl

theorem Plane.cluster_switch (p : Plane) (ids : List String) (f : Cluster.Faults → Cluster.Faults) :
    (p.switch ids f).1.cluster = p.cluster := by
  rcases p.switch_cases ids f with ⟨_, _, _, heq⟩ | ⟨_, heq⟩
  · rw [heq]
  · rw [heq]

/-- **The members are handled as without faults.** -/
theorem Plane.onCluster_restart (env : Env σ) (p : Plane) (id : String) :
    ((p.restart env id).1.cluster, (p.restart env id).2) = Controller.restart env p.cluster id := by
  cases hget : p.cluster.members.get? id with
  | none => simp [Plane.restart, Controller.restart, hget]
  | some m =>
    cases hm : m.crashed with
    | true => simp [Plane.restart, Controller.restart, Plane.onCluster, hget, hm]
    | false => simp [Plane.restart, Controller.restart, hget, hm]

theorem Plane.faults_restart (env : Env σ) (p : Plane) (id : String) :
    (p.restart env id).1.faults = p.faults ∨
      (p.cluster.members.get? id).isSome = true ∧
        (p.restart env id).1.faults = p.faults.heal id := by
  unfold Plane.restart
  split
  · exact Or.inl rfl
  next m hm =>
  split
  · exact Or.inl rfl
  · exact Or.inr ⟨by simp [hm], rfl⟩

/-- The status says whether the call has failed. -/
theorem error_of_status {r : Plane × Except Err Unit} (h : (chaos r).2.status ≠ 200) :
    ∃ e, r.2 = .error e := by
  unfold chaos at h
  cases hr : r.2 with
  | ok => simp [hr] at h
  | error e => exact ⟨e, rfl⟩

end Controller
