import RaftStore.Cluster.ControlPlane
import RaftStore.Results.Adding

/-!
# What the control plane does

* Whatever calls came before, a search for a leader misses no node that runs, and no call fails
  because an address is not known (`calls_find_nodes`). A cluster that was started is one of those
  that the results for a fixed membership are about (`start_fixed`).
* A request that is refused changes no link, and nothing about the nodes, with two exceptions
  (`refused_requests`): `Restart` reconnects the node before it tries to start it, and `Add` enters
  the addresses before it starts the node and looks for a leader, and leaves the record of the node.
* Links are cut and restored in both directions, and `heal-all` restores all of them
  (`links_symmetric`). Nothing else restores the link between two nodes (`partition_lasts`).
* A cut outlives the node. `Remove` forgets the node but not its faults, and the requests that would
  reconnect it are refused for a node that is not there: when it is added again it is isolated still
  (`removed_stays_isolated`).
-/

namespace Controller

variable {σ : Type} {p : Plane} {id : String} {req : Request σ} {reqs : List (Request σ)}

/-! ## Calls -/

section Calls

variable {env : Env σ} {c c' : Cluster} {cfg : Config} {http : Bool} {ops : List (Op σ)}

/-- A node with an address is not refused for the lack of one. -/
theorem startMemberJoin_ne_noRaftAddr (env : Env σ) (h : id ∈ c.cfg.raftAddrs.keys) (join : Bool)
    (x : String) :
    (startMemberJoin env c id join).2 ≠ .error (.noRaftAddr x) := by
  obtain ⟨raftAddr, haddr⟩ := Option.isSome_iff_exists.mp
    ((c.cfg.raftAddrs.get?_isSome_iff id).mpr h)
  unfold startMemberJoin
  rw [haddr]
  split
  · simp
  split
  · simp
  · dsimp only
    split
    · simp
    · simp

/-- `Start` finds the addresses of all that are listed. -/
theorem startAll_ne_noRaftAddr {ids : List String} (h : Coherent c)
    (hids : ∀ id ∈ ids, id ∈ c.cfg.ids) (x : String) :
    (startAll env ids c).2 ≠ .error (.noRaftAddr x) := by
  induction ids generalizing c with
  | nil => simp [startAll]
  | cons id rest ih =>
    have hid : id ∈ c.cfg.ids := hids id List.mem_cons_self
    have hfirst := startMemberJoin_ne_noRaftAddr env (h.addressed id hid) false x
    unfold startAll startMember
    -- the first node, then the others
    rcases startMemberJoin_cases env c id false with ⟨e, heq⟩ | ⟨raftAddr, _, heq⟩
    · rw [heq] at hfirst ⊢
      exact hfirst
    · have hlaunched : Coherent (startMemberJoin env c id false).1 := h.startMemberJoin hid false
      rw [heq] at hlaunched ⊢
      exact ih hlaunched (fun y hy => hids y (List.mem_cons_of_mem id hy))

/-- A node without default addresses is the only reason for `defaultDevAddrs` to fail. -/
theorem defaultDevAddrs_error {e : Err} (h : defaultDevAddrs id = .error e) :
    e = .needAddrs id := by
  unfold defaultDevAddrs at h
  repeat' split at h
  all_goals cases h
  all_goals rfl

/-- The arguments of `Add` are completed or refused, with another error. -/
theorem addArgs_ne_noRaftAddr (id raftAddr httpAddr x : String) :
    addArgs id raftAddr httpAddr ≠ .error (.noRaftAddr x) := by
  unfold addArgs
  split
  · simp
  split
  · split
    · next e hdefault => simp [defaultDevAddrs_error hdefault]
    · simp
  · simp

/-- `AddServer` at the leader fails with other errors. -/
theorem askToAdd_ne_noRaftAddr (raftAddr httpAddr x : String) :
    (askToAdd env c id raftAddr httpAddr).2 ≠ .error (.noRaftAddr x) := by
  unfold askToAdd
  repeat' split
  all_goals simp

/-- `Add` enters the address before it starts the node. -/
theorem add_ne_noRaftAddr {raftAddr httpAddr : String} (x : String) :
    (add env c id raftAddr httpAddr).2 ≠ .error (.noRaftAddr x) := by
  unfold add
  split
  · next e hargs =>
    have hne := addArgs_ne_noRaftAddr id raftAddr httpAddr x
    rw [hargs] at hne
    simpa using hne
  next r a _ =>
  split
  · simp
  -- the addresses are entered before the node is started
  have hentered : id ∈ (c.cfg.enter id r a).raftAddrs.keys := by simp [Config.enter]
  have hstart := startMemberJoin_ne_noRaftAddr env
    (c := { c with cfg := c.cfg.enter id r a }) hentered true x
  split
  · next heq =>
    rw [heq] at hstart
    simpa using hstart
  · exact askToAdd_ne_noRaftAddr _ _ x

theorem remove_ne_noRaftAddr (x : String) : (remove env c id).2 ≠ .error (.noRaftAddr x) := by
  unfold remove
  repeat' split
  all_goals simp

/-- No call on a coherent cluster fails because an address is not known. -/
theorem step_ne_noRaftAddr (h : Coherent c) (op : Op σ) (x : String) :
    (step c op).2 ≠ .error (.noRaftAddr x) := by
  cases op with
  | start env => exact startAll_ne_noRaftAddr h (fun _ hid => hid) x
  | stop => simp [step]
  | crash id =>
    simp only [step, crash]
    split
    · simp
    split
    · simp
    · simp
  | restart env id =>
    simp only [step, restart]
    split
    · simp
    next m hm =>
    split
    · simp
    · -- whoever has been started before is listed
      have hmem : id ∈ c.members.keys := (c.members.get?_isSome_iff id).mp (by simp [hm])
      exact startMemberJoin_ne_noRaftAddr env (h.addressed id (h.listed id hmem)) false x
  | add env id raftAddr httpAddr => exact add_ne_noRaftAddr x
  | remove env id => exact remove_ne_noRaftAddr x

/-- **The search for a leader misses no node, and every address is known**, in every state that
calls lead to: the search fails only if no node that is up is a leader. -/
theorem calls_find_nodes (hcfg : ∀ id ∈ cfg.ids, id ∈ cfg.raftAddrs.keys)
    (nodes : String → Raft.RaftNode σ) :
    (leaderNode (runOps (.new cfg http) ops) nodes = none ↔
      ∀ id, (runOps (.new cfg http) ops).running id = true → (nodes id).state ≠ .leader) ∧
    ∀ (op : Op σ) (id : String),
      (step (runOps (.new cfg http) ops) op).2 ≠ .error (.noRaftAddr id) := by
  have hrun := coherent_runOps hcfg http ops
  refine ⟨?_, step_ne_noRaftAddr hrun⟩
  generalize runOps (.new cfg http) ops = c at hrun ⊢
  -- whoever runs was started, and is listed
  have hlisted : ∀ id, c.running id = true → id ∈ c.cfg.ids := by
    intro id hup
    refine hrun.listed id ((c.members.get?_isSome_iff id).mp ?_)
    unfold Cluster.running at hup
    split at hup
    · next m hm => simp [hm]
    · cases hup
  simp only [leaderNode, List.find?_eq_none, Bool.and_eq_true, decide_eq_true_eq, not_and]
  exact ⟨fun hall id hup => hall id (hlisted id hup) hup, fun hall id _ => hall id⟩

theorem calls_find_nodes_sample :
    leaderNode (runOps (.new devConfig true) [.start leaderless, .crash "n1"])
      (leaderless.seen 0) = none ∧
    ∀ id, (runOps (.new devConfig true) [.start leaderless, .crash "n1"]).running id = true →
      (leaderless.seen 0 id).state ≠ .leader := by
  have hnone : leaderNode (runOps (.new devConfig true) [.start leaderless, .crash "n1"])
      (leaderless.seen 0) = none := by decide +kernel
  exact ⟨hnone, (calls_find_nodes (by decide +kernel) (leaderless.seen 0)).1.mp hnone⟩

end Calls

/-! ## Refused requests -/

/-- `Crash` fails for a node that is not there. -/
theorem cluster_crash_error {c : Cluster} {e : Err} (h : (crash c id).2 = .error e) :
    (crash c id).1 = c := by
  unfold crash at h ⊢
  -- a node that is not there, one that has crashed already, one that runs
  cases hget : c.members.get? id with
  | none => rfl
  | some m =>
    simp only [hget] at h
    cases hm : m.crashed with
    | true => simp [hm]
    | false => simp [hm] at h

/-- `Restart` is refused, or starts a node that is there. -/
theorem restart_cases (env : Env σ) (c : Cluster) (id : String) :
    (∃ e, Controller.restart env c id = (c, .error e)) ∨ id ∈ c.members.keys ∧
      ∃ raftAddr, Controller.restart env c id = (c.launch id raftAddr false, .ok ()) := by
  unfold Controller.restart
  cases hget : c.members.get? id with
  | none => exact Or.inl ⟨_, rfl⟩
  | some m =>
    have hmem : id ∈ c.members.keys := (c.members.get?_isSome_iff id).mp (by simp [hget])
    cases hm : m.crashed with
    | false => exact Or.inl ⟨.stillRunning id, by simp [hm]⟩
    | true =>
      -- it has crashed, and is started if its port is free
      simp only [hm, Bool.not_true, Bool.false_eq_true, if_false]
      rcases startMemberJoin_cases env c id false with ⟨e, heq⟩ | ⟨raftAddr, _, heq⟩
      · exact Or.inl ⟨e, heq⟩
      · exact Or.inr ⟨hmem, raftAddr, heq⟩

/-- `Remove` is refused, or the node is gone. -/
theorem remove_cases (env : Env σ) (c : Cluster) (id : String) :
    (∃ e, Controller.remove env c id = (c, .error e)) ∨
      Controller.remove env c id = ((crash c id).1.forget id, .ok ()) := by
  unfold Controller.remove
  split
  · exact Or.inl ⟨_, rfl⟩
  split
  · exact Or.inl ⟨_, rfl⟩
  split
  · exact Or.inl ⟨_, rfl⟩
  split
  · exact Or.inl ⟨_, rfl⟩
  · exact Or.inr rfl

/-- A refused switch changes no link. -/
theorem Plane.refused_switch {ids : List String} {f : Cluster.Faults → Cluster.Faults}
    (h : (chaos (p.switch ids f)).2.status ≠ 200) : (chaos (p.switch ids f)).1 = p := by
  obtain ⟨e, he⟩ := error_of_status h
  rcases p.switch_cases ids f with ⟨_, _, _, heq⟩ | ⟨_, heq⟩
  · rw [heq]
    rfl
  · rw [heq] at he
    cases he

/-- What a refused request leaves. `Restart` reconnects a node that has crashed before it tries to
start it, and `Add` takes nothing back; the others leave everything as it was. -/
def Refused (p : Plane) : Request σ → Plane → Prop
  | .restart _ id, p' =>
    p' = if (p.cluster.members.get? id).any (·.crashed) then
      { p with faults := p.faults.heal id } else p
  | .add env id, p' => ∃ c', AddFails env p.cluster id "" "" c' ∧ p' = { p with cluster := c' }
  | _, p' => p' = p

/-- A refused `Restart` has healed the node, if there was one that had crashed. -/
theorem Plane.refused_restart {env : Env σ} {e : Err} (h : (p.restart env id).2 = .error e) :
    (p.restart env id).1 =
      if (p.cluster.members.get? id).any (·.crashed) then
        { p with faults := p.faults.heal id } else p := by
  unfold Plane.restart at h ⊢
  cases hget : p.cluster.members.get? id with
  | none => rfl
  | some m =>
    cases hm : m.crashed with
    | false => simp [hm]
    | true =>
      simp only [hget, hm] at h
      rcases startMemberJoin_cases env p.cluster id false with ⟨e', heq⟩ | ⟨_, _, heq⟩
      · simp [hm, startMember, Plane.onCluster, heq]
      · simp [startMember, Plane.onCluster, heq] at h

/-- **What is left when a request was refused**: everything is as it was, except after `Restart` and
`Add`. -/
theorem refused_requests (hstatus : (p.handle req).2.status ≠ 200) :
    Refused p req (p.handle req).1 := by
  cases req with
  | isolate id => exact Plane.refused_switch hstatus
  | heal id => exact Plane.refused_switch hstatus
  | partition a b => exact Plane.refused_switch hstatus
  | crash id =>
    obtain ⟨e, he⟩ := error_of_status hstatus
    have hsame : (Controller.crash p.cluster id).1 = p.cluster := cluster_crash_error he
    show ({ p with cluster := (Controller.crash p.cluster id).1 } : Plane) = p
    rw [hsame]
  | restart env id =>
    obtain ⟨e, he⟩ := error_of_status hstatus
    exact Plane.refused_restart he
  | healAll => exact absurd rfl hstatus
  | add env id =>
    obtain ⟨e, he⟩ := error_of_status hstatus
    exact ⟨_, add_fails he, rfl⟩
  | remove env id =>
    -- `Remove` answers with an error only before it changes anything
    obtain ⟨e, he⟩ := error_of_status hstatus
    rcases remove_cases env p.cluster id with ⟨e', heq⟩ | heq
    · show ({ p with cluster := (Controller.remove env p.cluster id).1 } : Plane) = p
      rw [heq]
    · have hok : (Controller.remove env p.cluster id).2 = .ok () := congrArg Prod.snd heq
      rw [show (p.onCluster (Controller.remove env p.cluster id)).2 = .ok () from hok] at he
      cases he

/-! A node that is isolated and has crashed, and whose address is taken when it is to be restarted:
it is reconnected, but does not run. -/

/-- `n2` is isolated. -/
def isolatedPlane : Plane := ⟨devCluster, Cluster.Faults.new.isolate "n2"⟩

/-- Then it crashes. -/
def crashedPlane : Plane := isolatedPlane.serve [(.crash "n2" : Request Unit)]

/-- No port is free. -/
def occupied : Env Unit := { leaderless with listen := fun _ _ => some "address already in use" }

theorem refused_requests_sample : (crashedPlane.handle (.restart occupied "n2")).2.status ≠ 200 ∧
    Refused crashedPlane (.restart occupied "n2")
      (crashedPlane.handle (.restart occupied "n2")).1 :=
  ⟨by decide +kernel, refused_requests (by decide +kernel)⟩

/-! ## Links -/

/-- Links are cut in both directions or in none. -/
def Mutual (f : Cluster.Faults) : Prop := ∀ a b, f.blocked a b = f.blocked b a

/-- One link is set. -/
theorem blocked_setBlocked (f : Cluster.Faults) (src dst x y : String) (v : Bool) :
    (f.setBlocked src dst v).blocked x y = if x = src ∧ y = dst then v else f.blocked x y := by
  unfold Cluster.Faults.setBlocked
  dsimp only
  by_cases hx : x = src
  · subst hx
    by_cases hy : y = dst
    · simp [hy]
    · simp [hy]
  · simp [hx]

/-- `Disconnect` sets both directions of a link. -/
theorem blocked_disconnect (f : Cluster.Faults) (a b x y : String) :
    (f.disconnect a b).blocked x y =
      if x = b ∧ y = a ∨ x = a ∧ y = b then true else f.blocked x y := by
  unfold Cluster.Faults.disconnect
  rw [blocked_setBlocked, blocked_setBlocked]
  by_cases hba : x = b ∧ y = a
  · simp [hba]
  · simp [hba]

/-- So it keeps the links mutual. -/
theorem mutual_disconnect {f : Cluster.Faults} (h : Mutual f) (a b : String) :
    Mutual (f.disconnect a b) := by
  intro x y
  have hswap : (x = b ∧ y = a ∨ x = a ∧ y = b) ↔ (y = b ∧ x = a ∨ y = a ∧ x = b) := by
    tauto
  rw [blocked_disconnect, blocked_disconnect, h x y]
  simp only [hswap]

/-- Every request keeps what the three ways of changing the faults keep. -/
theorem Plane.faults_cases (p : Plane) (req : Request σ) : (p.handle req).1.faults = p.faults ∨
    (∃ id, req = .isolate id ∧ (p.handle req).1.faults = p.faults.isolate id) ∨
    (∃ id, (p.cluster.members.get? id).isSome = true ∧
      (req = .heal id ∨ ∃ env, req = .restart env id) ∧
      (p.handle req).1.faults = p.faults.heal id) ∨
    (∃ a b, req = .partition a b ∧ (p.handle req).1.faults = p.faults.disconnect a b) ∨
    req = .healAll ∧ (p.handle req).1.faults = .new := by
  -- the requests about links change them if the nodes are there
  cases req with
  | isolate id =>
    exact (p.faults_switch [id] (·.isolate id)).imp_right (fun h => Or.inl ⟨id, rfl, h⟩)
  | heal id =>
    rcases p.switch_cases [id] (·.heal id) with ⟨_, _, _, heq⟩ | ⟨hmem, heq⟩
    · exact Or.inl (congrArg (fun r => r.1.faults) heq)
    · exact Or.inr (Or.inr (Or.inl ⟨id, hmem id List.mem_cons_self, Or.inl rfl,
        congrArg (fun r => r.1.faults) heq⟩))
  | partition a b =>
    refine (p.faults_switch [a, b] (·.disconnect a b)).imp_right (fun h => ?_)
    exact Or.inr (Or.inr (Or.inl ⟨a, b, rfl, h⟩))
  | restart env id =>
    refine (p.faults_restart env id).imp_right (fun h => ?_)
    exact Or.inr (Or.inl ⟨id, h.1, Or.inr ⟨env, rfl⟩, h.2⟩)
  | healAll => exact Or.inr (Or.inr (Or.inr (Or.inr ⟨rfl, rfl⟩)))
  -- the others are about nodes only
  | crash id => exact Or.inl rfl
  | add env id => exact Or.inl rfl
  | remove env id => exact Or.inl rfl

/-- Every request keeps the links mutual. -/
theorem mutual_handle (h : Mutual p.faults) (req : Request σ) : Mutual (p.handle req).1.faults := by
  rcases p.faults_cases req with heq | ⟨id, _, heq⟩ | ⟨id, _, _, heq⟩ | ⟨a, b, _, heq⟩ | ⟨_, heq⟩
  · rw [heq]
    exact h
  · rw [heq]
    exact h
  · rw [heq]
    exact h
  · rw [heq]
    exact mutual_disconnect h a b
  · rw [heq]
    exact fun _ _ => rfl

/-- So does every sequence of requests. -/
theorem mutual_serve (h : Mutual p.faults) (reqs : List (Request σ)) :
    Mutual (p.serve reqs).faults := by
  induction reqs generalizing p with
  | nil => exact h
  | cons req rest ih => exact ih (mutual_handle h req)

/-- **Links are symmetric**: whatever was requested since the start, two nodes can talk in both
directions or in none, and after `heal-all` all can. -/
theorem links_symmetric (c : Cluster) (reqs : List (Request σ)) (a b : String) :
    (Plane.serve ⟨c, .new⟩ reqs).faults.allow a b = (Plane.serve ⟨c, .new⟩ reqs).faults.allow b a ∧
      (Plane.serve ⟨c, .new⟩ (reqs ++ [.healAll])).faults.allow a b = true := by
  have hmut : Mutual (Plane.serve ⟨c, .new⟩ reqs).faults := mutual_serve (fun _ _ => rfl) reqs
  constructor
  · unfold Cluster.Faults.allow
    rw [hmut a b, Bool.or_comm]
  · unfold Plane.serve
    rw [List.foldl_append]
    rfl

/-! ## Cuts that last -/

/-- Only `HealAll` opens a blocked link. -/
theorem blocked_handle {a b : String} (h : p.faults.blocked a b = true) (hreq : req ≠ .healAll) :
    (p.handle req).1.faults.blocked a b = true := by
  rcases p.faults_cases req with heq | ⟨x, _, heq⟩ | ⟨x, _, _, heq⟩ | ⟨x, y, _, heq⟩ | ⟨hall, _⟩
  · rw [heq]
    exact h
  · rw [heq]
    exact h
  · -- `Heal` and `Restart` end an isolation, not a cut between two nodes
    rw [heq]
    exact h
  · rw [heq, blocked_disconnect, h, ite_self]
  · exact absurd hall hreq

/-- **A cut between two nodes lasts until `heal-all`.** Nothing else restores it: not healing the
two nodes, nor crashing and restarting them, nor removing them and adding them again. -/
theorem partition_lasts {a b : String} (h : p.faults.blocked a b = true)
    (hreqs : ∀ req ∈ reqs, req ≠ .healAll) : (p.serve reqs).faults.allow a b = false := by
  -- one request after the other
  have hblocked : (p.serve reqs).faults.blocked a b = true := by
    induction reqs generalizing p with
    | nil => exact h
    | cons req rest ih =>
      exact ih (blocked_handle h (hreqs req List.mem_cons_self))
        (fun r hr => hreqs r (List.mem_cons_of_mem req hr))
  simp [Cluster.Faults.allow, hblocked]

/-! `n1` and `n2` are cut off from each other; then `n2` is crashed, restarted and healed. -/

/-- `n1` and `n2` are cut off from each other. -/
def cutPlane : Plane := Plane.serve ⟨devCluster, .new⟩ [(.partition "n1" "n2" : Request Unit)]

theorem partition_lasts_sample :
    (cutPlane.serve [.crash "n2", .restart leaderless "n2", .heal "n2"]).cluster.running "n2" =
      true ∧
    (cutPlane.serve [.crash "n2", .restart leaderless "n2", .heal "n2"]).faults.allow "n1" "n2" =
      false :=
  ⟨by decide +kernel, partition_lasts (by decide +kernel) (by simp)⟩

/-! ## Cuts that outlive the node -/

/-- No request of these reaches the faults or the record of a node that is not there. -/
def Spares (id : String) : Request σ → Prop
  | .healAll => False
  | .add _ x => x ≠ id
  | _ => True

/-- The node is cut off, and there is no such node. -/
structure Ghost (id : String) (p : Plane) : Prop where
  isolated : p.faults.isolated id = true
  absent : id ∉ p.cluster.members.keys

theorem mem_keys_launch {c : Cluster} {x raftAddr : String} {join : Bool} (hne : x ≠ id) :
    id ∈ (c.launch x raftAddr join).members.keys ↔ id ∈ c.members.keys := by
  simp [Cluster.launch, hne.symm]

/-- Nor does an attempt to start one. -/
theorem absent_startMemberJoin {env : Env σ} {c : Cluster} {x : String} {join : Bool} (hne : x ≠ id)
    (h : id ∉ c.members.keys) : id ∉ (startMemberJoin env c x join).1.members.keys := by
  rcases startMemberJoin_cases env c x join with ⟨e, heq⟩ | ⟨_, _, heq⟩
  · rw [heq]
    exact h
  · rw [heq, mem_keys_launch hne]
    exact h

/-- `Add` enters the node that it is asked for, at most. -/
theorem absent_add {env : Env σ} {c : Cluster} {x r a : String} (hne : x ≠ id)
    (h : id ∉ c.members.keys) : id ∉ (Controller.add env c x r a).1.members.keys := by
  unfold Controller.add
  split
  · exact h
  next r' a' _ =>
  split
  · exact h
  have hstarted : id ∉ (startMemberJoin env { c with cfg := c.cfg.enter x r' a' } x
      true).1.members.keys := absent_startMemberJoin hne h
  split
  · next heq =>
    rw [heq] at hstarted
    exact hstarted
  · next heq =>
    rw [heq] at hstarted
    -- a request that fails takes the node out again, and enters no other
    unfold askToAdd
    split
    · simpa using hstarted
    split
    · simpa using hstarted
    split
    · simpa using hstarted
    · exact hstarted

/-- `Remove` enters nobody. -/
theorem absent_remove {env : Env σ} {c : Cluster} {x : String} (h : id ∉ c.members.keys) :
    id ∉ (Controller.remove env c x).1.members.keys := by
  rcases remove_cases env c x with ⟨e, heq⟩ | heq
  · rw [heq]
    exact h
  · rw [heq]
    simp [Cluster.forget, h]

/-- `Restart` starts only who is there. -/
theorem absent_restart {env : Env σ} {c : Cluster} {x : String} (h : id ∉ c.members.keys) :
    id ∉ (Controller.restart env c x).1.members.keys := by
  rcases restart_cases env c x with ⟨e, heq⟩ | ⟨hmem, raftAddr, heq⟩
  · rw [heq]
    exact h
  · have hne : x ≠ id := by
      rintro rfl
      exact h hmem
    rw [heq, mem_keys_launch hne]
    exact h

/-- A switch of faults leaves the nodes alone. -/
theorem absent_switch {ids : List String} {f : Cluster.Faults → Cluster.Faults}
    (h : id ∉ p.cluster.members.keys) : id ∉ (p.switch ids f).1.cluster.members.keys := by
  rw [Plane.cluster_switch]
  exact h

/-- **A node that was removed while isolated stays isolated**, as long as nobody adds it or heals
all. -/
theorem Ghost.handle (h : Ghost id p) (hreq : Spares id req) : Ghost id (p.handle req).1 := by
  constructor
  -- the links
  · rcases p.faults_cases req with heq | ⟨x, _, heq⟩ | ⟨x, hmem, _, heq⟩ | ⟨a, b, _, heq⟩ | ⟨rfl, _⟩
    · rw [heq]
      exact h.isolated
    · rw [heq]
      by_cases hx : id = x
      · simp [Cluster.Faults.isolate, hx]
      · simpa [Cluster.Faults.isolate, hx] using h.isolated
    · -- only a node that is there is reconnected
      have hx : id ≠ x := by
        rintro rfl
        exact h.absent ((p.cluster.members.get?_isSome_iff id).mp hmem)
      rw [heq]
      simpa [Cluster.Faults.heal, hx] using h.isolated
    · rw [heq]
      exact h.isolated
    · exact hreq.elim
  -- the members
  · cases req with
    | isolate x => exact absent_switch h.absent
    | heal x => exact absent_switch h.absent
    | partition a b => exact absent_switch h.absent
    | crash x =>
      show id ∉ (Controller.crash p.cluster x).1.members.keys
      rw [mem_keys_crash]
      exact h.absent
    | restart env x =>
      show id ∉ (p.restart env x).1.cluster.members.keys
      have hsame := congrArg Prod.fst (p.onCluster_restart env x)
      dsimp only at hsame
      rw [hsame]
      exact absent_restart h.absent
    | healAll => exact h.absent
    | add env x => exact absent_add hreq h.absent
    | remove env x => exact absent_remove h.absent

/-- The same for a sequence of requests. -/
theorem Ghost.serve (h : Ghost id p) (hreqs : ∀ req ∈ reqs, Spares id req) :
    Ghost id (p.serve reqs) := by
  induction reqs generalizing p with
  | nil => exact h
  | cons req rest ih =>
    exact ih (h.handle (hreqs req List.mem_cons_self))
      (fun r hr => hreqs r (List.mem_cons_of_mem req hr))

/-- **A node that was removed while it was isolated is isolated when it is added again**, unless
`heal-all` came in between. -/
theorem removed_stays_isolated (hiso : p.faults.isolated id = true) {env : Env σ}
    (hremoved : (Controller.remove env p.cluster id).2 = .ok ())
    (hreqs : ∀ req ∈ reqs, Spares id req) (env' : Env σ) (x : String) :
    let back := p.serve (.remove env id :: reqs ++ [.add env' id])
    back.faults.allow id x = false ∧ back.faults.allow x id = false := by
  -- after the removal the node is gone, and isolated still
  have hghost : Ghost id (p.handle (.remove env id)).1 := by
    refine ⟨hiso, ?_⟩
    show id ∉ (Controller.remove env p.cluster id).1.members.keys
    rcases remove_cases env p.cluster id with ⟨e, heq⟩ | heq
    · rw [heq] at hremoved
      cases hremoved
    · rw [heq]
      simp [Cluster.forget]
  have hlater := (hghost.serve hreqs).isolated
  -- `Add` changes no link
  have hback : (p.serve (.remove env id :: reqs ++ [.add env' id])).faults =
      ((p.handle (.remove env id)).1.serve reqs).faults := by
    unfold Plane.serve
    rw [List.cons_append, List.foldl_cons, List.foldl_append]
    rfl
  dsimp only
  rw [hback]
  exact ⟨Cluster.Faults.allow_eq_false hlater (Or.inl rfl),
    Cluster.Faults.allow_eq_false hlater (Or.inr rfl)⟩

/-! `n1` leads and removes `n2`, which is isolated; the request to heal `n2` is refused then. -/

/-- `n1` leads a cluster with this configuration. -/
def ruled (cfg : Config) : Env Unit :=
  { leaderless with
    seen := fun k id =>
      { leaderless.seen k id with state := if id = "n1" then .leader else .follower }
    asked :=
      { Raft.RaftNode.boot Cluster.idle (memberConfig cfg "n1" "" false) none with
        state := .leader } }

theorem removed_stays_isolated_sample :
    let smaller := (devCluster.forget "n2").cfg
    let back := isolatedPlane.serve
      [.remove (ruled devConfig) "n2", .heal "n2", .add (ruled smaller) "n2"]
    back.cluster.running "n2" = true ∧
      back.faults.allow "n2" "n1" = false ∧ back.faults.allow "n1" "n2" = false := by
  have hremoved : (Controller.remove (ruled devConfig) isolatedPlane.cluster "n2").2 = .ok () := by
    decide +kernel
  have hreqs : ∀ req ∈ [(.heal "n2" : Request Unit)], Spares "n2" req := by simp [Spares]
  exact ⟨by decide +kernel,
    removed_stays_isolated (by decide +kernel) hremoved hreqs
      (ruled (devCluster.forget "n2").cfg) "n1"⟩

end Controller
