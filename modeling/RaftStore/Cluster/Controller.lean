import RaftStore.Cluster.Runs

/-!
# The cluster of a development run

`cluster/cluster.go`: one process that starts the nodes, crashes and restarts them, and asks the
leader to add and to remove members. A node itself is not part of the state here. It appears with
the configuration it was started with, and the calls read it where they look for a leader and where
they ask for a change.

* `leaderNode`, `startMemberJoin`, `crash`, `add`, `remove`, …: the methods, each with the results
  that the outside gives it (`Env`);
* `Coherent`: every node that has been started is listed, and every listed node has an address. All
  methods keep it (`Coherent.step`), so it holds after any calls (`coherent_runOps`);
* `Cluster.setup`: the nodes of the cluster as the setup of a run.
-/

namespace Controller

open Raft (AddrMap RaftNode)

variable {σ : Type}

/-! ## State -/

/-- `Config` of `cluster.go`. A nil map reads like an empty one. -/
structure Config where
  ids : List String
  raftAddrs : AddrMap
  httpAddrs : AddrMap
  deriving DecidableEq

/-- A node that has been started, with the configuration it was started with. -/
structure Member where
  config : Raft.Config
  crashed : Bool

/-- `Cluster`. `http` says that there is a handler for the nodes. -/
structure Cluster where
  cfg : Config
  http : Bool
  members : OrdMap String Member

/-- `New`: no node has been started. -/
def Cluster.new (cfg : Config) (http : Bool) : Cluster where
  cfg := cfg
  http := http
  members := .empty

/-- `DevConfig`. -/
def devConfig : Config where
  ids := ["n1", "n2", "n3"]
  raftAddrs := .ofList [("n1", "127.0.0.1:19101"), ("n2", "127.0.0.1:19102"),
    ("n3", "127.0.0.1:19103")]
  httpAddrs := .ofList [("n1", "127.0.0.1:18101"), ("n2", "127.0.0.1:18102"),
    ("n3", "127.0.0.1:18103")]

/-- The errors of the calls. -/
inductive Err
  | idRequired
  | needAddrs (id : String)
  | alreadyRunning (id : String)
  | missingHandler
  | noRaftAddr (id : String)
  | listen (addr cause : String)
  | unknownNode (id : String)
  | stillRunning (id : String)
  | noLeaderToAdd
  | noLeaderToRemove
  | removeLeader
  /-- `AddServer` or `RemoveServer` has refused the change. -/
  | refused (e : Raft.Err)
  /-- The change has been appended, but `WaitApplied` has failed. -/
  | notApplied (e : Raft.Err)
  deriving DecidableEq

/-- Their texts. -/
def Err.message : Err → String
  | .idRequired => "id required"
  | .needAddrs id => "need raft and http addresses for " ++ id
  | .alreadyRunning id => id ++ " is already running"
  | .missingHandler => "missing HTTP handler"
  | .noRaftAddr id => "no raft address for " ++ id
  | .listen addr cause => "grpc listen " ++ addr ++ ": " ++ cause
  | .unknownNode id => "unknown node " ++ id
  | .stillRunning id => id ++ " is still running; crash it first"
  | .noLeaderToAdd => "no leader to add member"
  | .noLeaderToRemove => "no leader to remove member"
  | .removeLeader => Raft.Err.message .removeLeader
  | .refused e | .notApplied e => e.message

/-- What the outside does during a call: the error of every attempt to listen on an address, how
often the leader is looked for before the time is up and what the nodes are like then, the leader
when it is asked for the change, and the result of `WaitApplied`. -/
structure Env (σ : Type) where
  listen : String → Nat → Option String
  polls : Nat
  seen : Nat → String → RaftNode σ
  asked : RaftNode σ
  waited : Except Raft.Err Unit

/-! ## Starting and stopping nodes -/

/-- The configuration of a node: everybody, or a joining node on its own. -/
def memberConfig (cfg : Config) (id raftAddr : String) (join : Bool) : Raft.Config :=
  let httpAddr := (cfg.httpAddrs.get? id).getD ""
  { id := id
    peerAddrs := if join then .single id raftAddr else cfg.raftAddrs
    snapshotThreshold := 32
    httpAddrs :=
      if join then if httpAddr ≠ "" then .single id httpAddr else .empty else cfg.httpAddrs
    join := join }

/-- Up to 25 attempts to listen; the error is that of the last one. -/
def tryListen (attempt : Nat → Option String) : Option String :=
  if (List.range 25).any (fun i => (attempt i).isNone) then none else attempt 24

/-- A node that is there and has not crashed. -/
def Cluster.running (c : Cluster) (id : String) : Bool :=
  match c.members.get? id with
  | some m => !m.crashed
  | none => false

/-- The record of a node that has come up. -/
def Cluster.launch (c : Cluster) (id raftAddr : String) (join : Bool) : Cluster :=
  { c with members := c.members.set id ⟨memberConfig c.cfg id raftAddr join, false⟩ }

@[simp] theorem cfg_launch (c : Cluster) (id raftAddr : String) (join : Bool) :
    (c.launch id raftAddr join).cfg = c.cfg := rfl

/-- `startMemberJoin`: a node is started if it has an address and its port is free. -/
def startMemberJoin (env : Env σ) (c : Cluster) (id : String) (join : Bool) :
    Cluster × Except Err Unit :=
  if c.running id then (c, .error (.alreadyRunning id))
  else if !c.http then (c, .error .missingHandler)
  else
    match c.cfg.raftAddrs.get? id with
    | none => (c, .error (.noRaftAddr id))
    | some raftAddr =>
      match tryListen (env.listen raftAddr) with
      | some cause => (c, .error (.listen raftAddr cause))
      | none => (c.launch id raftAddr join, .ok ())

/-- `startMember`. -/
def startMember (env : Env σ) (c : Cluster) (id : String) : Cluster × Except Err Unit :=
  startMemberJoin env c id false

/-- `Crash`. A node that has crashed already stays so, without an error. -/
def crash (c : Cluster) (id : String) : Cluster × Except Err Unit :=
  match c.members.get? id with
  | none => (c, .error (.unknownNode id))
  | some m =>
    if m.crashed then (c, .ok ())
    else ({ c with members := c.members.set id { m with crashed := true } }, .ok ())

/-- `Stop`: all nodes crash. -/
def stop (c : Cluster) : Cluster := c.cfg.ids.foldl (fun c id => (crash c id).1) c

/-- The loop of `Start`. -/
def startAll (env : Env σ) : List String → Cluster → Cluster × Except Err Unit
  | [], c => (c, .ok ())
  | id :: rest, c =>
    match startMember env c id with
    | (c, .ok ()) => startAll env rest c
    | (c, .error e) => (stop c, .error e)

/-- `Start`. -/
def start (env : Env σ) (c : Cluster) : Cluster × Except Err Unit := startAll env c.cfg.ids c

/-- `Restart`: only what has crashed is started again. -/
def restart (env : Env σ) (c : Cluster) (id : String) : Cluster × Except Err Unit :=
  match c.members.get? id with
  | none => (c, .error (.unknownNode id))
  | some m => if !m.crashed then (c, .error (.stillRunning id)) else startMember env c id

/-! ## Changing the membership -/

/-- `leaderNode`: the first listed node that runs and says that it leads. -/
def leaderNode (c : Cluster) (nodes : String → RaftNode σ) : Option String :=
  c.cfg.ids.find? (fun id => c.running id && decide ((nodes id).state = .leader))

/-- `strconv.Atoi`. -/
def atoi (s : List Char) : Option Int :=
  let digits :=
    match s with
    | '+' :: rest => rest
    | '-' :: rest => rest
    | _ => s
  if digits = [] ∨ !digits.all Char.isDigit then none
  else
    let v : Nat := digits.foldl (fun v d => 10 * v + (d.toNat - 48)) 0
    if s.head? = some '-' then if v ≤ 2 ^ 63 then some (-v) else none
    else if v < 2 ^ 63 then some v else none

/-- `defaultDevAddrs`; the sum is one of 64-bit integers. -/
def defaultDevAddrs (id : String) : Except Err (String × String) :=
  match id.toList with
  | 'n' :: rest =>
    match atoi rest with
    | some n =>
      if n ≤ 0 then .error (.needAddrs id)
      else .ok ("127.0.0.1:" ++ toString (Int.bmod (19100 + n) (2 ^ 64)),
        "127.0.0.1:" ++ toString (Int.bmod (18100 + n) (2 ^ 64)))
    | none => .error (.needAddrs id)
  | _ => .error (.needAddrs id)

/-- The arguments of `Add` with the defaults filled in. -/
def addArgs (id raftAddr httpAddr : String) : Except Err (String × String) :=
  if id = "" then .error .idRequired
  else if raftAddr = "" ∨ httpAddr = "" then
    match defaultDevAddrs id with
    | .error e => .error e
    | .ok (r, h) =>
      .ok (if raftAddr = "" then r else raftAddr, if httpAddr = "" then h else httpAddr)
  else .ok (raftAddr, httpAddr)

/-- The addresses of a node are entered before it is started. -/
def Config.enter (cfg : Config) (id raftAddr httpAddr : String) : Config where
  ids := if id ∈ cfg.ids then cfg.ids else cfg.ids ++ [id]
  raftAddrs := cfg.raftAddrs.set id raftAddr
  httpAddrs := cfg.httpAddrs.set id httpAddr

/-- The end of `Add`: the node is up, and the leader is asked. -/
def askToAdd (env : Env σ) (c : Cluster) (id raftAddr httpAddr : String) :
    Cluster × Except Err Unit :=
  match (List.range env.polls).findSome? (fun k => leaderNode c (env.seen k)) with
  | none => ((crash c id).1, .error .noLeaderToAdd)
  | some _ =>
    match (env.asked.addServer id raftAddr httpAddr).2 with
    | .error e => ((crash c id).1, .error (.refused e))
    | .ok _ =>
      match env.waited with
      | .error e => ((crash c id).1, .error (.notApplied e))
      | .ok () => (c, .ok ())

/-- `Add`. The addresses are entered before the node is started, and stay if that fails. -/
def add (env : Env σ) (c : Cluster) (id raftAddr httpAddr : String) : Cluster × Except Err Unit :=
  match addArgs id raftAddr httpAddr with
  | .error e => (c, .error e)
  | .ok (raftAddr, httpAddr) =>
    if c.running id then (c, .error (.alreadyRunning id))
    else
      match startMemberJoin env { c with cfg := c.cfg.enter id raftAddr httpAddr } id true with
      | (c, .error e) => (c, .error e)
      | (c, .ok ()) => askToAdd env c id raftAddr httpAddr

/-- Everything about a node is deleted. -/
def Cluster.forget (c : Cluster) (id : String) : Cluster :=
  { c with
    members := c.members.erase id
    cfg :=
      { ids := c.cfg.ids.filter (fun existing => decide (existing ≠ id))
        raftAddrs := c.cfg.raftAddrs.erase id
        httpAddrs := c.cfg.httpAddrs.erase id } }

/-- `Remove`. The node is crashed and forgotten only after the change was applied. -/
def remove (env : Env σ) (c : Cluster) (id : String) : Cluster × Except Err Unit :=
  match leaderNode c (env.seen 0) with
  | none => (c, .error .noLeaderToRemove)
  | some leader =>
    if leader = id then (c, .error .removeLeader)
    else
      match (env.asked.removeServer id).2 with
      | .error e => (c, .error (.refused e))
      | .ok _ =>
        match env.waited with
        | .error e => (c, .error (.notApplied e))
        | .ok () => ((crash c id).1.forget id, .ok ())

/-! ## Calls -/

/-- The calls of the control plane. -/
inductive Op (σ : Type)
  | start (env : Env σ)
  | stop
  | crash (id : String)
  | restart (env : Env σ) (id : String)
  | add (env : Env σ) (id raftAddr httpAddr : String)
  | remove (env : Env σ) (id : String)

/-- The cluster after a call, and what it returns. -/
def step (c : Cluster) : Op σ → Cluster × Except Err Unit
  | .start env => start env c
  | .stop => (stop c, .ok ())
  | .crash id => crash c id
  | .restart env id => restart env c id
  | .add env id raftAddr httpAddr => add env c id raftAddr httpAddr
  | .remove env id => remove env c id

/-! ## What every call keeps -/

/-- The nodes that were started are listed, and those listed have an address. -/
structure Coherent (c : Cluster) : Prop where
  listed : ∀ id ∈ c.members.keys, id ∈ c.cfg.ids
  addressed : ∀ id ∈ c.cfg.ids, id ∈ c.cfg.raftAddrs.keys

variable {env : Env σ} {c : Cluster} {id raftAddr httpAddr : String}

/-- A crash changes no address. -/
@[simp] theorem cfg_crash : (crash c id).1.cfg = c.cfg := by
  unfold crash
  split
  · rfl
  · split
    · rfl
    · rfl

/-- A crash takes no node away. -/
@[simp] theorem mem_keys_crash (x : String) :
    x ∈ (crash c id).1.members.keys ↔ x ∈ c.members.keys := by
  unfold crash
  split
  · rfl
  next m hm =>
  split
  · rfl
  · have hid : id ∈ c.members.keys := (c.members.get?_isSome_iff id).mp (by simp [hm])
    simp only [OrdMap.mem_keys_set, or_iff_right_iff_imp]
    rintro rfl
    exact hid

/-- A crash keeps the lists in step. -/
theorem Coherent.crash (h : Coherent c) (id : String) : Coherent (Controller.crash c id).1 where
  listed x hx := by
    simp only [mem_keys_crash, cfg_crash] at hx ⊢
    exact h.listed x hx
  addressed x hx := by
    simp only [cfg_crash] at hx ⊢
    exact h.addressed x hx

theorem Coherent.stop (h : Coherent c) : Coherent (stop c) :=
  List.foldlRecOn (motive := Coherent) c.cfg.ids _ h (fun _ hc id _ => hc.crash id)

/-- A start is refused, or adds a record that is up. -/
theorem startMemberJoin_cases (env : Env σ) (c : Cluster) (id : String) (join : Bool) :
    (∃ e, startMemberJoin env c id join = (c, .error e)) ∨
      ∃ raftAddr, c.cfg.raftAddrs.get? id = some raftAddr ∧
        startMemberJoin env c id join = (c.launch id raftAddr join, .ok ()) := by
  unfold startMemberJoin
  split
  · exact Or.inl ⟨_, rfl⟩
  split
  · exact Or.inl ⟨_, rfl⟩
  split
  · exact Or.inl ⟨_, rfl⟩
  next raftAddr haddr =>
  split
  · exact Or.inl ⟨_, rfl⟩
  · exact Or.inr ⟨raftAddr, haddr, rfl⟩

/-- So does starting a node that is listed. -/
theorem Coherent.startMemberJoin (h : Coherent c) (hid : id ∈ c.cfg.ids) (join : Bool) :
    Coherent (startMemberJoin env c id join).1 := by
  rcases startMemberJoin_cases env c id join with ⟨e, heq⟩ | ⟨raftAddr, _, heq⟩
  · rw [heq]
    exact h
  · rw [heq]
    refine ⟨fun x hx => ?_, h.addressed⟩
    rcases (OrdMap.mem_keys_set _ _ _ _).mp hx with rfl | hold
    · exact hid
    · exact h.listed x hold

/-- Starting a node changes no address. -/
theorem cfg_startMemberJoin (join : Bool) : (startMemberJoin env c id join).1.cfg = c.cfg := by
  rcases startMemberJoin_cases env c id join with ⟨e, heq⟩ | ⟨_, _, heq⟩
  · rw [heq]
  · rw [heq]
    rfl

/-- Starting all that are listed keeps the lists in step, also where it fails half-way. -/
theorem Coherent.startAll {ids : List String} (h : Coherent c) (hids : ∀ id ∈ ids, id ∈ c.cfg.ids) :
    Coherent (startAll env ids c).1 := by
  induction ids generalizing c with
  | nil => exact h
  | cons id rest ih =>
    have hone : Coherent (startMember env c id).1 := h.startMemberJoin (hids id (by simp)) false
    have hcfg : (startMember env c id).1.cfg = c.cfg := cfg_startMemberJoin false
    unfold Controller.startAll
    rcases hr : startMember env c id with ⟨c', _ | ⟨⟨⟩⟩⟩
    -- the nodes that were started are stopped again
    · rw [hr] at hone
      exact hone.stop
    · rw [hr] at hone hcfg
      refine ih hone fun x hx => ?_
      rw [hcfg]
      exact hids x (by simp [hx])

/-- Entering addresses lists the node with them. -/
theorem Coherent.enter (h : Coherent c) :
    Coherent { c with cfg := c.cfg.enter id raftAddr httpAddr } where
  -- listed before, or entered now
  listed x hx := by
    have hold := h.listed x hx
    simp only [Config.enter]
    split
    · exact hold
    · simp [hold]
  addressed x hx := by
    simp only [Config.enter, OrdMap.mem_keys_set] at hx ⊢
    split at hx
    · exact Or.inr (h.addressed x hx)
    · rcases List.mem_append.mp hx with hold | hnew
      · exact Or.inr (h.addressed x hold)
      · exact Or.inl (List.mem_singleton.mp hnew)

/-- The node that is entered is listed. -/
theorem mem_ids_enter (cfg : Config) : id ∈ (cfg.enter id raftAddr httpAddr).ids := by
  simp only [Config.enter]
  split
  · assumption
  · simp

/-- Asking the leader keeps the lists in step; a node that was not added crashes. -/
theorem Coherent.askToAdd (h : Coherent c) : Coherent (askToAdd env c id raftAddr httpAddr).1 := by
  unfold Controller.askToAdd
  split
  · exact h.crash id
  split
  · exact h.crash id
  split
  · exact h.crash id
  · exact h

/-- So does `Add`. -/
theorem Coherent.add (h : Coherent c) : Coherent (add env c id raftAddr httpAddr).1 := by
  unfold Controller.add
  split
  · exact h
  next r a _ =>
  split
  · exact h
  have hstarted : Coherent
      (Controller.startMemberJoin env { c with cfg := c.cfg.enter id r a } id true).1 :=
    h.enter.startMemberJoin (mem_ids_enter c.cfg) true
  split
  · next heq =>
    rw [heq] at hstarted
    exact hstarted
  · next heq =>
    rw [heq] at hstarted
    exact hstarted.askToAdd

/-- So does `Remove`. -/
theorem Coherent.remove (h : Coherent c) : Coherent (remove env c id).1 := by
  unfold Controller.remove
  split
  · exact h
  split
  · exact h
  split
  · exact h
  split
  · exact h
  -- the node leaves both lists
  have hc := h.crash id
  refine ⟨fun x hx => ?_, fun x hx => ?_⟩
  · simp only [Cluster.forget, OrdMap.mem_keys_erase] at hx
    simp only [Cluster.forget, List.mem_filter, decide_eq_true_eq]
    exact ⟨hc.listed x hx.1, hx.2⟩
  · simp only [Cluster.forget, List.mem_filter, decide_eq_true_eq] at hx
    simp only [Cluster.forget, OrdMap.mem_keys_erase]
    exact ⟨hc.addressed x hx.1, hx.2⟩

/-- **Every call keeps the lists of the cluster coherent.** -/
theorem Coherent.step (h : Coherent c) (op : Op σ) : Coherent (step c op).1 := by
  cases op with
  | start env => exact h.startAll fun _ hid => hid
  | stop => exact h.stop
  | crash id => exact h.crash id
  -- whoever has crashed was started before, and is listed
  | restart env id =>
    simp only [Controller.step, restart]
    split
    · exact h
    next m hm =>
    split
    · exact h
    · refine h.startMemberJoin (h.listed id ?_) false
      exact (c.members.get?_isSome_iff id).mp (by simp [hm])
  | add env id raftAddr httpAddr => exact h.add
  | remove env id => exact h.remove

/-- A sequence of calls, whatever they return. -/
def runOps (c : Cluster) (ops : List (Op σ)) : Cluster := ops.foldl (fun c op => (step c op).1) c

/-- Whatever was called since `New`. -/
theorem coherent_runOps {cfg : Config} (h : ∀ id ∈ cfg.ids, id ∈ cfg.raftAddrs.keys) (http : Bool)
    (ops : List (Op σ)) : Coherent (runOps (.new cfg http) ops) := by
  have hnew : Coherent (.new cfg http) :=
    ⟨fun id hid => absurd hid (by simp [Cluster.new, OrdMap.keys, OrdMap.empty]), h⟩
  exact List.foldlRecOn (motive := Coherent) ops _ hnew (fun _ hc op _ => hc.step op)

/-! ## Starting a cluster -/

/-- The node has been started with all peers of the configuration. -/
def Configured (c : Cluster) (id : String) : Prop :=
  ∃ m, c.members.get? id = some m ∧ m.config.id = id ∧ m.config.peerAddrs = c.cfg.raftAddrs

/-- The nodes of the cluster as a setup: those that were never started have the configuration they
would be started with. -/
def Cluster.setup (c : Cluster) (M : Raft.Machine σ)
    (encode : Raft.Bytes → Raft.Bytes → Raft.Bytes) :
    Cluster.Setup σ where
  machine := M
  config := fun id =>
    ((c.members.get? id).map (·.config)).getD (memberConfig c.cfg id "" false)
  encode := encode
  httpHost := c.cfg.httpAddrs.get?

end Controller
