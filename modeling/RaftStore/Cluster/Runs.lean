import RaftStore.Cluster.World
import RaftStore.Lib.Path

/-!
# Runs of a cluster

A run is a path of `Cluster.step`. This module names the kinds of clusters and runs that the
results speak of:

* `Fixed`: every node is started with the same configuration. A run in which nobody changes
  it consists of `NoChange` steps.
* `Joinable`: there is one initial configuration, and the other nodes are started alone, to
  be added later.
* `KeepsLogs`, `Careful`, `WritesKept`, `ReadsOwn`, `ForwardsFresh`: runs in which the precautions
  are taken that the source leaves out.

Guards on a critical section also apply to one that a crash cuts short.
-/

namespace Cluster

open Raft

variable {σ : Type} {members : AddrMap} {act : Action}

abbrev Run (S : Setup σ) (ok : World σ → Action → Prop) : World σ → List Action → World σ → Prop :=
  StepPath (step S) ok

/-- The process that runs under `id`, or the one that a restart would bring up. -/
def World.revived (S : Setup σ) (w : World σ) (id : String) : RaftNode σ :=
  if w.up id then w.node id
  else RaftNode.boot S.machine (S.config id) (w.node id).storage

section Revived

variable {S : Setup σ} {w w' : World σ} {id : String}

theorem revived_of_up (hup : w.up id = true) : w.revived S id = w.node id :=
  if_pos hup

theorem revived_of_down (hup : w.up id = false) : w.revived S id =
    RaftNode.boot S.machine (S.config id) (w.node id).storage :=
  if_neg (by rw [hup]; decide)

theorem revived_congr (hup : w'.up id = w.up id) (hnode : w'.node id = w.node id) :
    w'.revived S id = w.revived S id := by
  unfold World.revived
  rw [hup, hnode]

end Revived

/-! ## Clusters -/

/-- Every node is started under its own name with the same `PeerAddrs`, whose ids are not
empty. The `Join` flag may be set or not. -/
structure Fixed (S : Setup σ) (members : AddrMap) : Prop where
  id_eq : ∀ id, (S.config id).id = id
  peers : ∀ id, (S.config id).peerAddrs = members
  nonempty : members.isEmpty = false
  named : "" ∉ members.keys

/-- The nodes of the initial configuration are started with it, all others alone. -/
structure Joinable (S : Setup σ) (members : AddrMap) : Prop where
  id_eq : ∀ id, (S.config id).id = id
  peers : ∀ id ∈ members.keys, (S.config id).peerAddrs = members
  joiners : ∀ id, id ∉ members.keys → (S.config id).peerAddrs.keys = [id]
  nonempty : members.isEmpty = false
  named : "" ∉ members.keys

/-- Compaction is switched off. -/
def Uncompacted (S : Setup σ) : Prop := ∀ id, (S.config id).snapshotThreshold ≤ 0

/-- Snapshots are never empty. -/
def Substantial (S : Setup σ) : Prop :=
  ∀ m d, S.machine.snapshotter.snapshot m = some d → d ≠ []

/-- A cluster in which every node is started with the same settings. -/
def uniform (M : Machine σ) (members : AddrMap) (threshold : Int) : Setup σ where
  machine := M
  config := fun id => { id := id, peerAddrs := members, snapshotThreshold := threshold }
  encode := fun _ value => value
  httpHost := fun _ => none

theorem uniform_fixed (M : Machine σ) (threshold : Int)
    (hne : members.isEmpty = false) (hnamed : "" ∉ members.keys) :
    Fixed (uniform M members threshold) members :=
  ⟨fun _ => rfl, fun _ => rfl, hne, hnamed⟩

/-- A cluster in which the members are started with the same settings and everyone else
alone, to be added later. -/
def expandable (M : Machine σ) (members : AddrMap) (threshold : Int) : Setup σ where
  machine := M
  config := fun id =>
    { id := id, peerAddrs := if id ∈ members.keys then members else .single id "",
      snapshotThreshold := threshold, join := decide (id ∉ members.keys) }
  encode := fun _ value => value
  httpHost := fun _ => none

theorem expandable_joinable (M : Machine σ) (threshold : Int)
    (hne : members.isEmpty = false) (hnamed : "" ∉ members.keys) :
    Joinable (expandable M members threshold) members :=
  ⟨fun _ => rfl, fun _ hid => if_pos hid, fun _ hid => congrArg OrdMap.keys (if_neg hid), hne,
    hnamed⟩

/-- The state after a list of actions, if all of them are possible. -/
def after (S : Setup σ) (w : World σ) (acts : List Action) : World σ :=
  (exec (step S) w acts).getD w

theorem run_after {S : Setup σ} {ok : World σ → Action → Prop} {w : World σ} {acts : List Action}
    (hok : ∀ act ∈ acts, ∀ w, ok w act) (h : (exec (step S) w acts).isSome = true) :
    Run S ok w acts (after S w acts) := by
  refine StepPath.of_exec hok ?_
  unfold after
  obtain ⟨w', hw'⟩ := Option.isSome_iff_exists.mp h
  rw [hw']
  rfl

theorem run_checked {S : Setup σ} {ok : World σ → Action → Prop} {g : World σ → Action → Bool}
    (hg : ∀ w act, g w act = true → ok w act) {w : World σ} {acts : List Action}
    (hc : checked (step S) g w acts = true) (h : (exec (step S) w acts).isSome = true) :
    Run S ok w acts (after S w acts) := by
  refine StepPath.of_checked hg hc ?_
  unfold after
  obtain ⟨w', hw'⟩ := Option.isSome_iff_exists.mp h
  rw [hw']
  rfl

/-! ## Guards -/

/-- The action changes no membership. -/
def NoChange (w : World σ) : Action → Prop
  | .addServer _ _ _ _ => False
  | .removeServer _ _ => False
  | .crashDuring act _ => NoChange w act
  | _ => True

/-- The snapshot, if it is going to be installed, does not stand for a proper part of the
receiver's log. -/
def InstallKeeps (n : RaftNode σ) (req : InstallSnapshotRequest) : Prop :=
  n.currentTerm ≤ req.term → n.log.lastIncludedIndexLocked < req.lastIncludedIndex →
    req.lastIncludedIndex < n.log.lastLogIndexLocked →
    n.log.termAtLocked req.lastIncludedIndex ≠ some req.lastIncludedTerm

/-- If the entries are accepted, none of them differs from what the receiver holds at the same
index, up to `j`. -/
def AppendAgrees (n : RaftNode σ) (req : AppendEntriesRequest) (j : Nat) : Prop :=
  n.currentTerm ≤ req.term → n.log.lastIncludedIndexLocked ≤ req.prevLogIndex →
    n.log.termAtLocked req.prevLogIndex = some req.prevLogTerm →
    ∀ (k : Nat) e x, req.entries[k]? = some e → req.prevLogIndex + 1 + k ≤ j →
      n.log.entryAtLocked (req.prevLogIndex + 1 + k) = some x → x.term = e.term

/-- The snapshot, if it is going to be installed, stands for a part of the receiver's own log
that reaches to `j`. -/
def InstallCovers (n : RaftNode σ) (req : InstallSnapshotRequest) (j : Nat) : Prop :=
  n.currentTerm ≤ req.term → n.log.lastIncludedIndexLocked < req.lastIncludedIndex →
    j ≤ req.lastIncludedIndex ∧
      n.log.termAtLocked req.lastIncludedIndex = some req.lastIncludedTerm

/-- The request leaves the first `j` entries of the receiver's log alone. -/
def Rpc.Preserves (n : RaftNode σ) (j : Nat) : Rpc → Prop
  | .requestVote _ _ => True
  | .appendEntries req _ _ => AppendAgrees n req j
  | .installSnapshot req _ => InstallCovers n req j

/-- Nothing that is delivered to `id` touches the first `j` entries of its log. -/
def Undisturbed (w : World σ) (id : String) (j : Nat) : Action → Prop
  | .deliver k => ∀ c, w.calls[k]? = some c → c.dst = id → c.rpc.Preserves (w.node id) j
  | _ => True

/-- Nothing overwrites an entry that a write at the same node still waits for. -/
def WritesKept (w : World σ) (act : Action) : Prop :=
  ∀ p ∈ w.puts, ∀ i, p.phase = .waitApplied i → Undisturbed w p.node i.toNat act

/-- A leader whose commit index a read captures has committed an entry of its own term, still. -/
def ReadsOwn (w : World σ) : Action → Prop
  | .stepGet k => ∀ g, w.gets[k]? = some g → g.phase = .capture →
      (w.node g.node).state = .leader → (w.node g.node).committedCurrentTermLocked = true
  | _ => True

/-- A request that is going to be forwarded has not been proposed at its own node. -/
def ForwardsFresh (S : Setup σ) (w : World σ) : Action → Prop
  | .stepPut k => ∀ p id addr, w.puts[k]? = some p → p.phase = .redirect id addr →
      (World.forwardTarget S (w.node p.node) p (World.httpAddr S (w.node p.node) id)).isSome →
      p.proposed = none
  | _ => True

/-- Delivered snapshots keep the receiver's log. -/
def KeepsLogs (w : World σ) : Action → Prop
  | .deliver k => ∀ c req resp, w.calls[k]? = some c → c.rpc = .installSnapshot req resp →
      InstallKeeps (w.node c.dst) req
  | .crashDuring act _ => KeepsLogs w act
  | _ => True

/-- The tick starts an election. -/
def Campaigns (n : RaftNode σ) (due : Bool) : Prop :=
  n.state ≠ .leader ∧ (!n.joining && n.isVoterLocked && due) = true

/-- The node is an initial member, or holds a configuration besides itself: from a snapshot,
or as a change in its log. -/
def Configured (members : AddrMap) (id : String) (n : RaftNode σ) : Prop :=
  id ∈ members.keys ∨ n.basePeers.keys ≠ [id] ∨ ∃ e ∈ n.log.tail, e.change ≠ none

/-- Nobody campaigns before it is configured. -/
def JoinersWait (members : AddrMap) (w : World σ) : Action → Prop
  | .tick id due => Campaigns (w.node id) due → Configured members id (w.node id)
  | .crashDuring act _ => JoinersWait members w act
  | _ => True

/-- A leader that changes the membership has committed an entry of its own term. -/
def ChangesLate (n : RaftNode σ) : Prop :=
  n.state = .leader → n.committedCurrentTermLocked = true

/-- Nobody campaigns before it is configured, delivered snapshots keep the receiver's log,
and membership changes wait for a commit of the leader's term. -/
def Careful (members : AddrMap) (w : World σ) : Action → Prop
  | .tick id due => Campaigns (w.node id) due → Configured members id (w.node id)
  | .deliver k => KeepsLogs w (.deliver k)
  | .addServer id _ _ _ => ChangesLate (w.node id)
  | .removeServer id _ => ChangesLate (w.node id)
  | .crashDuring act _ => Careful members w act
  | _ => True

/-! ## Runs that need no precautions -/

/-- A test: only initial members campaign. -/
def seniors (members : AddrMap) (_ : World σ) : Action → Bool
  | .tick id _ => decide (id ∈ members.keys)
  | .crashDuring _ _ => false
  | _ => true

theorem joinersWait_of_seniors {w : World σ}
    (h : seniors members w act = true) : JoinersWait members w act := by
  cases act with
  | tick id due => exact fun _ => Or.inl (of_decide_eq_true h)
  | crashDuring act saves => cases h
  | _ => trivial

/-- A test: only initial members campaign, membership changes wait for a commit of the
leader's term, no snapshot is delivered, and nothing is delivered where a client waits. -/
def plain (members : AddrMap) (w : World σ) : Action → Bool
  | .tick id _ => decide (id ∈ members.keys)
  | .deliver k => (w.calls[k]?).all (fun c =>
      (match c.rpc with
      | .installSnapshot _ _ => false
      | _ => true) && w.puts.all (fun p => decide (p.node ≠ c.dst) || !p.phase.running))
  | .addServer id _ _ _ | .removeServer id _ => (w.node id).committedCurrentTermLocked
  | .crashDuring _ _ => false
  | _ => true

theorem keepsLogs_of_plain {w : World σ}
    (h : plain members w act = true) : KeepsLogs w act := by
  cases act with
  | deliver k =>
    intro c req resp hk hc
    simp [plain, hk, hc] at h
  | crashDuring act saves => cases h
  | _ => trivial

theorem careful_of_plain {w : World σ}
    (h : plain members w act = true) : Careful members w act := by
  cases act with
  | tick id due => exact fun _ => Or.inl (of_decide_eq_true h)
  | deliver k => exact keepsLogs_of_plain h
  | addServer id target addr http => exact fun _ => h
  | removeServer id target => exact fun _ => h
  | crashDuring act saves => cases h
  | _ => trivial

theorem writesKept_of_plain {w : World σ}
    (h : plain members w act = true) : WritesKept w act := by
  intro p hp i hphase
  cases act with
  | deliver k =>
    intro c hk hdst
    simp only [plain, hk, Option.all_some, Bool.and_eq_true, List.all_eq_true] at h
    have := h.2 p hp
    simp [hdst, hphase, PutPhase.running] at this
  | _ => trivial

/-- A test: nobody changes the membership, and no snapshot is delivered. -/
def quiet (w : World σ) : Action → Bool
  | .deliver k => (w.calls[k]?).all (fun c =>
      match c.rpc with
      | .installSnapshot _ _ => false
      | _ => true)
  | .addServer _ _ _ _ | .removeServer _ _ | .crashDuring _ _ => false
  | _ => true

theorem noChange_of_quiet {w : World σ} (h : quiet w act = true) :
    NoChange w act := by
  cases act with
  | addServer id target addr http => cases h
  | removeServer id target => cases h
  | crashDuring act saves => cases h
  | _ => trivial

theorem keepsLogs_of_quiet {w : World σ} (h : quiet w act = true) :
    KeepsLogs w act := by
  cases act with
  | deliver k =>
    intro c req resp hk hc
    simp [quiet, hk, hc] at h
  | crashDuring act saves => cases h
  | _ => trivial

/-- A test: nobody changes the membership, no snapshot is delivered, and reads are captured
after a commit of the leader's term. -/
def calm (w : World σ) : Action → Bool
  | .deliver k => (w.calls[k]?).all (fun c =>
      match c.rpc with
      | .installSnapshot _ _ => false
      | _ => true)
  | .stepGet k => (w.gets[k]?).all (fun g =>
      match g.phase with
      | .capture => (w.node g.node).committedCurrentTermLocked
      | _ => true)
  | .addServer _ _ _ _ | .removeServer _ _ | .crashDuring _ _ => false
  | _ => true

theorem quiet_of_calm {w : World σ} (h : calm w act = true) :
    quiet w act = true := by
  cases act with
  | stepGet k => rfl
  | _ => exact h

theorem noChange_of_calm {w : World σ} (h : calm w act = true) : NoChange w act :=
  noChange_of_quiet (quiet_of_calm h)

theorem keepsLogs_of_calm {w : World σ} (h : calm w act = true) : KeepsLogs w act :=
  keepsLogs_of_quiet (quiet_of_calm h)

theorem readsOwn_of_calm {w : World σ} (h : calm w act = true) :
    ReadsOwn w act := by
  cases act with
  | stepGet k =>
    intro g hk hphase _
    simpa [calm, hk, hphase] using h
  | _ => trivial

/-- A test: what is redirected has not been proposed. -/
def freshlyRedirected (w : World σ) : Action → Bool
  | .stepPut k => (w.puts[k]?).all (fun p =>
      match p.phase with
      | .redirect _ _ => p.proposed.isNone
      | _ => true)
  | _ => true

theorem forwardsFresh_of_freshlyRedirected {S : Setup σ} {w : World σ}
    (h : freshlyRedirected w act = true) : ForwardsFresh S w act := by
  cases act with
  | stepPut k =>
    intro p id addr hk hphase _
    simpa [freshlyRedirected, hk, hphase] using h
  | _ => trivial

end Cluster
