import RaftStore.Raft.Read

/-!
# Constructing a node

`NewNode` with its recovery from storage, and the wiring that `cmd/main.go` and
`cluster/cluster.go` do before `Start`: the callbacks of the key-value server, the
transport and the peer hook.
-/

namespace Raft

variable {σ : Type} {n : RaftNode σ}

/-- The state machine a node is wired to: its callbacks and its state before any entry. -/
structure Machine (σ : Type) where
  init : σ
  apply : ApplyFunc σ
  snapshotter : Snapshotter σ

/-- The part of `Config` that the model reads. -/
structure Config where
  id : String
  peerAddrs : AddrMap
  snapshotThreshold : Int
  httpAddrs : AddrMap := .empty
  join : Bool := false

namespace RaftNode

/-- `NewNode` before it looks at the storage. -/
def fresh (cfg : Config) (storage : Option Storage) (snapshotter : Option (Snapshotter σ))
    (machine : σ) : RaftNode σ where
  id := cfg.id
  peerAddrs := cfg.peerAddrs
  peerHTTP := cfg.httpAddrs
  peerIDs := cfg.peerAddrs.keys
  basePeers := cfg.peerAddrs
  baseHTTP := cfg.httpAddrs
  joining := cfg.join
  peerHook := false
  hooked := none
  transport := none
  apply := none
  storage := storage
  snapshotter := snapshotter
  snapshotThreshold := cfg.snapshotThreshold
  snapshot := []
  state := .follower
  currentTerm := 0
  votedFor := ""
  log := ⟨{ term := 0, index := 0 }, []⟩
  commitIndex := 0
  lastApplied := 0
  nextIndex := fun _ => none
  matchIndex := fun _ => 0
  replicating := fun _ => false
  votesReceived := ∅
  leaderID := ""
  stopped := false
  machine := machine
  applies := []
  goroutines := []

/-- Restore the state machine; a successful restore moves both indexes up to the snapshot. -/
def restoreSnapshotLocked (n : RaftNode σ) : RaftNode σ :=
  match n.snapshotter with
  | none => n
  | some s =>
    if n.snapshot = [] then n
    else
      match s.restore n.machine n.snapshot with
      | none => n
      | some m =>
        let snapIdx := n.log.lastIncludedIndexLocked
        { n with
          machine := m
          lastApplied := if n.lastApplied < snapIdx then snapIdx else n.lastApplied
          commitIndex := if n.commitIndex < snapIdx then snapIdx else n.commitIndex }

theorem restoreSnapshot_of_nil (h : n.snapshot = []) :
    n.restoreSnapshotLocked = n := by
  unfold restoreSnapshotLocked
  split
  · rfl
  · rw [if_pos h]

/-- A restore touches the state machine and the two indexes. -/
theorem restoreSnapshot_fields (n : RaftNode σ) : ∃ x la ci,
    n.restoreSnapshotLocked = { n with machine := x, lastApplied := la, commitIndex := ci } := by
  unfold restoreSnapshotLocked
  split
  · exact ⟨_, _, _, rfl⟩
  split
  · exact ⟨_, _, _, rfl⟩
  split
  · exact ⟨_, _, _, rfl⟩
  · exact ⟨_, _, _, rfl⟩

/-- `SetSnapshotter`: install the hook, and restore what `NewNode` has loaded. -/
def setSnapshotter (n : RaftNode σ) (s : Snapshotter σ) : RaftNode σ :=
  { n with snapshotter := some s }.restoreSnapshotLocked

/-- The fields that `NewNode` takes over from a loaded state. -/
def load (n : RaftNode σ) (st : DurableState) : RaftNode σ :=
  let n :=
    { n with currentTerm := st.currentTerm, votedFor := st.votedFor, snapshot := st.snapshot }
  let n :=
    match st.log with
    | [] => n
    | head :: tail => { n with log := ⟨head, tail⟩ }
  if !st.snapshotPeers.isEmpty then
    { n with basePeers := st.snapshotPeers, baseHTTP := st.snapshotHTTP }
  else n

/-- The node with the fields of a recorded state, before anything is restored. -/
theorem load_eq {d : DurableState} {log : Log} (hlog : d.log = log.toList)
    (hpeers : d.snapshotPeers.isEmpty = false) :
    n.load d = { n with
      currentTerm := d.currentTerm, votedFor := d.votedFor, snapshot := d.snapshot, log := log
      basePeers := d.snapshotPeers, baseHTTP := d.snapshotHTTP } := by
  unfold load
  rw [hlog, hpeers]
  rfl

/-- Recovery from a loaded state. -/
def recover (n : RaftNode σ) (st : DurableState) : RaftNode σ :=
  let n := n.load st
  let n :=
    if n.snapshot ≠ [] then
      { n with
        lastApplied := n.log.lastIncludedIndexLocked
        commitIndex := n.log.lastIncludedIndexLocked }
    else n
  let n := n.restoreSnapshotLocked.rebuildMembershipLocked
  if n.peerIDs.length > 1 then { n with joining := false } else n

/-- The joining flag apart, recovery does not depend on the size of the configuration. -/
theorem exists_joining (n : RaftNode σ) : ∃ j,
    (if n.peerIDs.length > 1 then { n with joining := false } else n) =
      { n with joining := j } := by
  split
  · exact ⟨false, rfl⟩
  · exact ⟨n.joining, rfl⟩

/-- **The rule for recovery**: what was loaded, the indexes of its snapshot, the restored state
machine, the rebuilt membership, and the end of joining. -/
theorem recover_rule {P : RaftNode σ → Prop} {st : DurableState}
    (hload : P (n.load st))
    (hbase : ∀ m, P m → P { m with
      lastApplied := m.log.lastIncludedIndexLocked
      commitIndex := m.log.lastIncludedIndexLocked })
    (hrestore : ∀ m, P m → P m.restoreSnapshotLocked)
    (hrebuild : ∀ m, P m → P m.rebuildMembershipLocked)
    (hjoined : ∀ m, 1 < m.peerIDs.length → P m → P { m with joining := false }) :
    P (n.recover st) := by
  have hplaced : P (if (n.load st).snapshot ≠ [] then
      { n.load st with
        lastApplied := (n.load st).log.lastIncludedIndexLocked
        commitIndex := (n.load st).log.lastIncludedIndexLocked } else n.load st) := by
    split
    · exact hbase _ hload
    · exact hload
  have hdone (m : RaftNode σ) (hm : P m) :
      P (if m.peerIDs.length > 1 then { m with joining := false } else m) := by
    split
    · next hmany => exact hjoined m hmany hm
    · exact hm
  exact hdone _ (hrebuild _ (hrestore _ hplaced))

/-- A field that recovery does not touch, once the state is loaded. -/
theorem recover_kept {β : Type} {f : RaftNode σ → β} {st : DurableState}
    (hindexes : ∀ m x la ci, f { m with machine := x, lastApplied := la, commitIndex := ci } = f m)
    (hrebuild : ∀ m, f (rebuildMembershipLocked m) = f m)
    (hjoined : ∀ m, f { m with joining := false } = f m) : f (n.recover st) = f (n.load st) := by
  refine recover_rule (P := fun m => f m = f (n.load st)) rfl (fun m h => ?_) (fun m h => ?_)
    (fun m h => (hrebuild m).trans h) (fun m _ h => (hjoined m).trans h)
  · exact (hindexes m m.machine _ _).trans h
  · obtain ⟨x, la, ci, hx⟩ := restoreSnapshot_fields m
    rw [hx]
    exact (hindexes m x la ci).trans h

/-- The loaded state is not the zero value. -/
def hasState (st : DurableState) : Bool :=
  decide (st.currentTerm ≠ 0) || decide (st.votedFor ≠ "") || !st.log.isEmpty ||
    !st.snapshot.isEmpty || !st.snapshotPeers.isEmpty

def newNode (cfg : Config) (storage : Option Storage) (snapshotter : Option (Snapshotter σ))
    (machine : σ) : RaftNode σ :=
  let n := fresh cfg storage snapshotter machine
  match storage with
  | none => n
  | some s => if hasState s.load then n.recover s.load else n

/-- `startNode`: a new node on a fresh state machine, with the callbacks of `kv.NewServer`
(which restores the snapshot once more), a transport that knows the configured peers, and
a peer hook. -/
def boot (M : Machine σ) (cfg : Config) (storage : Option Storage) : RaftNode σ :=
  let n := newNode cfg storage (some M.snapshotter) M.init
  let n := { n with apply := some M.apply }.restoreSnapshotLocked
  { n with transport := some cfg.peerAddrs, peerHook := true }

/-- The wiring sets the hooks; the restore may move the state machine and the two indexes. -/
theorem boot_eq (M : Machine σ) (cfg : Config) (storage : Option Storage) : ∃ x la ci,
    boot M cfg storage = { newNode cfg storage (some M.snapshotter) M.init with
      apply := some M.apply, transport := some cfg.peerAddrs, peerHook := true
      machine := x, lastApplied := la, commitIndex := ci } := by
  obtain ⟨x, la, ci, hx⟩ := restoreSnapshot_fields
    { newNode cfg storage (some M.snapshotter) M.init with apply := some M.apply }
  refine ⟨x, la, ci, ?_⟩
  unfold boot
  dsimp only at hx ⊢
  rw [hx]

end RaftNode

end Raft
