import RaftStore.Refine.Receiving

/-!
# Restarting

A node that starts again from a recorded state is described by the chronicle that recorded
it (`boot_nodeRel`): it has lost its role, its commit index and its goroutines, and nothing
else that the chronicle speaks of. What it had saved last is what it comes back with, since
every change of term, vote or log ends with a save.
-/

namespace Refine

open Raft Consensus Cluster

variable {σ : Type} {X : Mode σ} {a : Chron} {id : String} {M : Machine σ} {cfg : Config}
  {storage : Option Storage} {d : DurableState} {log : Log}

/-! ## The node that `boot` makes -/

/-- The node recovered from a state `d`, up to the state machine, the applied index and the
joining flag. -/
def recovered (M : Machine σ) (cfg : Config) (storage : Option Storage) (d : DurableState)
    (log : Log) (machine : σ) (applied : Int) (joining : Bool) : RaftNode σ :=
  { RaftNode.fresh cfg storage (some M.snapshotter) machine with
    currentTerm := d.currentTerm
    votedFor := d.votedFor
    log := log
    snapshot := d.snapshot
    basePeers := d.snapshotPeers
    baseHTTP := d.snapshotHTTP
    peerAddrs := (log.tail.foldl applyEntry (d.snapshotPeers, d.snapshotHTTP)).1
    peerHTTP := (log.tail.foldl applyEntry (d.snapshotPeers, d.snapshotHTTP)).2
    peerIDs := (log.tail.foldl applyEntry (d.snapshotPeers, d.snapshotHTTP)).1.keys
    lastApplied := applied
    commitIndex := applied
    joining := joining }

/-- The same node with the wiring of `startNode`. -/
def rebooted (M : Machine σ) (cfg : Config) (storage : Option Storage) (d : DurableState)
    (log : Log) (machine : σ) (applied : Int) (joining : Bool) : RaftNode σ :=
  { recovered M cfg storage d log machine applied joining with
    apply := some M.apply, transport := some cfg.peerAddrs, peerHook := true }

/-- Once both indexes are at the snapshot, restoring it changes the state machine only. -/
theorem restoreSnapshot_of_ne {n : RaftNode σ} {s : Snapshotter σ} (hs : n.snapshotter = some s)
    (hne : n.snapshot ≠ []) (hla : n.lastApplied = n.log.lastIncludedIndexLocked)
    (hci : n.commitIndex = n.log.lastIncludedIndexLocked) :
    n.restoreSnapshotLocked =
      { n with machine := (s.restore n.machine n.snapshot).getD n.machine } := by
  unfold RaftNode.restoreSnapshotLocked
  split
  · next hnone =>
    rw [hs] at hnone
    cases hnone
  · next s' hs' =>
    obtain rfl : s' = s := Option.some.inj (hs'.symm.trans hs)
    rw [if_neg hne]
    cases s'.restore n.machine n.snapshot with
    | none => rfl
    | some m =>
      dsimp only
      rw [if_neg (by omega), if_neg (by omega)]
      rfl

/-- Where a restarted node stands: at its snapshot, if it has one. -/
def AtSnapshot (d : DurableState) (log : Log) (applied : Int) : Prop :=
  applied = if d.snapshot = [] then 0 else log.lastIncludedIndexLocked

/-- Recovery from a state with a log and a configuration. -/
theorem recover_eq (M : Machine σ) (cfg : Config) (storage : Option Storage)
    (hlog : d.log = log.toList)
    (hpeers : d.snapshotPeers.isEmpty = false) : ∃ machine applied joining,
    (RaftNode.fresh cfg storage (some M.snapshotter) M.init).recover d =
      recovered M cfg storage d log machine applied joining ∧
    AtSnapshot d log applied ∧ (d.snapshot = [] → machine = M.init) := by
  unfold RaftNode.recover
  rw [RaftNode.load_eq hlog hpeers]
  by_cases hsnap : d.snapshot = []
  · dsimp only
    rw [if_neg (not_not.mpr hsnap), RaftNode.restoreSnapshot_of_nil hsnap]
    obtain ⟨j, hj⟩ := RaftNode.exists_joining (recovered M cfg storage d log M.init 0 cfg.join)
    exact ⟨M.init, 0, j, hj, (if_pos hsnap).symm, fun _ => rfl⟩
  · dsimp only
    rw [if_pos hsnap, restoreSnapshot_of_ne rfl hsnap rfl rfl]
    obtain ⟨j, hj⟩ := RaftNode.exists_joining (recovered M cfg storage d log
      ((M.snapshotter.restore M.init d.snapshot).getD M.init) log.lastIncludedIndexLocked cfg.join)
    exact ⟨_, _, j, hj, (if_neg hsnap).symm, fun hnil => absurd hnil hsnap⟩

/-- What is known of the state machine after a restart. -/
def Restored (M : Machine σ) (d : DurableState) (machine : σ) : Prop :=
  (d.snapshot = [] → machine = M.init) ∧
    (d.snapshot ≠ [] → ∀ m, (∀ x, M.snapshotter.restore x d.snapshot = some m) → machine = m)

/-- The wiring restores the snapshot once more. -/
theorem wire_eq (M : Machine σ) (cfg : Config) (storage : Option Storage) {machine : σ}
    {applied : Int} (joining : Bool) (hat : AtSnapshot d log applied)
    (hnil : d.snapshot = [] → machine = M.init) : ∃ machine',
    ({ ({ recovered M cfg storage d log machine applied joining with
          apply := some M.apply } : RaftNode σ).restoreSnapshotLocked with
      transport := some cfg.peerAddrs, peerHook := true } : RaftNode σ) =
      rebooted M cfg storage d log machine' applied joining ∧ Restored M d machine' := by
  by_cases hsnap : d.snapshot = []
  · rw [RaftNode.restoreSnapshot_of_nil hsnap]
    exact ⟨machine, rfl, hnil, fun hne => absurd hsnap hne⟩
  · unfold AtSnapshot at hat
    rw [if_neg hsnap] at hat
    rw [restoreSnapshot_of_ne rfl hsnap hat hat]
    refine ⟨_, rfl, fun h0 => absurd h0 hsnap, fun _ m hm => ?_⟩
    show (M.snapshotter.restore machine d.snapshot).getD machine = m
    rw [hm]
    rfl

/-- **The node that `boot` makes** of the state its storage holds. -/
theorem boot_eq (M : Machine σ) (hd : Holds cfg storage d) (hlog : d.log = log.toList)
    (hpeers : d.snapshotPeers.isEmpty = false) : ∃ machine applied joining,
    RaftNode.boot M cfg storage = rebooted M cfg storage d log machine applied joining ∧
      AtSnapshot d log applied ∧ Restored M d machine := by
  obtain ⟨st, rfl, hres, hsaved⟩ := hd
  unfold RaftNode.boot RaftNode.newNode
  rcases hsaved with hhead | ⟨hnil, rfl⟩
  · have hload : st.load = d := by
      unfold Storage.load
      rw [List.headD_eq_head?_getD, hhead]
      rfl
    have hstate : RaftNode.hasState d = true := by
      unfold RaftNode.hasState
      rw [hlog]
      simp [Log.toList]
    obtain ⟨m, i, j, hrec, hat, hm⟩ := recover_eq M cfg (some st) hlog hpeers
    obtain ⟨m', hwire, hres'⟩ := wire_eq M cfg (some st) j hat hm
    refine ⟨m', i, j, ?_, hat, hres'⟩
    simp only [hload, hstate, if_true, hrec]
    exact hwire
  · -- nothing was saved: the node is a fresh one
    have hload : st.load = {} := by
      unfold Storage.load
      rw [hnil]
      rfl
    obtain rfl : log = ⟨{ term := 0, index := 0 }, []⟩ := by
      obtain ⟨head, tail⟩ := log
      cases hlog
      rfl
    refine ⟨M.init, 0, cfg.join, ?_, rfl, fun _ => rfl, fun hne => absurd rfl hne⟩
    simp only [hload]
    rfl

/-! ## The relation after a restart -/

/-- A node starts with what its snapshot covers: that much is committed, applied and replayed. -/
theorem Stored.progress_boot {b : Nat} {m : σ} {i : Int}
    (hst : Stored X a id b d.currentTerm d.votedFor log d.snapshot d.snapshotPeers) (hs : X.strict)
    (hat : AtSnapshot d log i) (hres : Restored X.setup.machine d m) :
    Progress X a id d.currentTerm log.lastIncludedIndexLocked i i [] m := by
  have hbase : log.lastIncludedIndexLocked = b := by rw [hst.log_eq]; rfl
  have hi : i = b := by
    unfold AtSnapshot at hat
    rw [hbase] at hat
    split at hat
    · next hnil =>
      have hb : b = 0 := by
        by_contra h0
        exact hst.nonempty hs (by omega) hnil
      rw [hat, hb]
      rfl
    · exact hat
  have hble := hst.base_le
  rw [hbase, hi]
  refine ⟨by omega, le_refl _, le_refl _, by omega, ?_, fun e he => absurd he List.not_mem_nil,
    fun _ hc => ?_, ?_⟩
  · rw [Int.toNat_natCast]
    exact hst.settled hs
  · rw [hst.base_zero hc]
    rfl
  · -- without a snapshot the replay is of nothing
    intro hlaw
    have hsnap := hst.snap hs hlaw
    unfold SnapOf at hsnap
    rw [Int.toNat_natCast]
    split at hsnap
    · next hnil =>
      rw [hnil]
      exact hres.1 hsnap
    · exact hres.2 hsnap.1 _ hsnap.2

/-- **A restart from a recorded state.** -/
theorem boot_nodeRel (hv : X.Valid) (hg : Good X a) (hrec : Recorded X a id d)
    (hd : Holds (X.setup.config id) storage d) :
    NodeRel X a id (RaftNode.boot X.setup.machine (X.setup.config id) storage) := by
  obtain ⟨b, log, hlog, hst⟩ := hrec
  have hpeers : d.snapshotPeers.isEmpty = false := hst.placed.isEmpty_eq_false hv.members_ne
    (fun e he => hg.sound_log id e (List.mem_of_mem_take he))
  obtain ⟨m, i, j, hboot, hat, hres⟩ := boot_eq X.setup.machine hd hlog hpeers
  have hdur : (rebooted X.setup.machine (X.setup.config id) storage d log m i j).durable = d := by
    show DurableState.mk d.currentTerm d.votedFor log.toList d.snapshot d.snapshotPeers
      d.snapshotHTTP = d
    rw [← hlog]
  rw [hboot]
  exact
    { id_eq := hv.id_eq id
      stored := ⟨b, hst⟩
      peers_eq := fst_foldl_applyEntry _ _ _
      peerIDs_eq := rfl
      apply_eq := rfl
      snapshotter_eq := rfl
      threshold_eq := rfl
      candidate := fun hc => State.noConfusion hc
      leader := fun hc => State.noConfusion hc
      voter := fun _ hc => absurd rfl hc
      progress := fun hs => hst.progress_boot hs hat hres
      threads := fun g hgr => absurd hgr (List.not_mem_nil)
      synced := by
        rw [hdur]
        exact hd }

end Refine
