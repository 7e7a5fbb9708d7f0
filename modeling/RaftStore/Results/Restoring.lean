import RaftStore.Refine.Scheme
import RaftStore.Results.Reads

/-!
# Snapshots that cannot be restored

`HandleInstallSnapshot` and `NewNode` move `lastApplied` to the index of a snapshot whether or not
the state machine takes it; a failed `Restore` is only logged. The state machine then lacks what the
snapshot stands for, and nothing will apply it any more (`refused_restore_claims`).

* `refused_restore_consistent`: the node stays as it was exactly when the snapshot is not installed
  at all, that is, when the request is stale or reaches no further than the node's own snapshot; a
  second restore by `SetSnapshotter` is harmless; a load is harmless exactly when the snapshot
  covers no put (`replay_eq_empty_iff`).
-/

namespace Raft

open RaftNode Refine Cluster

variable {σ : Type} {M : Machine σ} {n : RaftNode σ} {h : List LogEntry} {st : DurableState}

/-! ## What a failed restore should leave -/

/-- The state machine has exactly the entries up to `lastApplied` of the history. -/
def UpToDate (M : Machine σ) (h : List LogEntry) (n : RaftNode σ) : Prop :=
  n.machine = replay M (h.take n.lastApplied.toNat)

instance [DecidableEq σ] (n : RaftNode σ) : Decidable (UpToDate M h n) :=
  inferInstanceAs (Decidable (n.machine = _))

/-- The node has not taken over anything of a snapshot. -/
structure Unclaimed (M : Machine σ) (h : List LogEntry) (n n' : RaftNode σ) : Prop where
  log_eq : n'.log = n.log
  snapshot_eq : n'.snapshot = n.snapshot
  basePeers_eq : n'.basePeers = n.basePeers
  commitIndex_eq : n'.commitIndex = n.commitIndex
  lastApplied_eq : n'.lastApplied = n.lastApplied
  upToDate : UpToDate M h n → UpToDate M h n'

theorem Unclaimed.refl (M : Machine σ) (h : List LogEntry) (n : RaftNode σ) : Unclaimed M h n n :=
  ⟨rfl, rfl, rfl, rfl, rfl, id⟩

theorem unclaimed_hearLeader (term : Int) (leaderID : String) :
    Unclaimed M h n (n.hearLeader term leaderID) := by
  obtain ⟨_, _, _, _, heq⟩ := n.hearLeader_eq term leaderID
  rw [heq]
  exact ⟨rfl, rfl, rfl, rfl, rfl, id⟩

/-- A snapshot that is installed is claimed: the log begins at another index. -/
theorem not_unclaimed_install {req : InstallSnapshotRequest} {n' : RaftNode σ}
    (hidx : n.log.lastIncludedIndexLocked < req.lastIncludedIndex) :
    ¬ Unclaimed M h n (n'.installLocked req) := by
  intro hu
  have hhead := congrArg Log.lastIncludedIndexLocked hu.log_eq
  rw [(installed n' req).log_eq] at hhead
  exact absurd hhead (ne_of_gt hidx)

/-- **An installation changes nothing exactly when it is refused.** -/
theorem unclaimed_iff (req : InstallSnapshotRequest) :
    Unclaimed M h n (n.handleInstallSnapshot req).1 ↔
      req.term < n.currentTerm ∨ req.lastIncludedIndex ≤ n.log.lastIncludedIndexLocked := by
  -- an old term, an old snapshot, or an installation
  rcases n.handleInstallSnapshot_cases req with ⟨hterm, heq⟩ | ⟨_, hidx, heq⟩ | ⟨hterm, hidx, heq⟩
  · rw [heq]
    exact ⟨fun _ => Or.inl hterm, fun _ => .refl M h n⟩
  · rw [heq]
    exact ⟨fun _ => Or.inr hidx, fun _ => unclaimed_hearLeader _ _⟩
  · rw [heq]
    constructor
    · intro hu
      exact absurd hu (not_unclaimed_install hidx)
    · rintro (hlt | hle)
      · exact absurd hlt (not_lt.mpr hterm)
      · exact absurd hidx (not_lt.mpr hle)

/-! ## Loading -/

theorem restoreSnapshot_of_refused {s : Snapshotter σ} (hs : n.snapshotter = some s)
    (hfail : s.restore n.machine n.snapshot = none) : n.restoreSnapshotLocked = n := by
  unfold restoreSnapshotLocked
  simp [hs, hfail]

theorem setSnapshotter_of_refused (hfail : M.snapshotter.restore n.machine n.snapshot = none) :
    n.setSnapshotter M.snapshotter = { n with snapshotter := some M.snapshotter } :=
  restoreSnapshot_of_refused (n := { n with snapshotter := some M.snapshotter }) rfl hfail

/-- The index of a stored snapshot: 0 where no log is stored. -/
def DurableState.snapshotIndex (st : DurableState) : Int := (st.log.head?.map (·.index)).getD 0

/-- The fields of a loaded node that its state machine is compared with. -/
structure Loaded (n : RaftNode σ) (st : DurableState) (n' : RaftNode σ) : Prop where
  machine_eq : n'.machine = n.machine
  snapshotter_eq : n'.snapshotter = n.snapshotter
  snapshot_eq : n'.snapshot = st.snapshot
  head_eq : n'.log.lastIncludedIndexLocked = st.snapshotIndex

theorem loaded_load (hn : n.log.head.index = 0) : Loaded n st (n.load st) := by
  cases hlog : st.log with
  | nil =>
    have hidx : n.log.head.index = st.snapshotIndex := by
      simp [DurableState.snapshotIndex, hlog, hn]
    unfold load
    simp only [hlog]
    split
    · exact ⟨rfl, rfl, rfl, hidx⟩
    · exact ⟨rfl, rfl, rfl, hidx⟩
  | cons head tail =>
    have hidx : head.index = st.snapshotIndex := by simp [DurableState.snapshotIndex, hlog]
    unfold load
    simp only [hlog]
    split
    · exact ⟨rfl, rfl, rfl, hidx⟩
    · exact ⟨rfl, rfl, rfl, hidx⟩

/-- Recovery with a snapshot that is not restored, for want of a hook or by an error. -/
theorem recover_refused (hn : n.log.head.index = 0) (hsnap : st.snapshot ≠ [])
    (hfail : ∀ s, n.snapshotter = some s → s.restore n.machine st.snapshot = none) :
    (n.recover st).machine = n.machine ∧ (n.recover st).lastApplied = st.snapshotIndex ∧
      (n.recover st).snapshot = st.snapshot := by
  have hl : Loaded n st (n.load st) := loaded_load hn
  generalize hk : n.load st = k at hl
  -- the restore does nothing to the node whose indexes have been moved already
  have hsame : ({ k with
      lastApplied := k.log.lastIncludedIndexLocked
      commitIndex := k.log.lastIncludedIndexLocked } : RaftNode σ).restoreSnapshotLocked =
      { k with
        lastApplied := k.log.lastIncludedIndexLocked
        commitIndex := k.log.lastIncludedIndexLocked } := by
    cases hs : n.snapshotter with
    | none =>
      unfold restoreSnapshotLocked
      simp [hl.snapshotter_eq, hs]
    | some s =>
      refine restoreSnapshot_of_refused (hl.snapshotter_eq.trans hs) ?_
      show s.restore k.machine k.snapshot = none
      rw [hl.machine_eq, hl.snapshot_eq]
      exact hfail s hs
  have hne : k.snapshot ≠ [] := hl.snapshot_eq ▸ hsnap
  unfold recover
  dsimp only
  -- the machine is the one it had, the index is the snapshot's
  rw [hk, if_pos hne, hsame]
  split
  · exact ⟨hl.machine_eq, hl.head_eq, hl.snapshot_eq⟩
  · exact ⟨hl.machine_eq, hl.head_eq, hl.snapshot_eq⟩

theorem newNode_refused {storage : Storage} (cfg : Config) {sn : Option (Snapshotter σ)} {x : σ}
    (hsnap : storage.load.snapshot ≠ [])
    (hfail : ∀ s, sn = some s → s.restore x storage.load.snapshot = none) :
    (newNode cfg (some storage) sn x).machine = x ∧
      (newNode cfg (some storage) sn x).lastApplied = storage.load.snapshotIndex ∧
      (newNode cfg (some storage) sn x).snapshot = storage.load.snapshot := by
  have hstate : hasState storage.load = true := by
    unfold hasState
    simp [hsnap]
  unfold newNode
  dsimp only
  rw [if_pos hstate]
  exact recover_refused (n := fresh cfg (some storage) sn x) rfl hsnap hfail

/-- What was loaded is consistent exactly if nothing is missing: the entries that the snapshot
stands for leave the state machine as it is at the start. -/
theorem upToDate_newNode_iff {storage : Storage} (cfg : Config) {sn : Option (Snapshotter σ)}
    (hsn : sn = none ∨ sn = some M.snapshotter) (hsnap : storage.load.snapshot ≠ [])
    (hfail : M.snapshotter.restore M.init storage.load.snapshot = none) :
    (UpToDate M h (newNode cfg (some storage) sn M.init) ↔
      replay M (h.take storage.load.snapshotIndex.toNat) = M.init) ∧
    (UpToDate M h ((newNode cfg (some storage) sn M.init).setSnapshotter M.snapshotter) ↔
      replay M (h.take storage.load.snapshotIndex.toNat) = M.init) := by
  have hrefused : ∀ s, sn = some s → s.restore M.init storage.load.snapshot = none := by
    rintro s rfl
    -- no snapshotter yet, or the machine's own
    rcases hsn with hnone | hsome
    · cases hnone
    · obtain rfl := Option.some.inj hsome
      exact hfail
  obtain ⟨hmachine, hla, hsnapshot⟩ := newNode_refused cfg hsnap hrefused
  have hnew : UpToDate M h (newNode cfg (some storage) sn M.init) ↔
      replay M (h.take storage.load.snapshotIndex.toNat) = M.init := by
    unfold UpToDate
    rw [hmachine, hla]
    exact eq_comm
  refine ⟨hnew, ?_⟩
  rw [setSnapshotter_of_refused (by rw [hmachine, hsnapshot]; exact hfail)]
  exact hnew

/-- The entry is a put that `onApply` carries out. -/
def IsPut (J : Kv.Json) (e : LogEntry) : Prop :=
  e.change = none ∧ e.command ≠ [] ∧
    ∃ cmd, J.unmarshalCommand e.command = some cmd ∧ cmd.op = Kv.opPut

/-- A put leaves something in the store. Nothing else changes it. -/
theorem replay_kv_snoc (J : Kv.Json) (es : List LogEntry) (e : LogEntry) :
    (IsPut J e → replay (Kv.machine J) (es ++ [e]) ≠ .empty) ∧
      (¬ IsPut J e → replay (Kv.machine J) (es ++ [e]) = replay (Kv.machine J) es) := by
  rw [replay_snoc]
  unfold IsPut
  -- an entry that changes the configuration puts nothing
  cases hch : e.change with
  | some ch => exact ⟨fun hput => absurd hput.1 (by simp), fun _ => rfl⟩
  | none =>
    dsimp only
    rw [show (Kv.machine J).apply = Kv.onApply J from rfl]
    unfold Kv.onApply
    dsimp only
    split
    -- an empty command, one that is no command, a Put, and another operation
    · next hnil => exact ⟨fun hput => absurd hnil hput.2.1, fun _ => rfl⟩
    next hne =>
    split
    · next hnone =>
      refine ⟨fun ⟨_, _, cmd, hcmd, _⟩ => ?_, fun _ => rfl⟩
      rw [hnone] at hcmd
      cases hcmd
    next cmd hcmd =>
    split
    · next hop =>
      refine ⟨fun _ hempty => ?_, fun hno => absurd ⟨rfl, hne, cmd, hcmd, hop⟩ hno⟩
      have hget := congrArg (OrdMap.get? · cmd.key) hempty
      simp only [OrdMap.get?_set, if_true] at hget
      cases hget
    · next hop =>
      refine ⟨fun ⟨_, _, cmd', hcmd', hop'⟩ => ?_, fun _ => rfl⟩
      rw [hcmd, Option.some.injEq] at hcmd'
      exact absurd (hcmd' ▸ hop') hop

/-- **The store of a history is empty exactly if there is no put in it.** -/
theorem replay_eq_empty_iff (J : Kv.Json) (es : List LogEntry) :
    replay (Kv.machine J) es = .empty ↔ ∀ e ∈ es, ¬ IsPut J e := by
  induction es using List.reverseRecOn with
  | nil => simp [replay, Kv.machine]
  | append_singleton es e ih =>
    obtain ⟨hput, hother⟩ := replay_kv_snoc J es e
    by_cases he : IsPut J e
    · exact ⟨fun hempty => absurd hempty (hput he), fun hno => absurd he (hno e (by simp))⟩
    · rw [hother he, ih]
      simp only [List.mem_append, List.mem_singleton]
      constructor
      · rintro hold x (hx | rfl)
        · exact hold x hx
        · exact he
      · exact fun hall x hx => hall x (Or.inl hx)

/-! ## The result -/

/-- **A snapshot that cannot be restored leaves the node consistent** exactly where it is not
installed, where the hook is set a second time, and where what the key-value server loads covers no
put. -/
theorem refused_restore_consistent (M : Machine σ) (h : List LogEntry) :
    (∀ (n : RaftNode σ) req, Unclaimed M h n (n.handleInstallSnapshot req).1 ↔
      req.term < n.currentTerm ∨ req.lastIncludedIndex ≤ n.log.lastIncludedIndexLocked) ∧
    (∀ n : RaftNode σ, M.snapshotter.restore n.machine n.snapshot = none →
      Unclaimed M h n (n.setSnapshotter M.snapshotter)) ∧
    ∀ (J : Kv.Json) cfg (storage : Storage) sn, sn = none ∨ sn = some (Kv.machine J).snapshotter →
      storage.load.snapshot ≠ [] → Kv.restore J .empty storage.load.snapshot = none →
      (UpToDate (Kv.machine J) h (newNode cfg (some storage) sn .empty) ↔
        ∀ e ∈ h.take storage.load.snapshotIndex.toNat, ¬ IsPut J e) ∧
      (UpToDate (Kv.machine J) h ((newNode cfg (some storage) sn .empty).setSnapshotter
          (Kv.machine J).snapshotter) ↔
        ∀ e ∈ h.take storage.load.snapshotIndex.toNat, ¬ IsPut J e) := by
  refine ⟨fun n req => unclaimed_iff req, fun n hfail => ?_, ?_⟩
  · rw [setSnapshotter_of_refused hfail]
    exact ⟨rfl, rfl, rfl, rfl, rfl, id⟩
  · intro J cfg storage sn hsn hsnap hfail
    rw [← replay_eq_empty_iff]
    exact upToDate_newNode_iff (M := Kv.machine J) cfg hsn hsnap hfail

/-! The text `x` is not a JSON object. A request with it is refused for its index, and a snapshot of
the no-op of a new leader is stored with it. -/

def badText : Bytes := [0x78]

def badStorage : Storage :=
  { saved := [{ currentTerm := 1, log := [{ term := 1, index := 1 }], snapshot := badText }] }

def badRequest (i : Int) : InstallSnapshotRequest :=
  { term := 1, leaderID := "n2", lastIncludedIndex := i, lastIncludedTerm := 1, data := badText,
    peers := .empty, http := .empty }

def calmNode : RaftNode Kv.Store := boot kvSample.machine (kvSample.config "n1") (some {})

theorem refused_restore_consistent_sample :
    Unclaimed kvSample.machine [] calmNode (calmNode.handleInstallSnapshot (badRequest 0)).1 ∧
      UpToDate kvSample.machine [{ term := 1, index := 1 }]
        ((newNode (kvSample.config "n1") (some badStorage) none .empty).setSnapshotter
          kvSample.machine.snapshotter) := by
  refine ⟨?_, ?_⟩
  · refine ((refused_restore_consistent kvSample.machine []).1 calmNode (badRequest 0)).mpr ?_
    decide +kernel
  · refine ((refused_restore_consistent kvSample.machine _).2.2 sampleJson (kvSample.config "n1")
      badStorage none (Or.inl rfl) ?_ ?_).2.mpr ?_
    · decide
    · decide +kernel
    · intro e he hput
      obtain rfl : e = { term := 1, index := 1 } := by simpa using List.mem_of_mem_take he
      exact hput.2.1 rfl

/-! ## The divergence -/

/-- One put. -/
def onePut : List LogEntry := [{ term := 1, index := 1, command := putText }]

/-- **The index of a snapshot is claimed although the restore fails**, both by an installation and
by a load: the node has applied a put, it says, that its store does not have. -/
theorem refused_restore_claims :
    (¬ ∀ (n : RaftNode Kv.Store) req h, n.snapshotter = some kvSample.machine.snapshotter →
      req.data ≠ [] → kvSample.machine.snapshotter.restore n.machine req.data = none →
      Unclaimed kvSample.machine h n (n.handleInstallSnapshot req).1) ∧
    (∃ req, req.data ≠ [] ∧
      kvSample.machine.snapshotter.restore calmNode.machine req.data = none ∧
      UpToDate kvSample.machine onePut calmNode ∧
      ¬ UpToDate kvSample.machine onePut (calmNode.handleInstallSnapshot req).1) ∧
    ¬ ∀ cfg (storage : Storage) h, storage.load.snapshot ≠ [] →
      kvSample.machine.snapshotter.restore kvSample.machine.init storage.load.snapshot = none →
      UpToDate kvSample.machine h (boot kvSample.machine cfg (some storage)) := by
  refine ⟨fun hall => ?_, ⟨badRequest 1, ?_, ?_, ?_, ?_⟩, fun hall => ?_⟩
  -- the installation moves `lastApplied`
  · have hu := hall calmNode (badRequest 1) [] rfl (by decide) (by decide +kernel)
    exact absurd hu.lastApplied_eq (by decide +kernel)
  · decide
  · decide +kernel
  · exact of_decide_eq_true (by decide +kernel)
  · exact of_decide_eq_true (by decide +kernel)
  -- and so does the recovery
  · have hup := hall (kvSample.config "n1") badStorage onePut (by decide) (by decide +kernel)
    exact absurd hup (by decide +kernel)

end Raft
