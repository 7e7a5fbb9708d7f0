import RaftStore.Node.Life

/-!
# What storage holds, and what a restart makes of it

`Synced` says that storage holds what the node holds, or that nothing was saved and the node is as
it was made. It is kept by every section as long as saves succeed (`kept_synced`). `Intact` collects
what makes a recorded state complete: the membership follows from the base configuration and the
log, no configuration is empty, and a snapshot is there if something was compacted.

`recovers_newNode` describes the node that `NewNode` makes of a recorded state.
-/

namespace Node

open Raft Cluster

variable {σ : Type} {n m m' : RaftNode σ} {d : DurableState} {log : Log} {st : Storage}

/-! ## Storage and memory -/

/-- The node has the term, the vote, the log and the snapshot it was made with. -/
structure Untouched (n : RaftNode σ) : Prop where
  currentTerm_eq : n.currentTerm = 0
  votedFor_eq : n.votedFor = ""
  log_eq : n.log = ⟨{ term := 0, index := 0 }, []⟩
  snapshot_eq : n.snapshot = []

/-- Saves succeed, and storage holds nothing, or what the node holds as far as `f` shows it. -/
def Synced (f : DurableState → DurableState) (n : RaftNode σ) : Prop :=
  ∃ s, n.storage = some s ∧ false ∉ s.results ∧
    (s.saved = [] ∧ Untouched n ∨ ∃ d, s.saved.head? = some d ∧ f d = f n.durable)

theorem log_eq_of_toList {l l' : Log} (h : l.toList = l'.toList) : l = l' := by
  obtain ⟨head, tail⟩ := l
  obtain ⟨head', tail'⟩ := l'
  cases h
  rfl

theorem Untouched.of_durable (h : Untouched n) (hd : m.durable = n.durable) : Untouched m where
  currentTerm_eq := (congrArg DurableState.currentTerm hd).trans h.currentTerm_eq
  votedFor_eq := (congrArg DurableState.votedFor hd).trans h.votedFor_eq
  log_eq := (log_eq_of_toList (congrArg DurableState.log hd)).trans h.log_eq
  snapshot_eq := (congrArg DurableState.snapshot hd).trans h.snapshot_eq

/-- A save that succeeds. -/
theorem save_of_succeeds {s : Storage} (hs : false ∉ s.results) (d : DurableState) :
    (s.save d).saved.head? = some d ∧ false ∉ (s.save d).results := by
  unfold Storage.save
  split
  · next hr =>
    refine ⟨rfl, ?_⟩
    show false ∉ s.results
    exact hs
  · next rest hr =>
    refine ⟨rfl, fun hmem => hs ?_⟩
    rw [hr]
    exact List.mem_cons_of_mem _ hmem
  · next rest hr =>
    rw [hr] at hs
    exact absurd List.mem_cons_self hs

variable {f : DurableState → DurableState}

theorem Synced.step (h : Synced f m) (hst : Stores m m') : Synced f m' := by
  obtain ⟨s, hs, hres, hsaved⟩ := h
  rcases hst with ⟨hsame, hd⟩ | hsave
  · refine ⟨s, hsame.trans hs, hres, ?_⟩
    rw [hd]
    exact hsaved.imp_left (fun hnil => ⟨hnil.1, hnil.2.of_durable hd⟩)
  · rw [hs] at hsave
    obtain ⟨hhead, hres'⟩ := save_of_succeeds hres m'.durable
    exact ⟨s.save m'.durable, hsave, hres', Or.inr ⟨_, hhead, rfl⟩⟩

/-- **Every section that changes the durable state saves it.** -/
theorem kept_synced (f : DurableState → DurableState) : Kept (σ := σ) (Synced f) where
  minor := fun hstep h => h.step hstep.stores
  append := fun _ _ h => h.step (Or.inr rfl)
  change := fun _ h => h.step (Or.inr rfl)

theorem accepts_synced (n : RaftNode σ) (ev : Event) : Accepts (Synced f) n ev := by
  cases ev with
  | appendEntries req => exact fun m _ _ _ h => h.step (stores_mergeLocked m req)
  | installSnapshot req => exact fun m _ _ h => h.step (stores_installLocked m req)
  | _ => trivial

/-! ## Complete states -/

/-- A change carries the configuration it leads to. -/
def Carries (e : LogEntry) : Prop := ∀ ch, e.change = some ch → ch.peers.isEmpty = false

/-- Snapshots of the state machine are never empty. -/
def Substance (M : Machine σ) : Prop := ∀ x data, M.snapshotter.snapshot x = some data → data ≠ []

/-- The membership follows from the base configuration and the log. -/
structure Intact (M : Machine σ) (n : RaftNode σ) : Prop where
  snapshotter_eq : n.snapshotter = some M.snapshotter
  base_ne : n.basePeers.isEmpty = false
  carries : ∀ e ∈ n.log.tail, Carries e
  peers_eq : (n.peerAddrs, n.peerHTTP) = n.log.tail.foldl applyEntry (n.basePeers, n.baseHTTP)
  peerIDs_eq : n.peerIDs = n.peerAddrs.keys
  snapshot_ne : n.snapshot = [] → n.log.lastIncludedIndexLocked = 0

variable {M : Machine σ}

theorem applyEntry_isEmpty {c : AddrMap × AddrMap} {e : LogEntry} (hc : c.1.isEmpty = false)
    (he : Carries e) : (applyEntry c e).1.isEmpty = false := by
  unfold applyEntry
  cases hch : e.change with
  | none => exact hc
  | some ch =>
    have hne := he ch hch
    simp [applyChange, hne]

theorem foldl_applyEntry_isEmpty {es : List LogEntry} {c : AddrMap × AddrMap}
    (hc : c.1.isEmpty = false) (hes : ∀ e ∈ es, Carries e) :
    (es.foldl applyEntry c).1.isEmpty = false := by
  induction es generalizing c with
  | nil => exact hc
  | cons e rest ih =>
    rw [List.foldl_cons]
    refine ih (applyEntry_isEmpty hc (hes e ?_)) (fun x hx => hes x ?_)
    · exact List.mem_cons_self
    · exact List.mem_cons_of_mem _ hx

theorem foldl_applyEntry_snoc {es : List LogEntry} {c : AddrMap × AddrMap} {e : LogEntry}
    (he : e.change = none) : (es ++ [e]).foldl applyEntry c = es.foldl applyEntry c := by
  rw [List.foldl_append, List.foldl_cons, List.foldl_nil]
  unfold applyEntry
  rw [he]

theorem Intact.minor (hM : Substance M) (hstep : Minor m m') (h : Intact M m) : Intact M m' := by
  cases hstep with
  | volatile v => exact { h with }
  | ballot term vote _ => exact { h with }
  | apply e _ _ =>
    obtain ⟨_, _, heq⟩ := m.applyNext_eq (m.lastApplied + 1) e
    rw [heq]
    exact { h with }
  | compact e data s hidx he hs hdata =>
    -- the suffix of the log is kept, and the snapshot is not empty
    obtain rfl : s = M.snapshotter := Option.some.inj (hs.symm.trans h.snapshotter_eq)
    have hsub : ∀ x ∈ m.log.slice (m.log.sliceIndexLocked m.lastApplied + 1), x ∈ m.log.tail := by
      intro x hx
      have hpos : 1 ≤ (m.log.sliceIndexLocked m.lastApplied + 1).toNat := by
        unfold Log.sliceIndexLocked
        unfold Log.lastIncludedIndexLocked at hidx
        omega
      obtain ⟨k, hk⟩ : ∃ k, (m.log.sliceIndexLocked m.lastApplied + 1).toNat = k + 1 :=
        ⟨_, (Nat.succ_pred_eq_of_pos hpos).symm⟩
      unfold Log.slice at hx
      rw [hk] at hx
      exact List.mem_of_mem_drop hx
    exact
      { snapshotter_eq := h.snapshotter_eq
        base_ne := foldl_applyEntry_isEmpty h.base_ne
          (fun x hx => h.carries x (List.takeWhile_subset _ hx))
        carries := fun x hx => h.carries x (hsub x hx)
        peers_eq := rfl
        peerIDs_eq := rfl
        snapshot_ne := fun hnil => absurd hnil (hM _ _ hdata) }

theorem kept_intact (hM : Substance M) : Kept (Intact M) where
  minor := fun hstep h => h.minor hM hstep
  append := by
    intro m e hch _ h
    refine { h with carries := ?_, peers_eq := ?_ }
    · intro x hx
      rcases List.mem_append.mp hx with hold | hnew
      · exact h.carries x hold
      · rw [List.mem_singleton.mp hnew]
        intro ch hsome
        rw [hch] at hsome
        cases hsome
    · exact h.peers_eq.trans (foldl_applyEntry_snoc hch).symm
  change := by
    intro m ch c hc h
    refine { h with carries := ?_, peers_eq := rfl, peerIDs_eq := rfl }
    intro x hx
    rcases List.mem_append.mp hx with hold | hnew
    · exact h.carries x hold
    · rw [List.mem_singleton.mp hnew]
      intro ch' hsome
      cases hsome
      exact RaftNode.changedPeers_isEmpty hc h.peerIDs_eq

/-- What others send is complete: changes carry their configuration, and a snapshot has data and a
configuration. -/
def Complete : Event → Prop
  | .appendEntries req => ∀ e ∈ req.entries, Carries e
  | .installSnapshot req => req.data ≠ [] ∧ req.peers.isEmpty = false
  | _ => True

theorem Intact.merge (h : Intact M m) {req : AppendEntriesRequest}
    (hreq : ∀ e ∈ req.entries, Carries e) : Intact M (m.mergeLocked req) := by
  have hcarries : ∀ x ∈ (m.log.mergeEntries req.entries (req.prevLogIndex + 1)).1.tail,
      Carries x := by
    intro x hx
    rcases Log.mem_mergeEntries hx with hold | ⟨e, he, _, _, hch⟩
    · exact h.carries x hold
    · intro ch hsome
      rw [hch] at hsome
      exact hreq e he ch hsome
  rcases m.mergeLocked_cases req with hsame | hmerged
  · rw [hsame]
    exact h
  · rw [hmerged]
    refine { h with carries := hcarries, peers_eq := rfl, peerIDs_eq := rfl, snapshot_ne := ?_ }
    intro hnil
    show (m.log.mergeEntries _ _).1.head.index = 0
    rw [Log.head_mergeEntries]
    exact h.snapshot_ne hnil

theorem Intact.install (h : Intact M m) {req : InstallSnapshotRequest} (hdata : req.data ≠ [])
    (hpeers : req.peers.isEmpty = false) : Intact M (m.installLocked req) := by
  obtain ⟨k, ⟨_, rfl⟩ | ⟨hempty, _⟩, heq⟩ := m.installLocked_eq req
  swap
  · rw [hpeers] at hempty
    cases hempty
  rw [heq]
  exact
    { snapshotter_eq := h.snapshotter_eq
      base_ne := hpeers
      carries := fun e he => absurd he List.not_mem_nil
      peers_eq := rfl
      peerIDs_eq := rfl
      snapshot_ne := fun hnil => absurd hnil hdata }

theorem accepts_intact (n : RaftNode σ) {ev : Event} (hev : Complete ev) :
    Accepts (Intact M) n ev := by
  cases ev with
  | appendEntries req => exact fun m _ _ _ h => h.merge hev
  | installSnapshot req => exact fun m _ _ h => h.install hev.1 hev.2
  | _ => trivial

/-! ## Recovery -/

/-- A recorded state from which a node comes back as it was. -/
structure Whole (d : DurableState) (log : Log) : Prop where
  log_eq : d.log = log.toList
  base_ne : d.snapshotPeers.isEmpty = false
  carries : ∀ e ∈ log.tail, Carries e
  snapshot_ne : d.snapshot = [] → log.lastIncludedIndexLocked = 0

theorem Intact.whole (h : Intact M n) : Whole n.durable n.log where
  log_eq := rfl
  base_ne := h.base_ne
  carries := h.carries
  snapshot_ne := h.snapshot_ne

/-- The node has come back from the state `d`. -/
structure Recovers (d : DurableState) (log : Log) (n : RaftNode σ) : Prop where
  currentTerm_eq : n.currentTerm = d.currentTerm
  votedFor_eq : n.votedFor = d.votedFor
  log_eq : n.log = log
  snapshot_eq : n.snapshot = d.snapshot
  base_eq : (n.basePeers, n.baseHTTP) = (d.snapshotPeers, d.snapshotHTTP)
  peers_eq : (n.peerAddrs, n.peerHTTP) =
    log.tail.foldl applyEntry (d.snapshotPeers, d.snapshotHTTP)
  peerIDs_eq : n.peerIDs = n.peerAddrs.keys
  commitIndex_eq : n.commitIndex = log.lastIncludedIndexLocked
  lastApplied_eq : n.lastApplied = log.lastIncludedIndexLocked

/-- What recovery leaves alone. -/
def untouched (n : RaftNode σ) : String × Option Storage × State × List (Int × LogEntry) :=
  (n.id, n.storage, n.state, n.applies)

theorem untouched_recover (n : RaftNode σ) (d : DurableState) :
    untouched (n.recover d) = untouched n := by
  have hload : untouched (n.load d) = untouched n := by
    unfold RaftNode.load
    cases d.log with
    | nil => cases d.snapshotPeers.isEmpty <;> rfl
    | cons head tail => cases d.snapshotPeers.isEmpty <;> rfl
  exact (RaftNode.recover_kept (f := untouched) (fun _ _ _ _ => rfl) (fun _ => rfl)
    (fun _ => rfl)).trans hload

/-- A node starts as a follower that has applied nothing, and leaves its storage alone. -/
theorem untouched_boot (M : Machine σ) (cfg : Config) (storage : Option Storage) :
    untouched (RaftNode.boot M cfg storage) = (cfg.id, storage, .follower, []) := by
  have hnew : untouched (RaftNode.newNode cfg storage (some M.snapshotter) M.init) =
      (cfg.id, storage, .follower, []) := by
    unfold RaftNode.newNode
    cases storage with
    | none => rfl
    | some st =>
      dsimp only
      split
      · exact untouched_recover _ _
      · rfl
  obtain ⟨x, la, ci, hx⟩ := RaftNode.boot_eq M cfg storage
  rw [hx]
  exact hnew

theorem storage_boot (M : Machine σ) (cfg : Config) (storage : Option Storage) :
    (RaftNode.boot M cfg storage).storage = storage :=
  congrArg (·.2.1) (untouched_boot M cfg storage)

theorem state_boot (M : Machine σ) (cfg : Config) (storage : Option Storage) :
    (RaftNode.boot M cfg storage).state = .follower :=
  congrArg (·.2.2.1) (untouched_boot M cfg storage)

theorem applies_boot (M : Machine σ) (cfg : Config) (storage : Option Storage) :
    (RaftNode.boot M cfg storage).applies = [] :=
  congrArg (·.2.2.2) (untouched_boot M cfg storage)

/-- Once both indexes are at the snapshot, restoring it changes the state machine only. -/
theorem restoreSnapshot_eq (hla : n.lastApplied = n.log.lastIncludedIndexLocked)
    (hci : n.commitIndex = n.log.lastIncludedIndexLocked) :
    ∃ x, n.restoreSnapshotLocked = { n with machine := x } := by
  unfold RaftNode.restoreSnapshotLocked
  split
  · exact ⟨n.machine, rfl⟩
  split
  · exact ⟨n.machine, rfl⟩
  split
  · exact ⟨n.machine, rfl⟩
  · next x _ =>
    refine ⟨x, ?_⟩
    dsimp only
    rw [if_neg (by omega), if_neg (by omega)]

/-- With or without a snapshot, a restore touches the state machine and the two indexes. -/
theorem restoreLoaded_fields (n : RaftNode σ) : ∃ x la ci,
    (if n.snapshot ≠ [] then
      { n with
        lastApplied := n.log.lastIncludedIndexLocked
        commitIndex := n.log.lastIncludedIndexLocked }
    else n).restoreSnapshotLocked =
      { n with machine := x, lastApplied := la, commitIndex := ci } := by
  split
  · exact RaftNode.restoreSnapshot_fields _
  · exact RaftNode.restoreSnapshot_fields n

/-- Whatever the snapshot does to the state machine and the two indexes, recovery ends with the log
and the base configuration of the recorded state, and rebuilds the configuration from them. -/
theorem recover_fields (n : RaftNode σ) (hlog : d.log = log.toList)
    (hpeers : d.snapshotPeers.isEmpty = false) : ∃ x la ci j,
    n.recover d =
      { ({ n with
          currentTerm := d.currentTerm, votedFor := d.votedFor, snapshot := d.snapshot, log := log
          basePeers := d.snapshotPeers, baseHTTP := d.snapshotHTTP
          lastApplied := la
          commitIndex := ci
          machine := x } : RaftNode σ).rebuildMembershipLocked with joining := j } := by
  unfold RaftNode.recover
  rw [RaftNode.load_eq hlog hpeers]
  obtain ⟨x, la, ci, hx⟩ := restoreLoaded_fields { n with
    currentTerm := d.currentTerm, votedFor := d.votedFor, snapshot := d.snapshot, log := log
    basePeers := d.snapshotPeers, baseHTTP := d.snapshotHTTP }
  dsimp only at hx ⊢
  rw [hx]
  exact ⟨x, la, ci, RaftNode.exists_joining _⟩

/-- Both indexes are moved to the snapshot; without one they are there from the start. -/
theorem restoreLoaded_eq (hla : n.lastApplied = 0) (hci : n.commitIndex = 0)
    (hnil : n.snapshot = [] → n.log.lastIncludedIndexLocked = 0) : ∃ x,
    (if n.snapshot ≠ [] then
      { n with
        lastApplied := n.log.lastIncludedIndexLocked
        commitIndex := n.log.lastIncludedIndexLocked }
    else n).restoreSnapshotLocked =
      { n with
        machine := x
        lastApplied := n.log.lastIncludedIndexLocked
        commitIndex := n.log.lastIncludedIndexLocked } := by
  by_cases hsnap : n.snapshot = []
  · rw [if_neg (not_not.mpr hsnap), RaftNode.restoreSnapshot_of_nil hsnap]
    refine ⟨n.machine, ?_⟩
    rw [hnil hsnap, ← hla]
    cases n
    cases hla
    cases hci
    rfl
  · rw [if_pos hsnap]
    exact restoreSnapshot_eq rfl rfl

theorem recover_eq (n : RaftNode σ) (hd : Whole d log) (hla : n.lastApplied = 0)
    (hci : n.commitIndex = 0) : ∃ x joining,
    n.recover d =
      { ({ n with
          currentTerm := d.currentTerm, votedFor := d.votedFor, snapshot := d.snapshot, log := log
          basePeers := d.snapshotPeers, baseHTTP := d.snapshotHTTP
          lastApplied := log.lastIncludedIndexLocked
          commitIndex := log.lastIncludedIndexLocked
          machine := x } : RaftNode σ).rebuildMembershipLocked with joining := joining } := by
  obtain ⟨x, hx⟩ := restoreLoaded_eq (n := { n with
    currentTerm := d.currentTerm, votedFor := d.votedFor, snapshot := d.snapshot, log := log
    basePeers := d.snapshotPeers, baseHTTP := d.snapshotHTTP }) hla hci hd.snapshot_ne
  unfold RaftNode.recover
  rw [RaftNode.load_eq hd.log_eq hd.base_ne]
  dsimp only at hx ⊢
  rw [hx]
  exact ⟨x, RaftNode.exists_joining _⟩

/-- `NewNode` on storage that holds a state is recovery from it. -/
theorem newNode_eq (hhead : st.saved.head? = some d) (hlog : d.log = log.toList)
    (cfg : Config) (sn : Option (Snapshotter σ)) (x : σ) :
    RaftNode.newNode cfg (some st) sn x = (RaftNode.fresh cfg (some st) sn x).recover d := by
  have hload : st.load = d := by
    unfold Storage.load
    rw [List.headD_eq_head?_getD, hhead]
    rfl
  have hstate : RaftNode.hasState d = true := by
    unfold RaftNode.hasState
    rw [hlog]
    simp [Log.toList]
  unfold RaftNode.newNode
  simp only [hload, hstate, if_true]

/-- **`NewNode` on a recorded state** brings it back, whatever it is configured with. -/
theorem recovers_newNode (hhead : st.saved.head? = some d) (hd : Whole d log)
    (cfg : Config) (sn : Option (Snapshotter σ)) (x : σ) :
    Recovers d log (RaftNode.newNode cfg (some st) sn x) := by
  rw [newNode_eq hhead hd.log_eq]
  obtain ⟨x', j, heq⟩ := recover_eq (RaftNode.fresh cfg (some st) sn x) hd rfl rfl
  rw [heq]
  exact ⟨rfl, rfl, rfl, rfl, rfl, rfl, rfl, rfl, rfl⟩

theorem Recovers.durable_eq (h : Recovers d log n) (hlog : d.log = log.toList) : n.durable = d := by
  obtain ⟨hb, hh⟩ := Prod.mk.inj h.base_eq
  unfold RaftNode.durable
  rw [h.currentTerm_eq, h.votedFor_eq, h.log_eq, h.snapshot_eq, hb, hh, ← hlog]

theorem Recovers.intact (h : Recovers d log n) (hd : Whole d log)
    (hsn : n.snapshotter = some M.snapshotter) : Intact M n := by
  obtain ⟨hb, _⟩ := Prod.mk.inj h.base_eq
  refine ⟨hsn, ?_, ?_, ?_, h.peerIDs_eq, ?_⟩
  · rw [hb]
    exact hd.base_ne
  · rw [h.log_eq]
    exact hd.carries
  · rw [h.log_eq, h.base_eq]
    exact h.peers_eq
  · rw [h.log_eq, h.snapshot_eq]
    exact hd.snapshot_ne

/-- The wiring of `startNode` changes nothing that was recovered. -/
theorem boot_eq (M : Machine σ) (cfg : Config) (storage : Option Storage)
    (hla : (RaftNode.newNode cfg storage (some M.snapshotter) M.init).lastApplied =
      (RaftNode.newNode cfg storage (some M.snapshotter) M.init).log.lastIncludedIndexLocked)
    (hci : (RaftNode.newNode cfg storage (some M.snapshotter) M.init).commitIndex =
      (RaftNode.newNode cfg storage (some M.snapshotter) M.init).log.lastIncludedIndexLocked) :
    ∃ x, RaftNode.boot M cfg storage =
      { RaftNode.newNode cfg storage (some M.snapshotter) M.init with
        apply := some M.apply, transport := some cfg.peerAddrs, peerHook := true
        machine := x } := by
  obtain ⟨x, hx⟩ := restoreSnapshot_eq (n := { RaftNode.newNode cfg storage (some M.snapshotter)
    M.init with apply := some M.apply }) hla hci
  refine ⟨x, ?_⟩
  unfold RaftNode.boot
  dsimp only at hx ⊢
  rw [hx]

/-- On storage that holds nothing, `NewNode` makes a fresh node. -/
theorem newNode_of_nil (hnil : st.saved = []) (cfg : Config)
    (sn : Option (Snapshotter σ)) (x : σ) :
    RaftNode.newNode cfg (some st) sn x = RaftNode.fresh cfg (some st) sn x := by
  have hload : st.load = {} := by
    unfold Storage.load
    rw [hnil]
    rfl
  unfold RaftNode.newNode
  simp only [hload]
  rfl

/-! ## Along the life of a node -/

/-- The node is complete and in storage, and so is every state that was saved. -/
structure Sturdy (M : Machine σ) (n : RaftNode σ) : Prop where
  synced : Synced id n
  intact : Intact M n
  saved : ∀ s, n.storage = some s → ∀ d ∈ s.saved, ∃ log, Whole d log

/-- Whatever a complete node saves is whole. -/
theorem Intact.saves (hM : Substance M) (h : Intact M n) {ev : Event} (hev : Complete ev) :
    Saved (fun d => ∃ log, Whole d log) n (Cluster.handle n ev) :=
  (kept_intact hM).saved (fun m hm => ⟨m.log, hm.whole⟩) (accepts_intact n hev) h

theorem Sturdy.handle (hM : Substance M) (h : Sturdy M n) {ev : Event} (hev : Complete ev) :
    Sturdy M (handle n ev) where
  synced := (kept_synced id).handle (accepts_synced n ev) h.synced
  intact := (kept_intact hM).handle (accepts_intact n hev) h.intact
  saved := (h.intact.saves hM hev).all h.saved

/-- **A start** from storage in which every state is whole. -/
theorem sturdy_boot {cfg : Config}
    (hcfg : st.saved = [] → cfg.peerAddrs.isEmpty = false) (hres : false ∉ st.results)
    (hsaved : ∀ d ∈ st.saved, ∃ log, Whole d log) :
    Sturdy M (RaftNode.boot M cfg (some st)) := by
  cases hst : st.saved with
  | nil =>
    have hnew := newNode_of_nil hst cfg (some M.snapshotter) M.init
    obtain ⟨x, hboot⟩ := boot_eq M cfg (some st) (by rw [hnew]; rfl) (by rw [hnew]; rfl)
    rw [hboot, hnew]
    refine ⟨⟨st, rfl, hres, Or.inl ⟨hst, rfl, rfl, rfl, rfl⟩⟩, ?_, ?_⟩
    · exact ⟨rfl, hcfg hst, fun e he => absurd he List.not_mem_nil, rfl, rfl, fun _ => rfl⟩
    · intro s hs d hd
      cases hs
      exact hsaved d hd
  | cons d rest =>
    obtain ⟨log, hd⟩ := hsaved d (by rw [hst]; exact List.mem_cons_self)
    have hhead : st.saved.head? = some d := by rw [hst]; rfl
    have hrec := recovers_newNode hhead hd cfg (some M.snapshotter) M.init
    obtain ⟨x, hboot⟩ := boot_eq M cfg (some st)
      (by rw [hrec.lastApplied_eq, hrec.log_eq]) (by rw [hrec.commitIndex_eq, hrec.log_eq])
    obtain ⟨x', j, hnew⟩ := recover_eq (RaftNode.fresh cfg (some st) (some M.snapshotter) M.init)
      hd rfl rfl
    rw [newNode_eq hhead hd.log_eq] at hrec hboot
    have hstorage : (RaftNode.boot M cfg (some st)).storage = some st := by rw [hboot, hnew]; rfl
    have hsn : (RaftNode.boot M cfg (some st)).snapshotter = some M.snapshotter := by
      rw [hboot, hnew]
      rfl
    have hrec' : Recovers d log (RaftNode.boot M cfg (some st)) := by
      rw [hboot]
      exact { hrec with }
    refine ⟨⟨st, hstorage, hres, Or.inr ⟨d, hhead, ?_⟩⟩, hrec'.intact hd hsn, ?_⟩
    · rw [hrec'.durable_eq hd.log_eq]
    · intro s hs d' hd'
      rw [hstorage] at hs
      cases hs
      exact hsaved d' hd'

/-- A node that has saved nothing is not started with an empty configuration. -/
def Configures (n : RaftNode σ) (cfg : Config) : Prop :=
  ∀ s, n.storage = some s → s.saved = [] → cfg.peerAddrs.isEmpty = false

/-- What others send is complete, and no configuration is empty. -/
def Wholesome (n : RaftNode σ) : Life → Prop
  | .event ev => Complete ev
  | .restart cfg => Configures n cfg
  | .crashDuring ev _ cfg => Complete ev ∧ Configures n cfg

/-- **One step.** -/
theorem Sturdy.live (hM : Substance M) (h : Sturdy M n) {l : Life} (hok : Wholesome n l) :
    Sturdy M (live M n l) := by
  obtain ⟨s, hs, hres, _⟩ := h.synced
  cases l with
  | event ev => exact h.handle hM hok
  | restart cfg =>
    show Sturdy M (RaftNode.boot M cfg n.storage)
    rw [hs]
    exact sturdy_boot (hok s hs) hres (h.saved s hs)
  | crashDuring ev saves cfg =>
    have h' := h.handle hM hok.1
    obtain ⟨s', hs', hres', _⟩ := h'.synced
    have hsaves := h.intact.saves hM hok.1
    have hall := hsaves.all_cut h.saved saves
    obtain ⟨t, new, ht, hcut, _⟩ := hsaves.cut hs' saves
    show Sturdy M (RaftNode.boot M cfg (World.cutSaves _ _ _))
    rw [hcut] at hall ⊢
    exact sturdy_boot (fun hnil => hok.2 t ht (List.append_eq_nil_iff.mp hnil).2) hres' (hall _ rfl)

/-- **A run.** -/
theorem sturdy_of_lives (hM : Substance M) {cfg : Config} (hcfg : cfg.peerAddrs.isEmpty = false)
    (hnil : st.saved = []) (hres : false ∉ st.results) {ls : List Life}
    (hrun : Lives M Wholesome (RaftNode.boot M cfg (some st)) ls n) : Sturdy M n := by
  refine hrun.invariant (fun m l h hok => h.live hM hok) (sturdy_boot (fun _ => hcfg) hres ?_)
  intro d hd
  rw [hnil] at hd
  cases hd

end Node
