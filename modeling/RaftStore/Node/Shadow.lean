import RaftStore.Raft.Compaction
import RaftStore.Node.Stop

/-!
# Two copies of one node, only one of which compacts

`Shadows n m`: the node `n` takes snapshots and the node `m` does not, and apart from that they are
in the same state. The fields that are bound to differ are the `Hidden` ones; the log of `n` is a
`Compacted` copy of the log of `m`, and the base configuration of `n` is what the entries it has
dropped lead to.

* `Aligned` is the part that holds in the middle of a section, `Mirrors` adds that the
  configuration is the one of the log, and `Settled` that no snapshot is due;
* every function of a section keeps `Shadows`, from `Shadows.becomeFollower` to
  `Shadows.proposeChange`; the only place where the two do different things is
  `Mirrors.maybeCompact`.
-/

namespace Node

open Raft Cluster RaftNode

variable {σ : Type} {n m n' m' : RaftNode σ} {l c : Log}

/-! ## The relation -/

/-- The fields in which the two copies may differ. -/
structure Hidden where
  basePeers : AddrMap
  baseHTTP : AddrMap
  hooked : Option (AddrMap × AddrMap)
  transport : Option AddrMap
  storage : Option Storage
  snapshotThreshold : Int
  snapshot : Bytes
  log : Log
  nextIndex : String → Option Int
  replicating : String → Bool
  goroutines : List Goroutine

/-- The node with other hidden fields. -/
def withHidden (n : RaftNode σ) (d : Hidden) : RaftNode σ :=
  { n with
    basePeers := d.basePeers
    baseHTTP := d.baseHTTP
    hooked := d.hooked
    transport := d.transport
    storage := d.storage
    snapshotThreshold := d.snapshotThreshold
    snapshot := d.snapshot
    log := d.log
    nextIndex := d.nextIndex
    replicating := d.replicating
    goroutines := d.goroutines }

/-- How many entries of the log of `m` the node `n` has dropped. -/
def dropped (n m : RaftNode σ) : Nat := (n.log.head.index - m.log.head.index).toNat

/-- The two copies in the middle of a section. -/
structure Aligned (n m : RaftNode σ) : Prop where
  same : ∃ d, m = withHidden n d
  tracked : ∀ p, (n.nextIndex p).isSome = (m.nextIndex p).isSome
  contiguous : m.log.Contiguous
  compacted : m.log.Compacted n.log
  base_eq : (n.basePeers, n.baseHTTP) =
    (m.log.tail.take (dropped n m)).foldl applyEntry (m.basePeers, m.baseHTTP)
  base_le_applied : n.log.head.index ≤ n.lastApplied
  base_le_commit : n.log.head.index ≤ n.commitIndex
  threshold_pos : 0 < n.snapshotThreshold
  never : m.snapshotThreshold ≤ 0

/-- The configuration is that of the log. -/
structure Mirrors (n m : RaftNode σ) : Prop extends Aligned n m where
  peers_eq : (n.peerAddrs, n.peerHTTP) =
    m.log.tail.foldl applyEntry (m.basePeers, m.baseHTTP)
  peerIDs_eq : n.peerIDs = n.peerAddrs.keys

/-- No snapshot is due: too little was applied since the last one, or the state machine refuses. -/
def Settled (n : RaftNode σ) : Prop :=
  n.lastApplied - n.log.head.index < n.snapshotThreshold ∨
    ∀ s, n.snapshotter = some s → s.snapshot n.machine = none

/-- **The two copies between sections.** -/
structure Shadows (n m : RaftNode σ) : Prop extends Mirrors n m where
  settled : Settled n

/-- The same answer, and the two copies again. -/
def Alike {ρ : Type} (x y : RaftNode σ × ρ) : Prop := Shadows x.1 y.1 ∧ y.2 = x.2

/-- Both take the same branch. -/
theorem rel_ite {α β : Type} {R : α → β → Prop} {p q : Prop} [Decidable p] [Decidable q]
    {a a' : α} {b b' : β} (hpq : q ↔ p) (hpos : p → R a b) (hneg : ¬ p → R a' b') :
    R (if p then a else a') (if q then b else b') := by
  by_cases hp : p
  · rw [if_pos hp, if_pos (hpq.mpr hp)]
    exact hpos hp
  · rw [if_neg hp, if_neg (fun hq => hp (hpq.mp hq))]
    exact hneg hp

/-! ## What the two have in common -/

theorem Aligned.lastLogIndex_eq (h : Aligned n m) :
    m.log.lastLogIndexLocked = n.log.lastLogIndexLocked :=
  (h.compacted.lastLogIndex_eq h.contiguous).symm

theorem Aligned.lastLogTerm_eq (h : Aligned n m) :
    m.log.lastLogTermLocked = n.log.lastLogTermLocked :=
  (h.compacted.lastLogTerm_eq h.contiguous).symm

theorem Aligned.currentTerm_eq (h : Aligned n m) : m.currentTerm = n.currentTerm := by
  obtain ⟨d, rfl⟩ := h.same
  rfl

theorem Aligned.state_eq (h : Aligned n m) : m.state = n.state := by
  obtain ⟨d, rfl⟩ := h.same
  rfl

theorem Aligned.head_le_last (h : Aligned n m) :
    n.log.head.index ≤ n.log.lastLogIndexLocked := by
  rw [Log.lastLogIndex_of_contiguous (h.compacted.contiguous h.contiguous)]
  omega

/-- The entries that `n` retains are those behind the dropped ones. -/
theorem Aligned.tail_eq (h : Aligned n m) : n.log.tail = m.log.tail.drop (dropped n m) := by
  have hdrop := h.compacted.drop_eq (le_refl _)
  rw [Int.sub_self, Int.toNat_zero, List.drop_zero] at hdrop
  exact hdrop

/-- What was dropped is a part of the other log. -/
theorem Aligned.dropped_le (h : Aligned n m) : dropped n m ≤ m.log.tail.length := by
  have hlen := h.compacted.length_eq
  have hle := h.compacted.head_le
  unfold dropped
  omega

/-- Both logs lead to the same configuration. -/
theorem Aligned.fold_eq (h : Aligned n m) :
    n.log.tail.foldl applyEntry (n.basePeers, n.baseHTTP) =
      m.log.tail.foldl applyEntry (m.basePeers, m.baseHTTP) := by
  rw [h.base_eq, h.tail_eq, ← List.foldl_append, List.take_append_drop]

/-! ## Updates -/

/-- Only what concerns the node's surroundings has changed. -/
def Outward (n n' : RaftNode σ) : Prop :=
  ∃ hooked transport storage snapshot replicating goroutines,
    n' = { n with
      hooked := hooked
      transport := transport
      storage := storage
      snapshot := snapshot
      replicating := replicating
      goroutines := goroutines }

theorem outward_rfl : Outward n n := ⟨_, _, _, _, _, _, rfl⟩

theorem outward_persist : Outward n n.persistLocked := ⟨_, _, _, _, _, _, rfl⟩

theorem outward_notify : Outward n n.notifyPeersLocked := ⟨_, _, _, _, _, _, rfl⟩

theorem outward_again (peer : String) (more : Bool) : Outward n (n.replicateAgain peer more) :=
  ⟨_, _, _, _, _, _, rfl⟩

theorem outward_broadcast : Outward n n.broadcastAppendEntriesLocked := by
  obtain ⟨r, g, heq⟩ := n.broadcast_eq
  rw [heq]
  exact ⟨_, _, _, _, _, _, rfl⟩

/-- New goroutines are outward. -/
theorem outward_spawn (g : String → Goroutine) (peers : List String) :
    Outward n (peers.foldl (fun n' peer => n'.spawn (g peer)) n) := by
  refine List.foldlRecOn (motive := Outward n) peers _ outward_rfl ?_
  rintro _ ⟨_, _, _, _, _, _, rfl⟩ peer _
  exact ⟨_, _, _, _, _, _, rfl⟩

theorem Outward.trans (h : Outward n m) (h' : Outward m n') : Outward n n' := by
  obtain ⟨_, _, _, _, _, _, rfl⟩ := h
  obtain ⟨_, _, _, _, _, _, rfl⟩ := h'
  exact ⟨_, _, _, _, _, _, rfl⟩

/-- Outward changes keep the copies alike. -/
theorem Mirrors.outward (h : Mirrors n m) (hn : Outward n n') (hm : Outward m m') :
    Mirrors n' m' := by
  obtain ⟨d, hd⟩ := h.same
  obtain ⟨_, _, _, _, _, _, rfl⟩ := hn
  obtain ⟨hooked, transport, storage, snapshot, replicating, goroutines, rfl⟩ := hm
  refine { h with
    same := ⟨{ d with
      hooked := hooked, transport := transport, storage := storage, snapshot := snapshot
      replicating := replicating, goroutines := goroutines }, ?_⟩ }
  rw [hd]
  rfl

/-- So also where the copies are at rest. -/
theorem Shadows.outward (h : Shadows n m) (hn : Outward n n') (hm : Outward m m') :
    Shadows n' m' := by
  refine ⟨h.toMirrors.outward hn hm, ?_⟩
  obtain ⟨_, _, _, _, _, _, rfl⟩ := hn
  exact h.settled

/-- Another commit index, not below the dummy. -/
theorem Shadows.commit (h : Shadows n m) {i : Int} (hi : n.log.head.index ≤ i) :
    Shadows { n with commitIndex := i } { m with commitIndex := i } := by
  obtain ⟨d, rfl⟩ := h.same
  exact { h with same := ⟨d, rfl⟩, base_le_commit := hi }

/-- Tracking the same peer in both keeps the tracked peers the same. -/
theorem tracked_update {f g : String → Option Int} (h : ∀ p, (f p).isSome = (g p).isSome)
    (peer : String) (i j : Int) (p : String) :
    (Function.update f peer (some i) p).isSome = (Function.update g peer (some j) p).isSome := by
  by_cases hp : p = peer
  · simp [hp]
  · rw [Function.update_of_ne hp, Function.update_of_ne hp]
    exact h p

/-- A peer is tracked in both, possibly at different positions. -/
theorem Shadows.track (h : Shadows n m) (peer : String) (i : Int) (j j' : Int) :
    Shadows ((n.setMatch peer i).setNext peer j) ((m.setMatch peer i).setNext peer j') := by
  obtain ⟨d, rfl⟩ := h.same
  exact { h with
    same := ⟨{ d with nextIndex := Function.update d.nextIndex peer (some j') }, rfl⟩
    tracked := tracked_update h.tracked peer j j' }

/-- The logs are replaced by others that begin like them. -/
theorem Aligned.setLog (h : Aligned n m) (hlog : l.Compacted c) (hl : l.Contiguous)
    (hc : c.head.index = n.log.head.index) (hh : l.head.index = m.log.head.index)
    (htake : l.tail.take (dropped n m) = m.log.tail.take (dropped n m)) :
    Aligned { n with log := c } { m with log := l } := by
  obtain ⟨d, hd⟩ := h.same
  have hdrop : dropped { n with log := c } { m with log := l } = dropped n m := by
    show (c.head.index - l.head.index).toNat = _
    rw [hc, hh]
    rfl
  refine { h with
    same := ⟨{ d with log := l }, by rw [hd]; rfl⟩
    contiguous := hl
    compacted := hlog
    base_eq := ?_
    base_le_applied := (le_of_eq hc).trans h.base_le_applied
    base_le_commit := (le_of_eq hc).trans h.base_le_commit }
  rw [hdrop, htake]
  exact h.base_eq

/-- The configuration is computed anew. -/
theorem Aligned.rebuild (h : Aligned n m) :
    Mirrors n.rebuildMembershipLocked m.rebuildMembershipLocked := by
  have hfold := h.fold_eq
  obtain ⟨d, rfl⟩ := h.same
  refine { h with same := ⟨d, ?_⟩, peers_eq := hfold, peerIDs_eq := rfl }
  unfold rebuildMembershipLocked
  dsimp only
  rw [← hfold]
  rfl

/-- The same entry behind both logs. -/
theorem Aligned.append (h : Aligned n m) {e : LogEntry}
    (he : e.index = n.log.lastLogIndexLocked + 1) :
    Aligned { n with log := n.log.append [e] } { m with log := m.log.append [e] } := by
  refine h.setLog (h.compacted.append [e]) (h.contiguous.append (by rw [he, h.lastLogIndex_eq]))
    rfl rfl ?_
  exact List.take_append_of_le_length h.dropped_le

/-- A command at the end of both logs changes no configuration. -/
theorem Shadows.append (h : Shadows n m) {e : LogEntry}
    (he : e.index = n.log.lastLogIndexLocked + 1)
    (hch : e.change = none) :
    Shadows { n with log := n.log.append [e] } { m with log := m.log.append [e] } := by
  refine { h with toAligned := h.toAligned.append he, peers_eq := ?_ }
  -- an entry without a change leaves the members alone
  have hstep : applyEntry (n.peerAddrs, n.peerHTTP) e = (n.peerAddrs, n.peerHTTP) := by
    unfold applyEntry
    rw [hch]
  show _ = (m.log.tail ++ [e]).foldl applyEntry _
  rw [List.foldl_append, ← h.peers_eq]
  exact hstep.symm

/-! ## Committing and applying -/

/-- The loop finds the same index in both: it stays above the dummy of `n`. -/
theorem Aligned.advanceLoop_eq (h : Aligned n m) (k : Nat) (idx : Int) : ∃ i, n.commitIndex ≤ i ∧
    n.advanceLoop k idx = { n with commitIndex := i } ∧
    m.advanceLoop k idx = { m with commitIndex := i } := by
  have hcommit := h.base_le_commit
  have hterm : ∀ i, n.log.head.index ≤ i → n.log.termAtLocked i = m.log.termAtLocked i :=
    fun i hi => h.compacted.termAt_eq hi
  obtain ⟨d, rfl⟩ := h.same
  induction k generalizing idx with
  | zero => exact ⟨n.commitIndex, le_refl _, rfl, rfl⟩
  | succ k ih =>
    unfold advanceLoop
    by_cases hlt : n.commitIndex < idx
    -- both scans look at the same entry, or at none below the commit index
    · rw [if_pos hlt, if_pos (show (withHidden n d).commitIndex < idx from hlt)]
      by_cases hok : n.log.termAtLocked idx = some n.currentTerm ∧ n.majority ≤ n.replicas idx
      · have hok' : (withHidden n d).log.termAtLocked idx = some (withHidden n d).currentTerm ∧
            (withHidden n d).majority ≤ (withHidden n d).replicas idx :=
          ⟨(hterm idx (by omega)).symm.trans hok.1, hok.2⟩
        rw [if_pos hok, if_pos hok']
        exact ⟨idx, hlt.le, rfl, rfl⟩
      · have hok' : ¬ ((withHidden n d).log.termAtLocked idx = some (withHidden n d).currentTerm ∧
            (withHidden n d).majority ≤ (withHidden n d).replicas idx) :=
          fun hx => hok ⟨(hterm idx (by omega)).trans hx.1, hx.2⟩
        rw [if_neg hok, if_neg hok']
        exact ih (idx - 1)
    · rw [if_neg hlt, if_neg (show ¬ (withHidden n d).commitIndex < idx from hlt)]
      exact ⟨n.commitIndex, le_refl _, rfl, rfl⟩

/-- The copies commit the same. -/
theorem Shadows.advanceCommit (h : Shadows n m) :
    Shadows n.advanceCommitLocked m.advanceCommitLocked := by
  obtain ⟨i, hi, hn, hm⟩ := h.toAligned.advanceLoop_eq
    (n.log.lastLogIndexLocked - n.commitIndex).toNat n.log.lastLogIndexLocked
  have hcommit : m.commitIndex = n.commitIndex := by
    obtain ⟨d, rfl⟩ := h.same
    rfl
  unfold advanceCommitLocked
  rw [h.lastLogIndex_eq, hcommit, hn, hm]
  exact h.commit (h.base_le_commit.trans hi)

/-- The copies apply the same entry. -/
theorem Mirrors.applyNext (h : Mirrors n m) {next : Int} (hnext : n.log.head.index ≤ next)
    (e : LogEntry) : Mirrors (n.applyNext next e) (m.applyNext next e) := by
  obtain ⟨d, rfl⟩ := h.same
  unfold RaftNode.applyNext
  dsimp only [withHidden]
  split
  · exact { h with same := ⟨d, rfl⟩, base_le_applied := hnext }
  · exact { h with same := ⟨d, rfl⟩, base_le_applied := hnext }

/-- The loop applies the same entries. -/
theorem Mirrors.applyLoop (h : Mirrors n m) (k : Nat) :
    Mirrors (applyLoop k n) (RaftNode.applyLoop k m) := by
  induction k generalizing n m with
  | zero => exact h
  | succ k ih =>
    have hbase := h.base_le_applied
    have hentry := h.compacted.entryAt_eq (i := n.lastApplied + 1) (by omega)
    have hfields : m.lastApplied = n.lastApplied ∧ m.commitIndex = n.commitIndex := by
      obtain ⟨d, rfl⟩ := h.same
      exact ⟨rfl, rfl⟩
    unfold RaftNode.applyLoop
    rw [hfields.1, hfields.2, ← hentry]
    -- the next entry is retained by both
    split
    · split
      · exact h
      · exact ih (h.applyNext (by omega) _)
    · exact h

/-- Where the loop has applied something, the last applied entry is committed and retained. -/
theorem applyLoop_progress (k : Nat) (n : RaftNode σ) : applyLoop k n = n ∨
    ((applyLoop k n).lastApplied ≤ (applyLoop k n).commitIndex ∧
      ∃ e, (applyLoop k n).log.entryAtLocked (applyLoop k n).lastApplied = some e) := by
  induction k generalizing n with
  | zero => exact Or.inl rfl
  | succ k ih =>
    unfold applyLoop
    split
    · next hlt =>
      split
      · exact Or.inl rfl
      · next e he =>
        right
        rcases ih (n.applyNext (n.lastApplied + 1) e) with hsame | hprog
        · -- this entry was the last one
          obtain ⟨_, _, heq⟩ := n.applyNext_eq (n.lastApplied + 1) e
          rw [hsame, heq]
          exact ⟨hlt, e, he⟩
        · exact hprog
    · exact Or.inl rfl

/-- What a compaction of `n` leaves: the configuration stays, the base moves up. -/
theorem Mirrors.compactTo (h : Mirrors n m) {e : LogEntry} (data : Bytes)
    (he : n.log.entryAtLocked n.lastApplied = some e) (hle : n.lastApplied ≤ n.commitIndex) :
    Mirrors (n.compactTo n.lastApplied e data) m := by
  have hla := h.base_le_applied
  have hcont := h.compacted.contiguous h.contiguous
  have hhead := h.compacted.head_le
  -- the new base: the entries dropped before and those dropped now
  have hbase : n.membershipAtLocked n.lastApplied =
      (m.log.tail.take (n.lastApplied - m.log.head.index).toNat).foldl applyEntry
        (m.basePeers, m.baseHTTP) := by
    unfold membershipAtLocked
    rw [hcont.takeWhile_eq, h.base_eq, h.tail_eq, ← List.foldl_append, ← List.take_add]
    congr 2
    unfold dropped
    omega
  have haligned : Aligned
      { n with
        log := ⟨{ term := e.term, index := n.lastApplied },
          n.log.slice (n.log.sliceIndexLocked n.lastApplied + 1)⟩
        snapshot := data
        basePeers := (n.membershipAtLocked n.lastApplied).1
        baseHTTP := (n.membershipAtLocked n.lastApplied).2 } m := by
    obtain ⟨d, rfl⟩ := h.same
    exact { h with
      same := ⟨d, rfl⟩
      compacted := h.compacted.drop hla he
      base_eq := hbase
      base_le_applied := le_refl _
      base_le_commit := hle }
  have hpeers := h.peers_eq
  rw [← haligned.fold_eq] at hpeers
  -- so the rebuild finds the configuration that is there
  have hrebuild : n.compactTo n.lastApplied e data =
      { n with
        log := ⟨{ term := e.term, index := n.lastApplied },
          n.log.slice (n.log.sliceIndexLocked n.lastApplied + 1)⟩
        snapshot := data
        basePeers := (n.membershipAtLocked n.lastApplied).1
        baseHTTP := (n.membershipAtLocked n.lastApplied).2 }.notifyPeersLocked.persistLocked := by
    unfold RaftNode.compactTo rebuildMembershipLocked
    dsimp only
    rw [← hpeers, ← h.peerIDs_eq]
  rw [hrebuild]
  refine Mirrors.outward ⟨haligned, h.peers_eq, h.peerIDs_eq⟩ ?_ outward_rfl
  exact outward_notify.trans outward_persist

/-- **The one place where the copies part**: `n` may take a snapshot. It is due only after entries
were applied, so it does not reach beyond the commit index. -/
theorem Mirrors.maybeCompact (h : Mirrors n m)
    (hdue : Settled n ∨ n.lastApplied ≤ n.commitIndex ∧
      ∃ e, n.log.entryAtLocked n.lastApplied = some e) :
    Shadows n.maybeCompactLocked m := by
  rcases n.maybeCompact_cases with ⟨hsame, hnot⟩ | ⟨e, data, hd, hcompact⟩
  · rw [hsame]
    refine ⟨h, ?_⟩
    rcases hdue with hset | ⟨_, e, he⟩
    · exact hset
    -- the entry is retained, so too little was applied or there is no snapshot
    · by_cases hless : n.lastApplied - n.log.head.index < n.snapshotThreshold
      · exact Or.inl hless
      · refine Or.inr fun s hs => Option.eq_none_iff_forall_ne_some.mpr fun data hdata => ?_
        exact hnot e data ⟨⟨s, hs, hdata⟩, h.threshold_pos, not_lt.mp hless, he⟩
  · rw [hcompact]
    rcases hdue with (hlt | hrefuse) | ⟨hle, _⟩
    · exact absurd hd.reached (not_le.mpr hlt)
    · obtain ⟨s, hs, hdata⟩ := hd.hook
      rw [hrefuse s hs] at hdata
      cases hdata
    · refine ⟨h.compactTo data hd.entry hle, Or.inl ?_⟩
      show n.lastApplied - n.lastApplied < n.snapshotThreshold
      rw [Int.sub_self]
      exact h.threshold_pos

/-- The copies apply the same; one of them may compact then. -/
theorem Shadows.applyCommitted (h : Shadows n m) :
    Shadows n.applyCommittedLocked m.applyCommittedLocked := by
  have hcount : m.commitIndex - m.lastApplied = n.commitIndex - n.lastApplied := by
    obtain ⟨d, rfl⟩ := h.same
    rfl
  unfold applyCommittedLocked
  rw [hcount]
  have hloop := h.toMirrors.applyLoop (n.commitIndex - n.lastApplied).toNat
  -- the other copy never compacts
  have hnever : (applyLoop (n.commitIndex - n.lastApplied).toNat m).maybeCompactLocked =
      applyLoop (n.commitIndex - n.lastApplied).toNat m := if_pos (Or.inr hloop.never)
  rw [hnever]
  -- where something was applied, its entry is retained
  refine hloop.maybeCompact ?_
  rcases applyLoop_progress (n.commitIndex - n.lastApplied).toNat n with hsame | hprog
  · rw [hsame]
    exact Or.inl h.settled
  · exact Or.inr hprog

/-! ## Elections -/

/-- Stepping down keeps the copies alike. -/
theorem Shadows.becomeFollower (h : Shadows n m) (term : Int) (leaderID : String) :
    Shadows (n.becomeFollowerLocked term leaderID) (m.becomeFollowerLocked term leaderID) := by
  unfold becomeFollowerLocked
  rw [h.currentTerm_eq]
  split
  -- a new term is saved by both
  · have hballot : Shadows { n with currentTerm := term, votedFor := "" }
        { m with currentTerm := term, votedFor := "" } := by
      obtain ⟨d, rfl⟩ := h.same
      exact { h with same := ⟨d, rfl⟩ }
    have hsaved := hballot.outward outward_persist outward_persist
    obtain ⟨d, hd⟩ := hsaved.same
    refine { hsaved with same := ⟨d, ?_⟩ }
    rw [hd]
    rfl
  · obtain ⟨d, rfl⟩ := h.same
    exact { h with same := ⟨d, rfl⟩ }

/-- Hearing of a leader keeps the copies alike. -/
theorem Shadows.hearLeader (h : Shadows n m) (term : Int) (leaderID : String) :
    Shadows (n.hearLeader term leaderID) (m.hearLeader term leaderID) := by
  -- the rest of it is the same in both
  have hheard : ∀ {n m : RaftNode σ}, Shadows n m →
      Shadows { n with leaderID := leaderID, joining := false }
        { m with leaderID := leaderID, joining := false } := by
    intro n m h
    obtain ⟨d, rfl⟩ := h.same
    exact { h with same := ⟨d, rfl⟩ }
  unfold RaftNode.hearLeader
  rw [h.currentTerm_eq, h.state_eq]
  split
  · exact hheard (h.becomeFollower term leaderID)
  · exact hheard h

/-- A leader's own entries are tracked alike. -/
theorem Shadows.trackSelf (h : Shadows n m) (index : Int) :
    Shadows (n.trackSelf index) (m.trackSelf index) := by
  have hid : m.id = n.id := by
    obtain ⟨d, rfl⟩ := h.same
    rfl
  have htrack := h.track n.id index (index + 1) (index + 1)
  unfold RaftNode.trackSelf
  rw [hid]
  exact htrack

/-- What follows every append of a leader. -/
theorem Shadows.appended (h : Shadows n m) (index : Int) :
    Shadows (n.appended index) (m.appended index) :=
  ((h.outward outward_persist outward_persist).trackSelf index).advanceCommit.applyCommitted.outward
    outward_broadcast outward_broadcast

/-- A new leader's first entry is the same in both. -/
theorem Shadows.becomeLeader (h : Shadows n m) :
    Shadows n.becomeLeaderLocked m.becomeLeaderLocked := by
  have hreset : Shadows
      ({ n with state := .leader, leaderID := n.id }.resetTracking n.log.lastLogIndexLocked)
      ({ m with state := .leader, leaderID := m.id }.resetTracking n.log.lastLogIndexLocked) := by
    obtain ⟨d, rfl⟩ := h.same
    exact { h with
      same := ⟨{ d with
        nextIndex := fun p =>
          if p ∈ n.peerIDs then some (n.log.lastLogIndexLocked + 1) else none
        replicating := fun _ => false }, rfl⟩
      tracked := fun _ => rfl }
  -- the entry, its place, and what it lets commit
  have hnoop := hreset.append
    (e := { term := n.currentTerm, index := n.log.lastLogIndexLocked + 1 }) rfl rfl
  have hself := (hnoop.trackSelf (n.log.lastLogIndexLocked + 1)).outward outward_persist
    outward_persist
  have hdone := hself.advanceCommit.applyCommitted.outward outward_broadcast outward_broadcast
  have hlast := h.lastLogIndex_eq
  obtain ⟨d, rfl⟩ := h.same
  have hm : (withHidden n d).becomeLeaderLocked =
      ({ { withHidden n d with state := .leader, leaderID := n.id }.resetTracking
            (withHidden n d).log.lastLogIndexLocked with
          log := (withHidden n d).log.append
            [{ term := n.currentTerm, index := (withHidden n d).log.lastLogIndexLocked + 1 }]
        }.trackSelf ((withHidden n d).log.lastLogIndexLocked + 1)
        ).persistLocked.advanceCommitLocked.applyCommittedLocked.broadcastAppendEntriesLocked := rfl
  rw [hm, hlast]
  exact hdone

/-- A candidate that voted for itself leads at once, or asks the others. -/
theorem Shadows.askForVotes (h : Shadows n m) :
    Shadows
      (if n.votesReceived.card ≥ n.majority then n.becomeLeaderLocked
        else (n.peerIDs.filter (· ≠ n.id)).foldl
          (fun n' peer => n'.spawn (.sendRequestVote peer n.voteRequest)) n)
      (if m.votesReceived.card ≥ m.majority then m.becomeLeaderLocked
        else (m.peerIDs.filter (· ≠ m.id)).foldl
          (fun n' peer => n'.spawn (.sendRequestVote peer m.voteRequest)) m) := by
  have hwon : m.votesReceived.card ≥ m.majority ↔ n.votesReceived.card ≥ n.majority := by
    obtain ⟨d, rfl⟩ := h.same
    exact Iff.rfl
  refine rel_ite hwon (fun _ => h.becomeLeader) fun _ => h.outward ?_ ?_
  · exact outward_spawn (fun p => .sendRequestVote p _) _
  · exact outward_spawn (fun p => .sendRequestVote p _) _

/-- An election keeps the copies alike. -/
theorem Shadows.startElection (h : Shadows n m) :
    Shadows n.startElectionLocked m.startElectionLocked := by
  have hcand : Shadows
      { n with
        state := .candidate
        currentTerm := n.currentTerm + 1
        votedFor := n.id
        leaderID := ""
        votesReceived := {n.id} }.persistLocked
      { m with
        state := .candidate
        currentTerm := m.currentTerm + 1
        votedFor := m.id
        leaderID := ""
        votesReceived := {m.id} }.persistLocked := by
    refine Shadows.outward ?_ outward_persist outward_persist
    obtain ⟨d, rfl⟩ := h.same
    exact { h with same := ⟨d, rfl⟩ }
  -- both may campaign, or neither
  have hidle : ((m.joining || !m.isVoterLocked) = true) ↔
      ((n.joining || !n.isVoterLocked) = true) := by
    obtain ⟨d, rfl⟩ := h.same
    exact Iff.rfl
  exact rel_ite hidle (fun _ => h) fun _ => hcand.askForVotes

/-- A vote counts alike. -/
theorem Shadows.voteReply (h : Shadows n m) (peer : String) (req : RequestVoteRequest)
    (resp : RequestVoteResponse) :
    Shadows (n.sendRequestVoteReply peer req resp) (m.sendRequestVoteReply peer req resp) := by
  obtain ⟨d, hd⟩ := h.same
  -- with the vote counted
  have hcount : Shadows { n with votesReceived := insert peer n.votesReceived }
      { m with votesReceived := insert peer m.votesReceived } := by
    subst hd
    exact { h with same := ⟨d, rfl⟩ }
  subst hd
  unfold sendRequestVoteReply
  refine rel_ite Iff.rfl (fun _ => h.becomeFollower resp.term "") fun _ => ?_
  refine rel_ite Iff.rfl (fun _ => h) fun _ => ?_
  refine rel_ite Iff.rfl (fun _ => h) fun _ => ?_
  exact rel_ite Iff.rfl (fun _ => hcount.becomeLeader) fun _ => hcount

/-- A vote is granted by both or by neither. -/
theorem Shadows.requestVote (h : Shadows n m) (req : RequestVoteRequest) :
    Alike (n.handleRequestVote req) (m.handleRequestVote req) := by
  have hterm := h.currentTerm_eq
  unfold handleRequestVote
  refine rel_ite (by rw [hterm]) (fun _ => ⟨h, by rw [hterm]⟩) fun _ => ?_
  -- a higher term is learnt of by both
  have hheard : Shadows (if req.term > n.currentTerm then n.becomeFollowerLocked req.term "" else n)
      (if req.term > m.currentTerm then m.becomeFollowerLocked req.term "" else m) :=
    rel_ite (by rw [hterm]) (fun _ => h.becomeFollower req.term "") (fun _ => h)
  dsimp only
  generalize (if req.term > n.currentTerm then n.becomeFollowerLocked req.term "" else n) = a,
    (if req.term > m.currentTerm then m.becomeFollowerLocked req.term "" else m) = b at hheard ⊢
  have hfresh : b.isLogUpToDateLocked req.lastLogIndex req.lastLogTerm =
      a.isLogUpToDateLocked req.lastLogIndex req.lastLogTerm := by
    unfold isLogUpToDateLocked
    rw [hheard.lastLogTerm_eq, hheard.lastLogIndex_eq]
  rw [hfresh]
  obtain ⟨d, rfl⟩ := hheard.same
  refine rel_ite Iff.rfl (fun _ => ⟨Shadows.outward ?_ outward_persist outward_persist, rfl⟩)
    fun _ => ⟨hheard, rfl⟩
  exact { hheard with same := ⟨d, rfl⟩ }

/-- A tick keeps the copies alike. -/
theorem Shadows.tick (h : Shadows n m) (due : Bool) : Shadows (n.tick due) (m.tick due) := by
  refine Shadows.applyCommitted ?_
  have helect : Shadows
      (if !n.joining && n.isVoterLocked && due then n.startElectionLocked else n)
      (if !m.joining && m.isVoterLocked && due then m.startElectionLocked else m) := by
    refine rel_ite ?_ (fun _ => h.startElection) (fun _ => h)
    obtain ⟨d, rfl⟩ := h.same
    exact Iff.rfl
  rw [h.state_eq]
  cases n.state with
  | leader =>
    exact rel_ite Iff.rfl (fun _ => h.outward outward_broadcast outward_broadcast) (fun _ => h)
  | follower => exact helect
  | candidate => exact helect

/-! ## Proposals -/

/-- A proposal has the same outcome in both. -/
theorem Shadows.propose (h : Shadows n m) (cmd : Bytes) :
    Alike (n.propose cmd) (m.propose cmd) := by
  have hlast := h.lastLogIndex_eq
  unfold RaftNode.propose
  rw [hlast]
  obtain ⟨d, rfl⟩ := h.same
  refine rel_ite Iff.rfl (fun _ => ⟨h, rfl⟩) fun _ => ?_
  refine rel_ite Iff.rfl (fun _ => ⟨h, rfl⟩) fun _ => ?_
  have happended := h.append
    (e := { term := n.currentTerm, index := n.log.lastLogIndexLocked + 1, command := cmd }) rfl rfl
  exact ⟨happended.appended _, rfl⟩

/-- A leader starts to track the same peers, from indexes that may differ. -/
theorem Mirrors.ensurePeerTracking (h : Mirrors n m) :
    Mirrors n.ensurePeerTrackingLocked m.ensurePeerTrackingLocked := by
  obtain ⟨d, rfl⟩ := h.same
  -- the two track the same peers, so they begin to track the same ones
  have hnone : ∀ p, d.nextIndex p = none ↔ n.nextIndex p = none := by
    intro p
    have htracked : (n.nextIndex p).isSome = (d.nextIndex p).isSome := h.tracked p
    rw [← Option.not_isSome_iff_eq_none, ← Option.not_isSome_iff_eq_none, htracked]
  rw [ensurePeerTracking_spec, ensurePeerTracking_spec]
  refine { h with
    same := ⟨{ d with
      nextIndex := fun p => if p ∈ n.peerIDs ∧ d.nextIndex p = none
        then some (withHidden n d).firstNext else d.nextIndex p }, ?_⟩
    tracked := fun p => ?_ }
  · simp only [withHidden, hnone]
  · by_cases hnew : p ∈ n.peerIDs ∧ n.nextIndex p = none
    · show (if _ then _ else _ : Option Int).isSome = (if _ then _ else _ : Option Int).isSome
      rw [if_pos hnew, if_pos ⟨hnew.1, (hnone p).mpr hnew.2⟩]
      rfl
    · show (if _ then _ else _ : Option Int).isSome = (if _ then _ else _ : Option Int).isSome
      rw [if_neg hnew, if_neg fun hp => hnew ⟨hp.1, (hnone p).mp hp.2⟩]
      exact h.tracked p

/-- Whether a change of the configuration is on its way is seen above the commit index. -/
theorem Aligned.hasUncommittedConfig_eq (h : Aligned n m) :
    m.hasUncommittedConfigLocked = n.hasUncommittedConfigLocked := by
  have hbase := h.base_le_commit
  have hentry : ∀ k : Nat, m.log.entryAtLocked (n.commitIndex + 1 + k) =
      n.log.entryAtLocked (n.commitIndex + 1 + k) :=
    fun k => (h.compacted.entryAt_eq (by omega)).symm
  have hcommit : m.commitIndex = n.commitIndex := by
    obtain ⟨d, rfl⟩ := h.same
    rfl
  unfold hasUncommittedConfigLocked
  rw [h.lastLogIndex_eq, hcommit]
  simp only [hentry]

/-- A change of the membership has the same outcome in both. -/
theorem Shadows.proposeChange (h : Shadows n m) (ch : MembershipChange) :
    Alike (n.proposeChangeLocked ch) (m.proposeChangeLocked ch) := by
  have hlast := h.lastLogIndex_eq
  have hpending := h.hasUncommittedConfig_eq
  obtain ⟨d, hd⟩ := h.same
  have hchanged : m.changedPeers ch = n.changedPeers ch := by
    subst hd
    rfl
  unfold proposeChangeLocked
  rw [hlast, hpending, hchanged]
  subst hd
  -- the reasons to refuse are the same
  refine rel_ite Iff.rfl (fun _ => ⟨h, rfl⟩) fun _ => ?_
  refine rel_ite Iff.rfl (fun _ => ⟨h, rfl⟩) fun _ => ?_
  refine rel_ite Iff.rfl (fun _ => ⟨h, rfl⟩) fun _ => ?_
  cases n.changedPeers ch with
  | error e => exact ⟨h, rfl⟩
  | ok c =>
    -- the entry takes effect at once in both
    have happend := h.toAligned.append
      (e := { term := n.currentTerm, index := n.log.lastLogIndexLocked + 1,
              change := some { ch with peers := c.1, httpAddrs := c.2 } }) rfl
    have hmirrors := happend.rebuild.ensurePeerTracking.outward outward_notify outward_notify
    refine ⟨Shadows.appended ⟨hmirrors, ?_⟩ _, rfl⟩
    obtain ⟨next, mi, heq, _⟩ := ensurePeerTracking_eq
      ({ n with
        log := n.log.append
          [{ term := n.currentTerm, index := n.log.lastLogIndexLocked + 1,
             change := some { ch with peers := c.1, httpAddrs := c.2 } }] }.rebuildMembershipLocked)
    rw [heq]
    exact h.settled

theorem Shadows.addServer (h : Shadows n m) (id addr http : String) :
    Alike (n.addServer id addr http) (m.addServer id addr http) :=
  rel_ite Iff.rfl (fun _ => ⟨h, rfl⟩) fun _ => h.proposeChange _

theorem Shadows.removeServer (h : Shadows n m) (id : String) :
    Alike (n.removeServer id) (m.removeServer id) :=
  rel_ite Iff.rfl (fun _ => ⟨h, rfl⟩) fun _ => h.proposeChange _

/-! ## Receiving entries -/

/-- A request that starts at or above the dummy of `n` is found in both logs or in none. -/
theorem Aligned.prevMatches_iff (h : Aligned n m) {req : AppendEntriesRequest}
    (hprev : n.log.head.index ≤ req.prevLogIndex) : m.PrevMatches req ↔ n.PrevMatches req := by
  have hle := h.compacted.head_le
  unfold PrevMatches Log.lastIncludedIndexLocked
  rw [h.compacted.termAt_eq hprev]
  constructor
  · exact fun hm => ⟨hprev, hm.2⟩
  · exact fun hn => ⟨hle.trans hprev, hn.2⟩

/-- The loop keeps what lies before the entries of the request. -/
theorem take_mergeEntries {entries : List LogEntry} {idx : Int} {q k : Nat}
    (hq : idx = l.head.index + 1 + q) (hlen : q ≤ l.tail.length) (hk : k ≤ q) :
    (l.mergeEntries entries idx).1.tail.take k = l.tail.take k := by
  obtain ⟨j, _, hmatch, ⟨_, heq⟩ | ⟨_, _, heq⟩⟩ := Log.mergeEntries_cases entries hq hlen
  · rw [heq]
  · rw [heq]
    show (l.tail.take (q + j) ++ _).take k = _
    rw [List.take_append_of_le_length (by rw [hmatch.length_take hlen]; omega), List.take_take,
      Nat.min_eq_left (by omega)]

/-- The entries of a request are merged alike, if it does not reach below the retained log. -/
theorem Shadows.merge (h : Shadows n m) {req : AppendEntriesRequest}
    (hprev : n.PrevMatches req) : Shadows (n.mergeLocked req) (m.mergeLocked req) := by
  have hlo : n.log.head.index ≤ req.prevLogIndex := hprev.1
  have hm := (h.prevMatches_iff hlo).mpr hprev
  obtain ⟨q, hq, hidx⟩ := Log.exists_position hm.1 hm.2
  have hstart : req.prevLogIndex + 1 = m.log.head.index + 1 + q := by omega
  obtain ⟨hdirty, hcompacted⟩ := h.compacted.merge req.entries
    (show n.log.head.index < req.prevLogIndex + 1 by omega)
  have hmerged : Aligned { n with log := (n.log.mergeEntries req.entries (req.prevLogIndex + 1)).1 }
      { m with log := (m.log.mergeEntries req.entries (req.prevLogIndex + 1)).1 } := by
    -- what was dropped lies before the request
    refine h.toAligned.setLog hcompacted (h.contiguous.merge hstart hq) ?_ ?_ ?_
    · rw [Log.head_mergeEntries]
    · rw [Log.head_mergeEntries]
    · refine take_mergeEntries hstart hq ?_
      unfold dropped
      omega
  unfold mergeLocked
  dsimp only
  rw [hdirty]
  by_cases hd : (m.log.mergeEntries req.entries (req.prevLogIndex + 1)).2 = true
  -- something new in both logs: the members are rebuilt
  · rw [if_pos hd, if_pos hd]
    refine ⟨hmerged.rebuild.outward (outward_notify.trans outward_persist)
      (outward_notify.trans outward_persist), ?_⟩
    have hset := h.settled
    have hhead : (n.log.mergeEntries req.entries (req.prevLogIndex + 1)).1.head = n.log.head :=
      Log.head_mergeEntries
    unfold Settled at hset ⊢
    rw [← hhead] at hset
    exact hset
  · -- nothing new in either log
    have hd' : (m.log.mergeEntries req.entries (req.prevLogIndex + 1)).2 = false := by
      simpa using hd
    rw [if_neg hd, if_neg hd, Log.mergeEntries_of_clean hd',
      Log.mergeEntries_of_clean (hdirty.trans hd')]
    exact h

/-- Following the leader's commits keeps the copies alike. -/
theorem Shadows.followCommit (h : Shadows n m) (leaderCommit : Int) :
    Shadows (n.followCommitLocked leaderCommit) (m.followCommitLocked leaderCommit) := by
  have hlast := h.lastLogIndex_eq
  have hhead := h.head_le_last
  have hbase := h.base_le_commit
  have hcommit : m.commitIndex = n.commitIndex := by
    obtain ⟨d, rfl⟩ := h.same
    rfl
  refine rel_ite (by rw [hcommit]) (fun hgt => ?_) fun _ => h
  dsimp only
  rw [hlast]
  refine (h.commit ?_).applyCommitted
  split
  · exact hhead
  · omega

/-- A request gets the same answer from both, if it does not reach below the retained log. -/
theorem Shadows.appendEntries (h : Shadows n m) {req : AppendEntriesRequest}
    (hprev : n.log.head.index ≤ req.prevLogIndex) :
    Alike (n.handleAppendEntries req) (m.handleAppendEntries req) := by
  have hterm := h.currentTerm_eq
  have hiff := h.prevMatches_iff hprev
  have hheard := h.hearLeader req.term req.leaderID
  rcases n.handleAppendEntries_cases req with ⟨hold, hn⟩ | ⟨hnew, hno, hn⟩ | ⟨hnew, hyes, hn⟩
  -- in each case the other copy is in the same one
  · rcases m.handleAppendEntries_cases req with ⟨_, hm⟩ | ⟨hnew, _, _⟩ | ⟨hnew, _, _⟩
    · rw [hn, hm, hterm]
      exact ⟨h, rfl⟩
    · omega
    · omega
  · rcases m.handleAppendEntries_cases req with ⟨hold, _⟩ | ⟨_, _, hm⟩ | ⟨_, hyes, _⟩
    · omega
    · rw [hn, hm]
      exact ⟨hheard, rfl⟩
    · exact absurd (hiff.mp hyes) hno
  · rcases m.handleAppendEntries_cases req with ⟨hold, _⟩ | ⟨_, hno, _⟩ | ⟨_, _, hm⟩
    · omega
    · exact absurd (hiff.mpr hyes) hno
    · rw [hn, hm]
      refine ⟨(hheard.merge ?_).followCommit req.leaderCommit, rfl⟩
      unfold PrevMatches
      rw [log_hearLeader]
      exact hyes

/-! ## Replies -/

theorem Shadows.matched (h : Shadows n m) (peer : String) (index : Int) :
    Shadows (n.matched peer index) (m.matched peer index) :=
  (h.track peer index (index + 1) (index + 1)).advanceCommit.applyCommitted.outward
    (outward_again ..) (outward_again ..)

/-- A reply of a peer to a request of term `t`: the term it carries, and what it confirms. A
snapshot confirms its last index, entries confirm theirs. -/
inductive ReplyOf (peer : String) (t term : Int) : Option Int → Event → Prop
  | installed (req : InstallSnapshotRequest) (resp : InstallSnapshotResponse)
      (ht : req.term = t) (hterm : resp.term = term) :
      ReplyOf peer t term (some req.lastIncludedIndex) (.installReply peer req resp)
  | appended (req : AppendEntriesRequest) (resp : AppendEntriesResponse)
      (ht : req.term = t) (hterm : resp.term = term) (hs : resp.success = true) :
      ReplyOf peer t term (some (req.prevLogIndex + req.entries.length))
        (.appendReply peer req resp)
  | refused (req : AppendEntriesRequest) (resp : AppendEntriesResponse)
      (ht : req.term = t) (hterm : resp.term = term) (hs : resp.success = false) :
      ReplyOf peer t term none (.appendReply peer req resp)

/-- The section that takes a reply depends on nothing else of it: `back` is what a refusal in the
current term leads to. -/
theorem ReplyOf.handle_eq {peer : String} {t term : Int} {index : Option Int} {ev : Event}
    (h : ReplyOf peer t term index ev) (n : RaftNode σ)
    (hindex : index.isSome ∨ n.currentTerm < term) :
    handle n ev =
      if n.state ≠ .leader ∨ n.currentTerm ≠ t then n.replicateAgain peer false
      else if term > n.currentTerm then (n.becomeFollowerLocked term "").replicateAgain peer false
      else n.matched peer (index.getD 0) := by
  -- each of the replies asks for role and term first
  cases h with
  | installed req resp ht hterm =>
    subst ht hterm
    rfl
  | appended req resp ht hterm hs =>
    subst ht hterm
    show n.replicateToAppended peer req resp = _
    unfold replicateToAppended
    rw [hs]
    rfl
  | refused req resp ht hterm hs =>
    subst ht hterm
    have hgt : n.currentTerm < resp.term := by simpa using hindex
    show n.replicateToAppended peer req resp = _
    unfold replicateToAppended
    rw [if_pos (show resp.term > n.currentTerm from hgt),
      if_pos (show resp.term > n.currentTerm from hgt)]

/-- **Replies that confirm the same index** lead to the same state, whatever they reply to. -/
theorem Shadows.reply (h : Shadows n m) {peer : String} {t term : Int} {index : Option Int}
    {ev ev' : Event} (hev : ReplyOf peer t term index ev) (hev' : ReplyOf peer t term index ev')
    (hindex : index.isSome ∨ n.currentTerm < term) : Shadows (handle n ev) (handle m ev') := by
  have hterm := h.currentTerm_eq
  have hstate := h.state_eq
  rw [hev.handle_eq n hindex, hev'.handle_eq m (by rw [hterm]; exact hindex)]
  refine rel_ite (by rw [hterm, hstate]) (fun _ => h.outward (outward_again ..) (outward_again ..))
    fun _ => ?_
  refine rel_ite (by rw [hterm]) (fun _ => ?_) fun _ => h.matched peer _
  exact (h.becomeFollower term "").outward (outward_again ..) (outward_again ..)

end Node
