import RaftStore.Raft.Node

/-!
# Committing, applying and compacting

The part of a critical section that runs after the log or a match index has moved:
`advanceCommitLocked`, `applyCommittedLocked` with the compaction behind it, and
`broadcastAppendEntriesLocked`, which starts a `replicateTo` goroutine for every peer that
has none.

The two loops count a difference of indexes down to zero, so they recurse on that number:
`advanceCommitLocked` stops at `commitIndex`, `applyCommittedLocked` at `commitIndex` or
at the first index the log does not hold.
-/

namespace Raft

variable {σ : Type}

namespace RaftNode

/-! ## Compaction -/

/-- The end of `compactLocked`, once the entry at `index` and the snapshot are there. -/
def compactTo (n : RaftNode σ) (index : Int) (e : LogEntry) (data : Bytes) : RaftNode σ :=
  let c := n.membershipAtLocked index
  let n :=
    { n with
      log := ⟨{ term := e.term, index := index }, n.log.slice (n.log.sliceIndexLocked index + 1)⟩
      snapshot := data
      basePeers := c.1
      baseHTTP := c.2 }
  n.rebuildMembershipLocked.notifyPeersLocked.persistLocked

def compactLocked (n : RaftNode σ) (index : Int) : RaftNode σ :=
  if index ≤ n.log.lastIncludedIndexLocked then n
  else
    match n.log.entryAtLocked index, n.snapshotter with
    | some e, some s =>
      match s.snapshot n.machine with
      | none => n
      | some data => n.compactTo index e data
    | _, _ => n

def maybeCompactLocked (n : RaftNode σ) : RaftNode σ :=
  if n.snapshotter.isNone ∨ n.snapshotThreshold ≤ 0 then n
  else if n.lastApplied - n.log.lastIncludedIndexLocked < n.snapshotThreshold then n
  else n.compactLocked n.lastApplied

/-- A snapshot is due: enough has been applied, the entry is there and the hook delivers. -/
structure Due (n : RaftNode σ) (e : LogEntry) (data : Bytes) : Prop where
  hook : ∃ s, n.snapshotter = some s ∧ s.snapshot n.machine = some data
  positive : 0 < n.snapshotThreshold
  reached : n.snapshotThreshold ≤ n.lastApplied - n.log.lastIncludedIndexLocked
  entry : n.log.entryAtLocked n.lastApplied = some e

theorem Due.head_lt {n : RaftNode σ} {e : LogEntry} {data : Bytes} (h : n.Due e data) :
    n.log.lastIncludedIndexLocked < n.lastApplied := by
  have h1 := h.positive
  have h2 := h.reached
  omega

/-- **Compaction happens exactly when it is due.** -/
theorem maybeCompact_cases (n : RaftNode σ) :
    (n.maybeCompactLocked = n ∧ ∀ e data, ¬ n.Due e data) ∨
      ∃ e data, n.Due e data ∧ n.maybeCompactLocked = n.compactTo n.lastApplied e data := by
  unfold maybeCompactLocked compactLocked
  split
  -- off, not yet, already done, or nothing to compact
  · next hoff =>
    refine Or.inl ⟨rfl, fun e data h => ?_⟩
    obtain ⟨s, hs, _⟩ := h.hook
    rcases hoff with hnone | hle
    · simp [hs] at hnone
    · exact absurd h.positive (not_lt.mpr hle)
  next hon =>
  split
  · next hless => exact Or.inl ⟨rfl, fun e data h => absurd h.reached (not_le.mpr hless)⟩
  next hreached =>
  split
  · next hle => exact Or.inl ⟨rfl, fun e data h => absurd h.head_lt (not_lt.mpr hle)⟩
  split
  · next e s he hs =>
    -- the hook fails, or delivers
    split
    · next hfail =>
      refine Or.inl ⟨rfl, fun e data h => ?_⟩
      obtain ⟨s', hs', hdata⟩ := h.hook
      obtain rfl : s = s' := Option.some.inj (hs.symm.trans hs')
      rw [hfail] at hdata
      cases hdata
    · next data hdata =>
      refine Or.inr ⟨e, data, ⟨⟨s, hs, hdata⟩, ?_, not_lt.mp hreached, he⟩, rfl⟩
      exact not_le.mp fun hle => hon (Or.inr hle)
  · next hnot =>
    refine Or.inl ⟨rfl, fun e data h => ?_⟩
    obtain ⟨s, hs, _⟩ := h.hook
    exact hnot e s h.entry hs

/-- The state machine that a snapshot leads to, if there is a hook and the snapshot is not empty. A
failed restore leaves the state machine alone. -/
def restored (n : RaftNode σ) (data : Bytes) : σ :=
  match n.snapshotter with
  | none => n.machine
  | some s => if data = [] then n.machine else (s.restore n.machine data).getD n.machine

/-! ## Applying -/

/-- The body of the loop of `applyCommittedLocked` once the entry is found. -/
def applyNext (n : RaftNode σ) (next : Int) (e : LogEntry) : RaftNode σ :=
  let n := { n with lastApplied := next }
  match n.apply, e.change with
  | some f, none =>
    { n with
      machine := f n.machine { index := next, command := e.command }
      applies := n.applies ++ [(next, e)] }
  | _, _ => n

theorem applyNext_eq (n : RaftNode σ) (next : Int) (e : LogEntry) : ∃ machine applies,
    n.applyNext next e =
      { n with lastApplied := next, machine := machine, applies := applies } := by
  unfold applyNext
  dsimp only
  split
  · exact ⟨_, _, rfl⟩
  · exact ⟨_, _, rfl⟩

/-- A command is handed to the callback. -/
theorem applyNext_of_none {n : RaftNode σ} {f : ApplyFunc σ} {e : LogEntry} (hf : n.apply = some f)
    (he : e.change = none) (next : Int) : n.applyNext next e =
      { n with
        lastApplied := next
        machine := f n.machine { index := next, command := e.command }
        applies := n.applies ++ [(next, e)] } := by
  unfold applyNext
  dsimp only
  rw [hf, he]

/-- A membership change is not. -/
theorem applyNext_of_some {n : RaftNode σ} {e : LogEntry} {ch : MembershipChange}
    (he : e.change = some ch) (next : Int) :
    n.applyNext next e = { n with lastApplied := next } := by
  unfold applyNext
  dsimp only
  split
  · next hnone =>
    rw [he] at hnone
    cases hnone
  · rfl

def applyLoop : Nat → RaftNode σ → RaftNode σ
  | 0, n => n
  | k + 1, n =>
    if n.lastApplied < n.commitIndex then
      match n.log.entryAtLocked (n.lastApplied + 1) with
      | none => n
      | some e => applyLoop k (n.applyNext (n.lastApplied + 1) e)
    else n

/-- The loop moves `lastApplied` and the state machine. -/
theorem applyLoop_eq (n : RaftNode σ) (k : Nat) : ∃ la machine applies,
    applyLoop k n = { n with lastApplied := la, machine := machine, applies := applies } := by
  induction k generalizing n with
  | zero => exact ⟨_, _, _, rfl⟩
  | succ k ih =>
    unfold applyLoop
    split
    · split
      · exact ⟨_, _, _, rfl⟩
      · next e _ =>
        obtain ⟨_, _, heq⟩ := n.applyNext_eq (n.lastApplied + 1) e
        rw [heq]
        exact ih _
    · exact ⟨_, _, _, rfl⟩

def applyCommittedLocked (n : RaftNode σ) : RaftNode σ :=
  (applyLoop (n.commitIndex - n.lastApplied).toNat n).maybeCompactLocked

/-! ## Committing -/

/-- How many members of the configuration are known to hold `idx`. -/
def replicas (n : RaftNode σ) (idx : Int) : Nat :=
  n.peerIDs.countP (fun p => idx ≤ n.matchIndex p)

/-- The loop of `advanceCommitLocked`, from `idx` downwards. -/
def advanceLoop (n : RaftNode σ) : Nat → Int → RaftNode σ
  | 0, _ => n
  | k + 1, idx =>
    if n.commitIndex < idx then
      if n.log.termAtLocked idx = some n.currentTerm ∧ n.majority ≤ n.replicas idx then
        { n with commitIndex := idx }
      else advanceLoop n k (idx - 1)
    else n

def advanceCommitLocked (n : RaftNode σ) : RaftNode σ :=
  n.advanceLoop (n.log.lastLogIndexLocked - n.commitIndex).toNat n.log.lastLogIndexLocked

/-- An index that the leader may commit: the entry is of its own term, and a majority is known to
hold it. -/
structure Committable (n : RaftNode σ) (i : Int) : Prop where
  term : n.log.termAtLocked i = some n.currentTerm
  held : n.majority ≤ n.replicas i

/-- The loop stops at the last index it may commit. -/
theorem advanceLoop_cases (n : RaftNode σ) {k : Nat} {idx : Int} (hk : idx ≤ n.commitIndex + k) :
    (n.advanceLoop k idx = n ∧ ∀ i, n.commitIndex < i → i ≤ idx → ¬ n.Committable i) ∨
      ∃ i, n.advanceLoop k idx = { n with commitIndex := i } ∧ n.commitIndex < i ∧ i ≤ idx ∧
        n.Committable i ∧ ∀ j, i < j → j ≤ idx → ¬ n.Committable j := by
  induction k generalizing idx with
  | zero =>
    refine Or.inl ⟨rfl, fun i hlo hhi => ?_⟩
    omega
  | succ k ih =>
    unfold advanceLoop
    split
    · next hlt =>
      split
      · next hok =>
        -- the highest one that can be committed
        refine Or.inr ⟨idx, rfl, hlt, le_refl _, ⟨hok.1, hok.2⟩, fun j hlo hhi => ?_⟩
        omega
      · next hno =>
        -- an index up to `idx` is `idx` itself or one that the rest of the loop looks at
        have hskip : ∀ j, j ≤ idx → (j ≤ idx - 1 → ¬ n.Committable j) → ¬ n.Committable j := by
          intro j hj hrest
          rcases hj.lt_or_eq with hlt' | rfl
          · exact hrest (by omega)
          · exact fun hc => hno ⟨hc.term, hc.held⟩
        have hrest : idx - 1 ≤ n.commitIndex + k := by omega
        rcases ih hrest with ⟨heq, hnone⟩ | ⟨i, heq, hlo, hhi, hc, hmax⟩
        · exact Or.inl ⟨heq, fun j hlo hhi => hskip j hhi (hnone j hlo)⟩
        · exact Or.inr ⟨i, heq, hlo, by omega, hc, fun j hij hhi => hskip j hhi (hmax j hij)⟩
    · refine Or.inl ⟨rfl, fun i hlo hhi => ?_⟩
      omega

/-- **What `advanceCommitLocked` does**: it commits the last index it may commit, or nothing. -/
theorem advanceCommit_cases (n : RaftNode σ) :
    (n.advanceCommitLocked = n ∧
      ∀ i, n.commitIndex < i → i ≤ n.log.lastLogIndexLocked → ¬ n.Committable i) ∨
    ∃ i, n.advanceCommitLocked = { n with commitIndex := i } ∧ n.commitIndex < i ∧
      i ≤ n.log.lastLogIndexLocked ∧ n.Committable i ∧
      ∀ j, i < j → j ≤ n.log.lastLogIndexLocked → ¬ n.Committable j :=
  n.advanceLoop_cases (by omega)

/-- `advanceCommitLocked` moves the commit index, and only upwards. -/
theorem advanceCommit_eq (n : RaftNode σ) : ∃ i, n.commitIndex ≤ i ∧
    n.advanceCommitLocked = { n with commitIndex := i } := by
  rcases n.advanceCommit_cases with ⟨hsame, _⟩ | ⟨i, hup, hlt, _⟩
  · exact ⟨n.commitIndex, le_refl _, hsame⟩
  · exact ⟨i, hlt.le, hup⟩

/-- Whatever applying an entry and compacting leave alone, `applyCommittedLocked` does. -/
theorem applyCommitted_kept {β : Type} {f : RaftNode σ → β}
    (happly : ∀ m i e, f (applyNext m i e) = f m)
    (hcompact : ∀ m i e d, f (compactTo m i e d) = f m) (n : RaftNode σ) :
    f n.applyCommittedLocked = f n := by
  -- each turn of the loop keeps it
  have hloop : ∀ k m, f (applyLoop k m) = f m := by
    intro k
    induction k with
    | zero => exact fun m => rfl
    | succ k ih =>
      intro m
      unfold applyLoop
      split
      · split
        · rfl
        · rw [ih, happly]
      · rfl
  unfold applyCommittedLocked
  rw [← hloop (n.commitIndex - n.lastApplied).toNat n]
  rcases (applyLoop (n.commitIndex - n.lastApplied).toNat n).maybeCompact_cases with
    ⟨hsame, _⟩ | ⟨e, data, _, hcompact'⟩
  · rw [hsame]
  · rw [hcompact', hcompact]

@[simp] theorem state_applyCommitted (n : RaftNode σ) : n.applyCommittedLocked.state = n.state := by
  refine n.applyCommitted_kept (f := RaftNode.state) (fun m i e => ?_) (fun _ _ _ _ => rfl)
  obtain ⟨_, _, heq⟩ := m.applyNext_eq i e
  rw [heq]

@[simp] theorem currentTerm_applyCommitted (n : RaftNode σ) :
    n.applyCommittedLocked.currentTerm = n.currentTerm := by
  refine n.applyCommitted_kept (f := RaftNode.currentTerm) (fun m i e => ?_) (fun _ _ _ _ => rfl)
  obtain ⟨_, _, heq⟩ := m.applyNext_eq i e
  rw [heq]

@[simp] theorem commitIndex_applyCommitted (n : RaftNode σ) :
    n.applyCommittedLocked.commitIndex = n.commitIndex := by
  refine n.applyCommitted_kept (f := RaftNode.commitIndex) (fun m i e => ?_) (fun _ _ _ _ => rfl)
  obtain ⟨_, _, heq⟩ := m.applyNext_eq i e
  rw [heq]

@[simp] theorem votedFor_applyCommitted (n : RaftNode σ) :
    n.applyCommittedLocked.votedFor = n.votedFor := by
  refine n.applyCommitted_kept (f := RaftNode.votedFor) (fun m i e => ?_) (fun _ _ _ _ => rfl)
  obtain ⟨_, _, heq⟩ := m.applyNext_eq i e
  rw [heq]

/-! ## Starting replication -/

def broadcastAppendEntriesLocked (n : RaftNode σ) : RaftNode σ :=
  if n.transport.isNone then n
  else
    n.peerIDs.foldl (fun n peer =>
      if peer = n.id then n
      else if n.replicating peer then n
      else
        { n with replicating := Function.update n.replicating peer true }.spawn
          (.replicateTo peer)) n

theorem broadcast_eq (n : RaftNode σ) : ∃ r g,
    n.broadcastAppendEntriesLocked = { n with replicating := r, goroutines := g } := by
  unfold broadcastAppendEntriesLocked
  split
  · exact ⟨_, _, rfl⟩
  refine List.foldlRecOn (motive := fun m : RaftNode σ => ∃ r g,
    m = { n with replicating := r, goroutines := g }) n.peerIDs _ ⟨_, _, rfl⟩ ?_
  rintro m ⟨r, g, rfl⟩ peer _
  dsimp only
  split
  · exact ⟨_, _, rfl⟩
  · split
    · exact ⟨_, _, rfl⟩
    · exact ⟨_, _, rfl⟩

end RaftNode

end Raft
