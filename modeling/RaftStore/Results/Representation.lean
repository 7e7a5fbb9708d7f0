import RaftStore.Node.Phases
import RaftStore.Raft.Slices
import RaftStore.Results.Recovery

/-!
# The representation of the log

Whatever requests, elections, proposals, compactions and restarts a node goes through, its log is a
non-empty slice of consecutive indexes that starts at its snapshot, a lookup finds exactly what lies
between the first and the last index, and no expression is out of range (`log_representation`).

Requests are not validated, and indexes are 64-bit integers. A snapshot at the largest of them is
installed, and the entry behind it gets the smallest one (`index_wraps_around`). The theorem is
about the runs in which there is an index left for every entry.
-/

namespace Node

open Raft Cluster RaftNode

variable {σ : Type} {M : Machine σ} {n m : RaftNode σ}

/-! ## The updates of the slice -/

/-- The largest 64-bit integer. -/
def maxIndex : Int := 2 ^ 63 - 1

/-- The log of a node between events can be a slice. -/
theorem Rested.fits (h : Rested maxIndex (body n)) : n.log.Fits where
  contiguous := h.contiguous
  nonneg := h.nonneg
  small := by
    have hcont : n.log.Contiguous := h.contiguous
    have hlast : n.log.lastLogIndexLocked ≤ maxIndex := h.last_le
    rw [Log.lastLogIndex_of_contiguous hcont] at hlast
    unfold maxIndex at hlast
    omega

/-- What a lookup finds is at a 64-bit index. -/
theorem Rested.isInt_of_entryAt {i : Int} {e : LogEntry} (h : Rested maxIndex (body n))
    (hget : n.log.entryAtLocked i = some e) : IsInt i := by
  have hle : i ≤ n.log.lastLogIndexLocked := Log.le_last_of_entryAt h.contiguous hget
  have hlast : n.log.lastLogIndexLocked ≤ maxIndex := h.last_le
  have hnn : 0 ≤ n.log.head.index := h.nonneg
  -- what is found lies behind the first index
  have hlo : n.log.head.index ≤ i := by
    by_contra hlt
    rw [Log.entryAt_of_lt (not_le.mp hlt)] at hget
    cases hget
  unfold maxIndex at hlast
  exact ⟨by omega, by omega⟩

/-- Apply changes the log by a compaction, if at all. -/
theorem performs_applyCommitted (h : Rested maxIndex (body n)) :
    n.applyCommittedLocked.log = n.log ∨
      ∃ i, n.log.Room (.compact i) ∧ n.applyCommittedLocked.log = n.log.perform (.compact i) := by
  obtain ⟨la, x, applies, hloop⟩ := n.applyLoop_eq (n.commitIndex - n.lastApplied).toNat
  unfold applyCommittedLocked
  rw [hloop]
  rcases maybeCompact_cases { n with lastApplied := la, machine := x, applies := applies } with
    ⟨hkept, _⟩ | ⟨e, data, hdue, hcompact⟩
  · rw [hkept]
    exact Or.inl rfl
  -- the snapshot is due at an entry that the log holds
  · have hlt : n.log.head.index < la := hdue.head_lt
    have hget : n.log.entryAtLocked la = some e := hdue.entry
    refine Or.inr ⟨la, h.isInt_of_entryAt hget, ?_⟩
    rw [hcompact]
    simp only [Log.perform, if_neg (not_le.mpr hlt), hget]
    rfl

/-- **A phase is the update that it is named for**, or a compaction at most. -/
theorem Phase.performs {op : Option Raw.Op} (hstep : Phase maxIndex (· ≠ []) n op m)
    (h : Rested maxIndex (body n)) :
    (op = none ∧ (m.log = n.log ∨ ∃ i, n.log.Room (.compact i) ∧
      m.log = n.log.perform (.compact i))) ∨
      ∃ o, op = some o ∧ n.log.Room o ∧ m.log = n.log.perform o := by
  cases hstep with
  -- neither a commit nor a change of other fields touches the log
  | other heq _ => exact Or.inl ⟨rfl, Or.inl (congrArg Body.log heq)⟩
  | commit i _ => exact Or.inl ⟨rfl, Or.inl rfl⟩
  | apply => exact Or.inl ⟨rfl, performs_applyCommitted h⟩
  -- a leader's own entry
  | append e hidx hB heq _ =>
    refine Or.inr ⟨.append e.term e.command e.change, rfl, ?_, ?_⟩
    · show n.log.lastLogIndexLocked + 1 < 2 ^ 63
      unfold maxIndex at hB
      omega
    · rw [show m.log = n.log.append [e] from congrArg Body.log heq]
      simp only [Log.perform, ← hidx]
  -- entries of a leader: what they follow is in the log
  | merge req hprev hB =>
    obtain ⟨hlo, hterm⟩ := hprev
    obtain ⟨e, hget, hte⟩ := Option.map_eq_some_iff.mp hterm
    unfold Log.lastIncludedIndexLocked at hlo
    refine Or.inr ⟨.entries req.prevLogIndex req.prevLogTerm req.entries, rfl,
      ⟨h.isInt_of_entryAt hget, ?_⟩, ?_⟩
    · unfold maxIndex at hB
      omega
    · rw [log_mergeLocked]
      simp only [Log.perform, hget, hte, if_neg (not_lt.mpr hlo), ne_eq, not_true, if_false]
  -- a snapshot: its index is above the first one
  | install req hidx hB _ =>
    unfold Log.lastIncludedIndexLocked at hidx
    refine Or.inr ⟨.install req.lastIncludedIndex req.lastIncludedTerm, rfl, ?_, ?_⟩
    · have hnn : 0 ≤ n.log.head.index := h.nonneg
      unfold maxIndex at hB
      exact ⟨by omega, by omega⟩
    · simp only [Log.perform, if_neg (not_le.mpr hidx)]
      obtain ⟨k, ⟨_, rfl⟩ | ⟨_, rfl⟩, heq⟩ := n.installLocked_eq req
      · rw [heq]
        rfl
      · rw [heq]
        rfl

/-- A compaction, as opposed to an update of the event's own. -/
def isCompact : Raw.Op → Bool
  | .compact _ => true
  | _ => false

/-- The slice goes from one to the other by updates of the code: those of `own`, in this order, and
compactions. -/
def Rewrites (own : List Raw.Op) (log log' : List LogEntry) : Prop :=
  ∃ ops, StepPath Raw.step (fun _ _ => True) log ops log' ∧
    ops.filter (fun op => !isCompact op) = own

/-- Updates in a row. -/
theorem Rewrites.append {own own' : List Raw.Op} {a b c : List LogEntry} (h : Rewrites own a b)
    (h' : Rewrites own' b c) : Rewrites (own ++ own') a c := by
  obtain ⟨ops, hops, rfl⟩ := h
  obtain ⟨ops', hops', rfl⟩ := h'
  exact ⟨ops ++ ops', hops.append hops', List.filter_append ops ops'⟩

/-- One update, done by the code. -/
theorem Rested.rewrites_perform {op : Raw.Op} (h : Rested maxIndex (body n))
    (hroom : n.log.Room op) :
    Rewrites (if isCompact op then [] else [op]) n.log.toList (n.log.perform op).toList := by
  refine ⟨[op], .cons trivial (Raw.step_eq h.fits hroom) (.nil _), ?_⟩
  cases hop : isCompact op with
  | true => simp [hop]
  | false => simp [hop]

/-- A phase makes its own update or a compaction, or none. -/
theorem Phase.rewrites {op : Option Raw.Op} (hstep : Phase maxIndex (· ≠ []) n op m)
    (h : Rested maxIndex (body n)) : Rewrites op.toList n.log.toList m.log.toList := by
  rcases hstep.performs h with ⟨rfl, hsame | ⟨i, hroom, hlog⟩⟩ | ⟨o, rfl, hroom, hlog⟩
  · rw [hsame]
    exact ⟨[], .nil _, rfl⟩
  · rw [hlog]
    exact h.rewrites_perform hroom
  · -- no phase is named for a compaction
    have hown : isCompact o = false := by cases hstep <;> rfl
    have hdone := h.rewrites_perform hroom
    rw [hown] at hdone
    rw [hlog]
    exact hdone

/-- Phases in a row make their updates in a row. -/
theorem Phases.rewrites {ops : List Raw.Op} (hrun : Phases maxIndex (· ≠ []) n ops m)
    (h : Rested maxIndex (body n)) : Rewrites ops n.log.toList m.log.toList := by
  induction hrun with
  | nil n => exact ⟨[], .nil _, rfl⟩
  | cons hstep _ ih => exact (hstep.rewrites h).append (ih (h.phase hstep))

/-- **What an event makes of the slice, the code makes of it** with the event's own update, if it
makes one, and compactions. -/
theorem Rested.rewrites {ev : Event} (h : Rested maxIndex (body n))
    (hev : Within maxIndex (· ≠ []) n ev) :
    ∃ own : Option Raw.Op, (∀ op ∈ own, Own n ev op) ∧
      Rewrites own.toList n.log.toList (Cluster.handle n ev).log.toList := by
  rcases phases_handle hev with hrun | ⟨op, hown, hrun⟩
  · exact ⟨none, by simp, hrun.rewrites h⟩
  · exact ⟨some op, by simpa using hown, hrun.rewrites h⟩

/-! ## The invariant -/

/-- A lookup finds exactly what lies between the first and the last index. -/
def Looks (log : List LogEntry) : Prop :=
  ∃ first last, Raw.lastIncludedIndexLocked log = some first ∧
    Raw.lastLogIndexLocked log = some last ∧
    ∀ i, IsInt i → ∃ r, Raw.entryAtLocked log i = some r ∧
      (r.isSome ↔ first ≤ i ∧ i ≤ last) ∧ ∀ e, r = some e → e.index = i

/-- A log that fits shows itself through the accessors. -/
theorem looks_of_fits {l : Log} (h : l.Fits) : Looks l.toList := by
  refine ⟨_, _, Raw.lastIncludedIndex_toList l, Raw.lastLogIndex_toList l, fun i hi =>
    ⟨_, Raw.entryAt_eq h hi, ⟨fun hsome => ?_, fun ⟨hlo, hhi⟩ => ?_⟩, fun e he => ?_⟩⟩
  -- an entry that is found lies between the first and the last index
  · obtain ⟨e, he⟩ := Option.isSome_iff_exists.mp hsome
    refine ⟨?_, Log.le_last_of_entryAt h.contiguous he⟩
    by_contra hlt
    rw [Log.entryAt_of_lt (not_le.mp hlt)] at he
    cases he
  -- and between them every entry is found
  · rw [Log.lastLogIndex_of_contiguous h.contiguous] at hhi
    obtain ⟨e, he⟩ := Log.entryAt_position (l := l) (q := (i - l.head.index).toNat) (by omega)
    rw [show l.head.index + ((i - l.head.index).toNat : Int) = i from by omega] at he
    rw [he]
    rfl
  · rcases Log.entryAt_cases he with ⟨rfl, rfl⟩ | ⟨k, rfl, hk⟩
    · rfl
    · exact h.contiguous k e hk

/-- What the slice of a node satisfies. -/
structure Represented (n : RaftNode σ) : Prop where
  /-- `log[k].Index` is `log[0].Index + k`. -/
  consecutive : ∀ (k : Nat) (e : LogEntry), n.log.toList[k]? = some e →
    e.index = n.log.head.index + k
  base_le_applied : n.log.lastIncludedIndexLocked ≤ n.lastApplied
  base_le_commit : n.log.lastIncludedIndexLocked ≤ n.commitIndex
  looks : Looks n.log.toList
  /-- No update is out of range, with any arguments, and none leaves an empty slice. -/
  updates : ∀ op, ∃ log : Log, Raw.step n.log.toList op = some log.toList
  /-- No other expression is out of range. -/
  reads : (∀ next, (Raw.entriesFrom n.log.toList next).isSome) ∧
    (Raw.behindDummy n.log.toList).isSome
  /-- What the model of the node does to the log in an event, the code does to the slice: with the
  event's own update, if it makes one, and compactions. -/
  rewrites : ∀ ev, Within maxIndex (· ≠ []) n ev →
    ∃ own : Option Raw.Op, (∀ op ∈ own, Own n ev op) ∧
    Rewrites own.toList n.log.toList (handle n ev).log.toList

/-- A node between events is represented. -/
theorem Rested.represented (h : Rested maxIndex (body n)) : Represented n where
  consecutive := by
    have hcont : n.log.Contiguous := h.contiguous
    intro k e he
    cases k with
    | zero =>
      cases he
      simp
    | succ k =>
      rw [hcont k e he]
      push_cast
      omega
  base_le_applied := h.base_le_applied
  base_le_commit := h.base_le_commit
  looks := looks_of_fits h.fits
  updates := Raw.step_total n.log
  reads := by
    refine ⟨fun next => ?_, by simp⟩
    obtain ⟨es, hes⟩ := Raw.entriesFrom_total n.log next
    simp [hes]
  rewrites := fun _ hev => h.rewrites hev

/-! A snapshot at the largest index is installed, and an entry behind it is accepted. -/

/-- A snapshot whose index is the largest `int`. -/
def farSnapshot : InstallSnapshotRequest where
  term := 1
  leaderID := "n1"
  lastIncludedIndex := 2 ^ 63 - 1
  lastIncludedTerm := 1
  data := [0]
  peers := threeNodes
  http := .empty

/-- An entry behind it. -/
def entryBehind : AppendEntriesRequest where
  term := 1
  leaderID := "n1"
  prevLogIndex := 2 ^ 63 - 1
  prevLogTerm := 1
  entries := [{ term := 1, index := 0 }]
  leaderCommit := 0

/-- A follower with that snapshot. -/
def farNode : RaftNode Unit :=
  handle (RaftNode.boot idle followerConfig (some {})) (.installSnapshot farSnapshot)

/-- **The index of the entry wraps around.** The slice then starts at the largest index and ends at
the smallest one, and the lookup of the largest one still succeeds. -/
theorem index_wraps_around :
    (farNode.handleAppendEntries entryBehind).2.success = true ∧
    ∃ log, Raw.step farNode.log.toList
        (.entries entryBehind.prevLogIndex entryBehind.prevLogTerm entryBehind.entries) = some log ∧
      ¬ Looks log := by
  refine ⟨by decide +kernel,
    [{ term := 1, index := 2 ^ 63 - 1 }, { term := 1, index := -2 ^ 63 }], by decide +kernel, ?_⟩
  rintro ⟨first, last, hfirst, hlast, hall⟩
  obtain rfl : 2 ^ 63 - 1 = first := Option.some.inj hfirst
  obtain rfl : -2 ^ 63 = last := Option.some.inj hlast
  -- the accessor finds the dummy, though its index is above the last one
  obtain ⟨r, hr, hiff, _⟩ := hall (2 ^ 63 - 1) ⟨by decide, by decide⟩
  have hfound : some (some { term := 1, index := 2 ^ 63 - 1 }) = some r :=
    (show Raw.entryAtLocked _ _ = _ from by decide +kernel).symm.trans hr
  cases hfound
  exact absurd (hiff.mp rfl).2 (by decide)

/-- **The log is a slice of consecutive indexes that starts at the snapshot** in every run in which
there is an index left for every entry. -/
theorem log_representation (hM : Substance M) (cfg : Config) {storage : Option Storage}
    {ls : List Life} (hnew : ∀ st, storage = some st → st.saved = [])
    (hrun : Lives M (Bounded maxIndex) (RaftNode.boot M cfg storage) ls n) : Represented n := by
  -- a node that has saved nothing
  have hstart : AllSaved (Ordinary maxIndex) storage := by
    intro st hst d hd
    rw [hnew st hst] at hd
    cases hd
  have hboot : Steady maxIndex (RaftNode.boot M cfg storage) :=
    steady_boot hM (by decide) cfg hstart
  have hsteady : Steady maxIndex n :=
    hrun.invariant (fun _ _ h hl => h.live hM (by decide) hl) hboot
  exact hsteady.rested.represented

/-! `n2` installs a snapshot, appends an entry behind it and is restarted. -/

/-- A snapshot of five entries. -/
def nearSnapshot : InstallSnapshotRequest where
  term := 1
  leaderID := "n1"
  lastIncludedIndex := 5
  lastIncludedTerm := 1
  data := [0]
  peers := threeNodes
  http := .empty

/-- An entry behind it. -/
def entryAfterSnapshot : AppendEntriesRequest where
  term := 1
  leaderID := "n1"
  prevLogIndex := 5
  prevLogTerm := 1
  entries := [{ term := 1, index := 0 }]
  leaderCommit := 0

/-- The snapshot, the entry, and a restart. -/
def caughtUp : List Life :=
  [.event (.installSnapshot nearSnapshot), .event (.appendEntries entryAfterSnapshot),
    .restart followerConfig]

/-- The node after that. -/
def caughtUpNode : RaftNode Unit :=
  caughtUp.foldl (live idle) (RaftNode.boot idle followerConfig (some {}))

theorem log_representation_sample :
    (caughtUpNode.log.toList.map (·.index) = [5, 6] ∧ caughtUpNode.lastApplied = 5) ∧
      Represented caughtUpNode := by
  have hrun : Lives idle (Bounded maxIndex) (RaftNode.boot idle followerConfig (some {})) caughtUp
      caughtUpNode := by
    refine .cons ⟨by decide, by decide⟩ rfl (.cons ?_ rfl (.cons trivial rfl (.nil _)))
    show Log.lastLogIndexLocked _ + _ ≤ maxIndex
    decide +kernel
  refine ⟨by decide +kernel, log_representation idle_substance followerConfig ?_ hrun⟩
  intro st hst
  cases hst
  rfl

end Node
