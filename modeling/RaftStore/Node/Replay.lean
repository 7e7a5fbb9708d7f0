import RaftStore.Node.Recovery

/-!
# The state machine and the log

The state machine is moved by the apply callback, by compaction inside it, by an installed snapshot
and by the two restores of a start. `Replayed` is what all of them keep: the machine has the state
of the snapshot, with the entries from there to `lastApplied` applied to it in order.

* `kept_replayed`, `accepts_replayed`: every section keeps it, if a merge spares what was applied
  (`Spares`) and a snapshot can be restored;
* `replayed_boot`: a start from storage establishes it, since every recorded state carries a log and
  a snapshot that fit each other (`Recorded`).
-/

namespace Node

open Raft Cluster

variable {σ : Type} {M : Machine σ} {ok : σ → Prop} {n m m' : RaftNode σ} {d : DurableState}
  {log : Log} {snapshot : Bytes} {x : σ}

/-! ## Replay -/

/-- What an entry does to the state machine; a membership change does nothing. -/
def applied (M : Machine σ) (x : σ) (e : LogEntry) : σ :=
  match e.change with
  | none => M.apply x { index := e.index, command := e.command }
  | some _ => x

/-- The state that a snapshot stands for: the initial one if there is none. -/
def baseState (M : Machine σ) (snapshot : Bytes) : Option σ :=
  if snapshot = [] then some M.init else M.snapshotter.restore M.init snapshot

/-- What is asked of the snapshot hook, on the states `ok` that the machine can have: a snapshot is
not empty and gives the state back, and what a restore leads to depends on the snapshot only. -/
structure Restoring (M : Machine σ) (ok : σ → Prop) : Prop where
  init : ok M.init
  apply : ∀ x msg, ok x → ok (M.apply x msg)
  restore : ∀ x y data, M.snapshotter.restore x data = some y → ok y
  anywhere : ∀ x y data, M.snapshotter.restore x data = M.snapshotter.restore y data
  snapshot : ∀ x data, ok x → M.snapshotter.snapshot x = some data →
    data ≠ [] ∧ M.snapshotter.restore M.init data = some x

theorem Restoring.foldl (hM : Restoring M ok) (hx : ok x) (es : List LogEntry) :
    ok (es.foldl (applied M) x) := by
  induction es generalizing x with
  | nil => exact hx
  | cons e rest ih =>
    refine ih ?_
    unfold applied
    split
    · exact hM.apply x _ hx
    · exact hx

theorem Restoring.base_ok (hM : Restoring M ok) (hx : baseState M snapshot = some x) : ok x := by
  unfold baseState at hx
  split at hx
  · cases hx
    exact hM.init
  · exact hM.restore _ _ _ hx

/-- A log and a snapshot that fit each other. -/
structure Recorded (M : Machine σ) (snapshot : Bytes) (log : Log) : Prop where
  contiguous : log.Contiguous
  restorable : ∃ x, baseState M snapshot = some x
  fresh : snapshot = [] → log.head.index = 0

/-- The state machine has the snapshot, and the entries from there to `lastApplied`. -/
structure Replayed (M : Machine σ) (n : RaftNode σ) : Prop where
  apply_eq : n.apply = some M.apply
  snapshotter_eq : n.snapshotter = some M.snapshotter
  recorded : Recorded M n.snapshot n.log
  base_le : n.log.head.index ≤ n.lastApplied
  applied_le : n.lastApplied ≤ n.log.head.index + n.log.tail.length
  machine_eq : ∀ x, baseState M n.snapshot = some x →
    n.machine = (n.log.tail.take (n.lastApplied - n.log.head.index).toNat).foldl (applied M) x

/-! ## The sections of a node on its own -/

/-- Entries that were not there yet are not applied yet. -/
theorem Replayed.extend (h : Replayed M m) {tail : List LogEntry}
    (hlog : Log.Contiguous ⟨m.log.head, tail⟩)
    (hkeep : tail.take (m.lastApplied - m.log.head.index).toNat =
      m.log.tail.take (m.lastApplied - m.log.head.index).toNat) :
    Replayed M { m with log := ⟨m.log.head, tail⟩ } where
  apply_eq := h.apply_eq
  snapshotter_eq := h.snapshotter_eq
  recorded := { h.recorded with contiguous := hlog }
  base_le := h.base_le
  applied_le := by
    have hlen := congrArg List.length hkeep
    rw [List.length_take, List.length_take] at hlen
    have := h.base_le
    have := h.applied_le
    show m.lastApplied ≤ m.log.head.index + tail.length
    omega
  machine_eq := by
    intro x hx
    show m.machine = (tail.take _).foldl (applied M) x
    rw [hkeep]
    exact h.machine_eq x hx

theorem Replayed.append (h : Replayed M m) {e : LogEntry}
    (hidx : e.index = m.log.lastLogIndexLocked + 1) :
    Replayed M { m with log := m.log.append [e] } := by
  refine h.extend (h.recorded.contiguous.append hidx) (List.take_append_of_le_length ?_)
  have := h.applied_le
  omega

theorem Replayed.applyNext (h : Replayed M m) {e : LogEntry}
    (he : m.log.entryAtLocked (m.lastApplied + 1) = some e) :
    Replayed M (m.applyNext (m.lastApplied + 1) e) := by
  obtain ⟨k, hk⟩ : ∃ k : Nat, m.lastApplied = m.log.head.index + k :=
    ⟨(m.lastApplied - m.log.head.index).toNat, by have := h.base_le; omega⟩
  have hget : m.log.tail[k]? = some e := by
    rw [← Log.entryAt_tail, ← he]
    congr 1
    omega
  have hlt := (List.getElem?_eq_some_iff.mp hget).1
  have hindex : m.lastApplied + 1 = e.index := by
    rw [h.recorded.contiguous k e hget, hk]
    omega
  have hmachine : ∀ x, baseState M m.snapshot = some x → applied M m.machine e =
      (m.log.tail.take (m.lastApplied + 1 - m.log.head.index).toNat).foldl (applied M) x := by
    intro x hx
    rw [h.machine_eq x hx, show (m.lastApplied - m.log.head.index).toNat = k from by omega,
      show (m.lastApplied + 1 - m.log.head.index).toNat = k + 1 from by omega, List.take_add_one,
      hget, Option.toList_some, List.foldl_append]
    rfl
  have hle : m.lastApplied + 1 ≤ m.log.head.index + m.log.tail.length := by omega
  have hbase : m.log.head.index ≤ m.lastApplied + 1 := by omega
  unfold applied at hmachine
  cases hch : e.change with
  | none =>
    rw [RaftNode.applyNext_of_none h.apply_eq hch]
    rw [hch, ← hindex] at hmachine
    exact { h with base_le := hbase, applied_le := hle, machine_eq := hmachine }
  | some ch =>
    rw [RaftNode.applyNext_of_some hch]
    rw [hch] at hmachine
    exact { h with base_le := hbase, applied_le := hle, machine_eq := hmachine }

theorem Replayed.compactTo (hM : Restoring M ok) (h : Replayed M m) {e : LogEntry} {data : Bytes}
    (hdata : M.snapshotter.snapshot m.machine = some data) :
    Replayed M (m.compactTo m.lastApplied e data) := by
  obtain ⟨x, hx⟩ := h.recorded.restorable
  have hok : ok m.machine := by
    rw [h.machine_eq x hx]
    exact hM.foldl (hM.base_ok hx) _
  obtain ⟨hne, hrestore⟩ := hM.snapshot _ _ hok hdata
  have hbase : baseState M data = some m.machine := (if_neg hne).trans hrestore
  exact
    { apply_eq := h.apply_eq
      snapshotter_eq := h.snapshotter_eq
      recorded := ⟨h.recorded.contiguous.drop h.base_le, ⟨_, hbase⟩, fun hnil => absurd hnil hne⟩
      base_le := le_refl m.lastApplied
      applied_le := by
        show m.lastApplied ≤ m.lastApplied + (List.length _ : Int)
        omega
      machine_eq := by
        intro y hy
        obtain rfl : m.machine = y := Option.some.inj (hbase.symm.trans hy)
        -- nothing behind the snapshot is applied
        show m.machine = List.foldl _ _ (List.take (m.lastApplied - m.lastApplied).toNat _)
        rw [Int.sub_self]
        rfl }

theorem kept_replayed (hM : Restoring M ok) : Kept (Replayed M) where
  minor := by
    intro m m' hstep h
    cases hstep with
    | volatile v => exact { h with }
    | ballot term vote _ => exact { h with }
    | apply e _ he => exact h.applyNext he
    | compact e data s _ _ hs hdata =>
      obtain rfl : s = M.snapshotter := Option.some.inj (hs.symm.trans h.snapshotter_eq)
      exact h.compactTo hM hdata
  append := fun _ hidx h => { h.append hidx with }
  change := fun {m ch c} _ h =>
    { Replayed.append h (e := changeEntry m ch c) rfl with }

/-! ## What others send -/

/-- If the node takes the request over, it does not conflict with an entry that was applied. -/
def Spares (n : RaftNode σ) (req : AppendEntriesRequest) : Prop :=
  n.currentTerm ≤ req.term → n.PrevMatches req → ∀ (k : Nat) (e x : LogEntry),
    req.entries[k]? = some e →
    n.log.entryAtLocked (req.prevLogIndex + 1 + k) = some x →
    req.prevLogIndex + 1 + k ≤ n.lastApplied → x.term = e.term

/-- The snapshot can be restored. -/
def Restores (M : Machine σ) (req : InstallSnapshotRequest) : Prop :=
  req.data ≠ [] ∧ ∃ x, M.snapshotter.restore M.init req.data = some x

/-- What others send leaves what was applied alone, or replaces it as a whole. -/
def Gentle (M : Machine σ) (n : RaftNode σ) : Event → Prop
  | .appendEntries req => Spares n req
  | .installSnapshot req => Restores M req
  | _ => True

/-- **A merge that spares what was applied** keeps those entries. -/
theorem take_merge {req : AppendEntriesRequest}
    (hle : m.lastApplied ≤ m.log.head.index + m.log.tail.length)
    (hprev : m.PrevMatches req) (hsp : ∀ (k : Nat) (e x : LogEntry), req.entries[k]? = some e →
      m.log.entryAtLocked (req.prevLogIndex + 1 + k) = some x →
      req.prevLogIndex + 1 + k ≤ m.lastApplied → x.term = e.term) :
    (m.log.mergeEntries req.entries (req.prevLogIndex + 1)).1.tail.take
        (m.lastApplied - m.log.head.index).toNat =
      m.log.tail.take (m.lastApplied - m.log.head.index).toNat := by
  obtain ⟨q, hq, hidx⟩ := Log.exists_position hprev.1 hprev.2
  have hstart : req.prevLogIndex + 1 = m.log.head.index + 1 + q := by omega
  obtain ⟨j, _, hmatch, ⟨_, heq⟩ | ⟨hless, hne, heq⟩⟩ :=
    Log.mergeEntries_cases req.entries hstart hq
  · rw [heq]
  · rw [heq]
    -- the first conflict is behind what was applied
    have hbeyond : (m.lastApplied - m.log.head.index).toNat ≤ q + j := by
      by_contra hlt
      push Not at hlt
      have hx : q + j < m.log.tail.length := by omega
      refine hne m.log.tail[q + j] req.entries[j] (List.getElem?_eq_getElem hx)
        (List.getElem?_eq_getElem hless) (hsp j _ _ (List.getElem?_eq_getElem hless) ?_ ?_)
      · rw [show req.prevLogIndex + 1 + (j : Int) = m.log.head.index + 1 +
          ((q + j : Nat) : Int) from
          by omega, Log.entryAt_tail]
        exact List.getElem?_eq_getElem hx
      · omega
    have hcut := hmatch.length_take hq
    show ((m.log.tail.take (q + j)) ++ _).take _ = _
    rw [List.take_append_of_le_length (by omega), List.take_take, min_eq_left hbeyond]

theorem Replayed.merge (h : Replayed M m) {req : AppendEntriesRequest} (hprev : m.PrevMatches req)
    (hsp : ∀ (k : Nat) (e x : LogEntry), req.entries[k]? = some e →
      m.log.entryAtLocked (req.prevLogIndex + 1 + k) = some x →
      req.prevLogIndex + 1 + k ≤ m.lastApplied → x.term = e.term) :
    Replayed M (m.mergeLocked req) := by
  rcases m.mergeLocked_cases req with hsame | hmerged
  · rw [hsame]
    exact h
  · obtain ⟨q, hq, hidx⟩ := Log.exists_position hprev.1 hprev.2
    have hcont : (m.log.mergeEntries req.entries (req.prevLogIndex + 1)).1.Contiguous :=
      h.recorded.contiguous.merge (show req.prevLogIndex + 1 = m.log.head.index + 1 + q by omega) hq
    have htake := take_merge h.applied_le hprev hsp
    have hhead : (m.log.mergeEntries req.entries (req.prevLogIndex + 1)).1.head = m.log.head :=
      Log.head_mergeEntries
    rw [hmerged]
    generalize (m.log.mergeEntries req.entries (req.prevLogIndex + 1)).1 = merged
      at hcont htake hhead ⊢
    obtain ⟨head, tail⟩ := merged
    obtain rfl : head = m.log.head := hhead
    exact { h.extend hcont htake with }

theorem Replayed.install (hM : Restoring M ok) (h : Replayed M m) {req : InstallSnapshotRequest}
    (hreq : Restores M req) : Replayed M (m.installLocked req) := by
  obtain ⟨hne, x, hx⟩ := hreq
  have hbase : baseState M req.data = some x := (if_neg hne).trans hx
  -- a restore does not depend on the state it overwrites
  have hrestored : m.restored req.data = x := by
    unfold RaftNode.restored
    rw [h.snapshotter_eq]
    dsimp only
    rw [if_neg hne, hM.anywhere m.machine M.init, hx]
    rfl
  have hempty : Log.Contiguous
      ⟨{ term := req.lastIncludedTerm, index := req.lastIncludedIndex }, []⟩ := by
    intro k e he
    cases he
  -- whether the configuration is taken over makes no difference to what is replayed
  obtain ⟨k, hk, heq⟩ := m.installLocked_eq req
  have hfields : k.apply = m.apply ∧ k.snapshotter = m.snapshotter ∧ k.snapshot = req.data ∧
      k.log = ⟨{ term := req.lastIncludedTerm, index := req.lastIncludedIndex }, []⟩ := by
    rcases hk with ⟨_, rfl⟩ | ⟨_, rfl⟩
    · exact ⟨rfl, rfl, rfl, rfl⟩
    · exact ⟨rfl, rfl, rfl, rfl⟩
  obtain ⟨happly, hsn, hsnap, hlog⟩ := hfields
  rw [heq, hrestored]
  exact
    { apply_eq := happly.trans h.apply_eq
      snapshotter_eq := hsn.trans h.snapshotter_eq
      recorded := by
        show Recorded M k.snapshot k.log
        rw [hsnap, hlog]
        exact ⟨hempty, ⟨x, hbase⟩, fun hnil => absurd hnil hne⟩
      base_le := by
        show k.log.head.index ≤ req.lastIncludedIndex
        rw [hlog]
      applied_le := by
        show req.lastIncludedIndex ≤ k.log.head.index + k.log.tail.length
        rw [hlog]
        show req.lastIncludedIndex ≤ req.lastIncludedIndex + (0 : Nat)
        omega
      machine_eq := by
        intro y hy
        have hy' : baseState M k.snapshot = some y := hy
        rw [hsnap] at hy'
        obtain rfl : x = y := Option.some.inj (hbase.symm.trans hy')
        show x = List.foldl _ _ (k.log.tail.take _)
        rw [hlog, List.take_nil]
        rfl }

/-- A request of an earlier term does nothing. -/
theorem handle_of_stale {req : AppendEntriesRequest} (h : req.term < n.currentTerm) :
    handle n (.appendEntries req) = n := by
  have hstale : n.handleAppendEntries req = (n, _) := if_pos h
  simp only [handle, hstale]

theorem accepts_replayed (hM : Restoring M ok) {ev : Event} (hev : Gentle M n ev)
    (hterm : ∀ req, ev = .appendEntries req → n.currentTerm ≤ req.term) :
    Accepts (Replayed M) n ev := by
  cases ev with
  | appendEntries req =>
    intro m hlog hla hprev h
    have hprev' : m.PrevMatches req := by
      unfold RaftNode.PrevMatches at hprev ⊢
      rwa [hlog]
    refine h.merge hprev' ?_
    intro k e y he hy hle
    rw [hlog] at hy
    rw [hla] at hle
    exact hev (hterm req rfl) hprev k e y he hy hle
  | installSnapshot req => exact fun m _ _ h => h.install hM hev
  | _ => trivial

/-! ## A start -/

/-- A restore that succeeds brings both indexes up to the snapshot. -/
theorem restoreSnapshot_of_some {s : Snapshotter σ} (hs : n.snapshotter = some s)
    (hne : n.snapshot ≠ []) (hx : s.restore n.machine n.snapshot = some x) :
    n.restoreSnapshotLocked = { n with
      machine := x
      lastApplied := if n.lastApplied < n.log.lastIncludedIndexLocked then
        n.log.lastIncludedIndexLocked else n.lastApplied
      commitIndex := if n.commitIndex < n.log.lastIncludedIndexLocked then
        n.log.lastIncludedIndexLocked else n.commitIndex } := by
  unfold RaftNode.restoreSnapshotLocked
  split
  · next hnone =>
    rw [hs] at hnone
    cases hnone
  · next s' hs' =>
    obtain rfl : s = s' := Option.some.inj (hs.symm.trans hs')
    rw [if_neg hne]
    dsimp only
    split
    · next hnone =>
      rw [hx] at hnone
      cases hnone
    · next y hy =>
      obtain rfl : x = y := Option.some.inj (hx.symm.trans hy)
      rfl

/-- The node stands at its snapshot. -/
structure AtBase (M : Machine σ) (snapshot : Bytes) (log : Log) (n : RaftNode σ) : Prop where
  snapshotter_eq : n.snapshotter = some M.snapshotter
  snapshot_eq : n.snapshot = snapshot
  log_eq : n.log = log
  lastApplied_eq : n.lastApplied = log.head.index
  machine_eq : baseState M snapshot = some n.machine

/-- Restoring the snapshot once more changes nothing. -/
theorem AtBase.restore (hM : Restoring M ok) (h : AtBase M snapshot log n) :
    AtBase M snapshot log n.restoreSnapshotLocked := by
  by_cases hnil : n.snapshot = []
  · rw [RaftNode.restoreSnapshot_of_nil hnil]
    exact h
  · have hbase := h.machine_eq
    rw [← h.snapshot_eq, baseState, if_neg hnil, hM.anywhere M.init n.machine] at hbase
    rw [restoreSnapshot_of_some h.snapshotter_eq hnil hbase]
    have hidx : n.lastApplied = n.log.lastIncludedIndexLocked :=
      h.lastApplied_eq.trans (congrArg (fun l : Log => l.head.index) h.log_eq.symm)
    refine { h with lastApplied_eq := ?_ }
    show (if n.lastApplied < n.log.lastIncludedIndexLocked then _ else n.lastApplied) = _
    rw [if_neg (by omega)]
    exact h.lastApplied_eq

/-- What is loaded, whatever becomes of the base configuration. -/
theorem load_fields (n : RaftNode σ) (hlog : d.log = log.toList) : ∃ peers http,
    n.load d = { n with
      currentTerm := d.currentTerm, votedFor := d.votedFor, snapshot := d.snapshot, log := log
      basePeers := peers, baseHTTP := http } := by
  unfold RaftNode.load
  rw [hlog]
  dsimp only [Log.toList]
  split
  · exact ⟨_, _, rfl⟩
  · exact ⟨_, _, rfl⟩

theorem AtBase.recover (hM : Restoring M ok) (hn : AtBase M [] ⟨{ term := 0, index := 0 }, []⟩ n)
    (hlog : d.log = log.toList) (hd : Recorded M d.snapshot log) :
    AtBase M d.snapshot log (n.recover d) := by
  obtain ⟨peers, http, hload⟩ := load_fields n hlog
  obtain ⟨x, hx⟩ := hd.restorable
  -- the two steps after the load
  have hrestore : ∀ k : RaftNode σ, k = (if (n.load d).snapshot ≠ [] then { n.load d with
      lastApplied := (n.load d).log.lastIncludedIndexLocked
      commitIndex := (n.load d).log.lastIncludedIndexLocked } else n.load d) →
      AtBase M d.snapshot log k.restoreSnapshotLocked := by
    rintro k rfl
    rw [hload]
    by_cases hnil : d.snapshot = []
    · rw [if_neg (not_not.mpr hnil), RaftNode.restoreSnapshot_of_nil (by exact hnil)]
      exact
        { snapshotter_eq := hn.snapshotter_eq
          snapshot_eq := rfl
          log_eq := rfl
          lastApplied_eq := hn.lastApplied_eq.trans (hd.fresh hnil).symm
          machine_eq := by
            rw [hnil]
            exact hn.machine_eq }
    · rw [if_pos hnil]
      have hx' : M.snapshotter.restore n.machine d.snapshot = some x := by
        rw [hM.anywhere n.machine M.init, ← hx, baseState, if_neg hnil]
      rw [restoreSnapshot_of_some (s := M.snapshotter) (x := x) (by exact hn.snapshotter_eq)
        (by exact hnil) (by exact hx')]
      exact
        { snapshotter_eq := hn.snapshotter_eq
          snapshot_eq := rfl
          log_eq := rfl
          lastApplied_eq := by
            show (if log.lastIncludedIndexLocked < log.lastIncludedIndexLocked then _ else _) = _
            rw [if_neg (lt_irrefl _)]
            rfl
          machine_eq := hx }
  have hdone := hrestore _ rfl
  unfold RaftNode.recover
  dsimp only
  generalize (if (n.load d).snapshot ≠ [] then { n.load d with
      lastApplied := (n.load d).log.lastIncludedIndexLocked
      commitIndex := (n.load d).log.lastIncludedIndexLocked } else n.load d) = k at hdone ⊢
  split
  · exact { hdone with }
  · exact { hdone with }

theorem atBase_fresh (cfg : Config) (storage : Option Storage) :
    AtBase M [] ⟨{ term := 0, index := 0 }, []⟩
      (RaftNode.fresh cfg storage (some M.snapshotter) M.init) :=
  ⟨rfl, rfl, rfl, rfl, rfl⟩

/-- A recorded state whose log and snapshot fit. -/
def Fits (M : Machine σ) (d : DurableState) : Prop :=
  ∃ log, d.log = log.toList ∧ Recorded M d.snapshot log

theorem recorded_fresh : Recorded M [] ⟨{ term := 0, index := 0 }, []⟩ :=
  ⟨fun _ _ he => absurd he (by simp), ⟨M.init, rfl⟩, fun _ => rfl⟩

theorem atBase_newNode (hM : Restoring M ok) (cfg : Config) {storage : Option Storage}
    (hfit : AllSaved (Fits M) storage) : ∃ snapshot log, Recorded M snapshot log ∧
      AtBase M snapshot log (RaftNode.newNode cfg storage (some M.snapshotter) M.init) := by
  cases storage with
  | none => exact ⟨_, _, recorded_fresh, atBase_fresh cfg none⟩
  | some st =>
    cases hst : st.saved with
    | nil =>
      rw [newNode_of_nil hst]
      exact ⟨_, _, recorded_fresh, atBase_fresh cfg (some st)⟩
    | cons d rest =>
      obtain ⟨log, hlog, hd⟩ := hfit st rfl d (by rw [hst]; exact List.mem_cons_self)
      rw [newNode_eq (by rw [hst]; rfl) hlog]
      exact ⟨_, log, hd, (atBase_fresh cfg (some st)).recover hM hlog hd⟩

/-- **A start** from recorded states that fit. -/
theorem replayed_boot (hM : Restoring M ok) (cfg : Config) {storage : Option Storage}
    (hfit : AllSaved (Fits M) storage) : Replayed M (RaftNode.boot M cfg storage) := by
  obtain ⟨snapshot, log, hd, hnew⟩ := atBase_newNode hM cfg hfit
  have hwired : AtBase M snapshot log
      { RaftNode.newNode cfg storage (some M.snapshotter) M.init with
      apply := some M.apply } := { hnew with }
  have hdone := hwired.restore hM
  obtain ⟨x, la, ci, hx⟩ := RaftNode.restoreSnapshot_fields { RaftNode.newNode cfg storage
    (some M.snapshotter) M.init with apply := some M.apply }
  unfold RaftNode.boot
  dsimp only at hx ⊢
  rw [hx] at hdone ⊢
  have hsnap := hdone.snapshot_eq
  have hlog := hdone.log_eq
  have hla := hdone.lastApplied_eq
  have hbase := hdone.machine_eq
  dsimp only at hsnap hlog hla hbase
  exact
    { apply_eq := rfl
      snapshotter_eq := hdone.snapshotter_eq
      recorded := by
        dsimp only
        rw [hsnap, hlog]
        exact hd
      base_le := by
        dsimp only
        rw [hlog, hla]
      applied_le := by
        dsimp only
        rw [hlog, hla]
        omega
      machine_eq := by
        intro y hy
        dsimp only at hy ⊢
        rw [hsnap] at hy
        obtain rfl : x = y := Option.some.inj (hbase.symm.trans hy)
        rw [hlog, hla, Int.sub_self]
        rfl }

/-! ## Along the life of a node -/

/-- The state machine is in order, and so is every state that was saved. -/
structure Ordered (M : Machine σ) (n : RaftNode σ) : Prop where
  replayed : Replayed M n
  fits : AllSaved (Fits M) n.storage

/-- **One section**, and what it saves. -/
theorem Replayed.handle (hM : Restoring M ok) (h : Replayed M n) {ev : Event}
    (hev : Gentle M n ev) :
    Replayed M (handle n ev) ∧ Saved (Fits M) n (Cluster.handle n ev) := by
  by_cases hstale : ∃ req, ev = .appendEntries req ∧ req.term < n.currentTerm
  · obtain ⟨req, rfl, hlt⟩ := hstale
    rw [handle_of_stale hlt]
    exact ⟨h, Saved.refl _ n⟩
  · have hacc := accepts_replayed hM hev
      (fun req hreq => not_lt.mp (fun hlt => hstale ⟨req, hreq, hlt⟩))
    exact ⟨(kept_replayed hM).handle hacc h,
      (kept_replayed hM).saved (fun m hm => ⟨m.log, rfl, hm.recorded⟩) hacc h⟩

theorem Ordered.handle (hM : Restoring M ok) (h : Ordered M n) {ev : Event}
    (hev : Gentle M n ev) : Ordered M (handle n ev) where
  replayed := (h.replayed.handle hM hev).1
  fits := (h.replayed.handle hM hev).2.all h.fits

/-- The same of the steps of a life. -/
def GentleLife (M : Machine σ) (n : RaftNode σ) : Life → Prop
  | .event ev => Gentle M n ev
  | .restart _ => True
  | .crashDuring ev _ _ => Gentle M n ev

theorem ordered_boot (hM : Restoring M ok) (cfg : Config) {storage : Option Storage}
    (hfit : AllSaved (Fits M) storage) : Ordered M (RaftNode.boot M cfg storage) where
  replayed := replayed_boot hM cfg hfit
  fits := by
    rw [storage_boot]
    exact hfit

/-- **One step.** -/
theorem Ordered.live (hM : Restoring M ok) (h : Ordered M n) {l : Life} (hok : GentleLife M n l) :
    Ordered M (live M n l) := by
  cases l with
  | event ev => exact h.handle hM hok
  | restart cfg => exact ordered_boot hM cfg h.fits
  | crashDuring ev saves cfg =>
    exact ordered_boot hM cfg ((h.replayed.handle hM hok).2.all_cut h.fits saves)

/-- **A run.** -/
theorem ordered_of_lives (hM : Restoring M ok) {cfg : Config} {storage : Option Storage}
    (hfit : AllSaved (Fits M) storage) {ls : List Life}
    (hrun : Lives M (GentleLife M) (RaftNode.boot M cfg storage) ls n) : Ordered M n :=
  hrun.invariant (fun _ _ h hok => h.live hM hok) (ordered_boot hM cfg hfit)

end Node
