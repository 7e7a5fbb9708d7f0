import RaftStore.Refine.History
import RaftStore.Raft.Boot

/-!
# What a history means

The two readings of a history that the protocol and the clients depend on: the
configuration its membership changes lead to (`peersAfter`, the `Consensus.Scheme` of this
program), and the state of the state machine after applying it (`replay`).

A node that joins later is started with itself as its only peer, so the configuration it
folds its log onto is not the cluster's. `Placed` allows for this: a base that is one
joining node alone may stand under a history without any change, and the first change in
the log, which carries the whole configuration, puts it right (`Placed.peersAfter`).
-/

namespace Refine

open Raft Consensus

variable {σ : Type}

/-! ## Configurations -/

/-- The configuration after the changes of a history. -/
def peersAfter (c : AddrMap) (h : List LogEntry) : AddrMap := (h.foldl applyEntry (c, .empty)).1

/-- A change carries a configuration, and none of its members is nameless. -/
def Sound (e : LogEntry) : Prop :=
  ∀ ch, e.change = some ch → ch.peers.isEmpty = false ∧ "" ∉ ch.peers.keys

variable {c c' : AddrMap} {h g : List LogEntry} {e : LogEntry}

theorem fst_applyEntry (c x y : AddrMap) (e : LogEntry) :
    (applyEntry (c, x) e).1 = (applyEntry (c, y) e).1 := by
  unfold applyEntry applyChange
  -- every branch of `applyChange` sets the peers from the peers
  cases e.change with
  | none => rfl
  | some ch =>
    dsimp only
    split
    · rfl
    split
    · rfl
    · split <;> rfl

/-- HTTP addresses have no influence on the configuration. -/
theorem fst_foldl_applyEntry (c x : AddrMap) (h : List LogEntry) :
    (h.foldl applyEntry (c, x)).1 = peersAfter c h := by
  suffices hxy : ∀ y, (h.foldl applyEntry (c, x)).1 = (h.foldl applyEntry (c, y)).1 from hxy .empty
  induction h generalizing c x with
  | nil => intro y; rfl
  | cons e rest ih =>
    intro y
    have hfst := fst_applyEntry c x y e
    rw [List.foldl_cons, List.foldl_cons, ← Prod.mk.eta (p := applyEntry (c, x) e),
      ← Prod.mk.eta (p := applyEntry (c, y) e), hfst]
    exact ih _ _ _

theorem peersAfter_append (c : AddrMap) (h g : List LogEntry) :
    peersAfter c (h ++ g) = peersAfter (peersAfter c h) g := by
  unfold peersAfter
  rw [List.foldl_append, ← Prod.mk.eta (p := h.foldl applyEntry (c, .empty)), fst_foldl_applyEntry,
    fst_foldl_applyEntry]
  rfl

theorem peersAfter_snoc_none (he : e.change = none) : peersAfter c (h ++ [e]) = peersAfter c h := by
  rw [peersAfter_append]
  show (applyEntry (peersAfter c h, .empty) e).1 = _
  unfold applyEntry
  rw [he]

theorem peersAfter_snoc_some {ch : MembershipChange} (he : e.change = some ch) (hs : Sound e) :
    peersAfter c (h ++ [e]) = ch.peers := by
  rw [peersAfter_append]
  show (applyEntry (peersAfter c h, .empty) e).1 = _
  unfold applyEntry applyChange
  simp [he, (hs ch he).1]

theorem peersAfter_of_none (hnone : ∀ e ∈ h, e.change = none) : peersAfter c h = c := by
  induction h using List.reverseRecOn with
  | nil => rfl
  | append_singleton l e ih =>
    rw [peersAfter_snoc_none (hnone e (by simp))]
    exact ih (fun x hx => hnone x (by simp [hx]))

/-- Once a history holds a change, it no longer matters what it is folded onto. -/
theorem peersAfter_eq_of_some (hs : ∀ e ∈ h, Sound e) (hsome : ∃ e ∈ h, e.change ≠ none) :
    peersAfter c h = peersAfter c' h := by
  induction h using List.reverseRecOn with
  | nil =>
    obtain ⟨e, he, _⟩ := hsome
    cases he
  | append_singleton l e ih =>
    -- the last change decides
    cases hc : e.change with
    | some ch =>
      rw [peersAfter_snoc_some hc (hs e (by simp)), peersAfter_snoc_some hc (hs e (by simp))]
    | none =>
      rw [peersAfter_snoc_none hc, peersAfter_snoc_none hc]
      refine ih (fun x hx => hs x (by simp [hx])) ?_
      obtain ⟨x, hx, hne⟩ := hsome
      rw [List.mem_append, List.mem_singleton] at hx
      rcases hx with hx | rfl
      · exact ⟨x, hx, hne⟩
      · exact absurd hc hne

/-- A history either has no change, or ends in the configuration of a change of its. -/
theorem peersAfter_cases (c : AddrMap) (hs : ∀ e ∈ h, Sound e) :
    peersAfter c h = c ∨ ∃ e ∈ h, ∃ ch, e.change = some ch ∧ peersAfter c h = ch.peers := by
  induction h using List.reverseRecOn with
  | nil => exact Or.inl rfl
  | append_singleton l e ih =>
    cases hc : e.change with
    | some ch =>
      exact Or.inr ⟨e, by simp, ch, hc, peersAfter_snoc_some hc (hs e (by simp))⟩
    | none =>
      rw [peersAfter_snoc_none hc]
      rcases ih (fun x hx => hs x (by simp [hx])) with hl | ⟨x, hx, ch, hch, hl⟩
      · exact Or.inl hl
      · exact Or.inr ⟨x, by simp [hx], ch, hch, hl⟩

theorem peersAfter_isEmpty (hc : c.isEmpty = false) (hs : ∀ e ∈ h, Sound e) :
    (peersAfter c h).isEmpty = false := by
  rcases peersAfter_cases c hs with heq | ⟨e, he, ch, hch, heq⟩
  · rw [heq]; exact hc
  · rw [heq]; exact (hs e he ch hch).1

theorem nameless_not_mem (hc : "" ∉ c.keys) (hs : ∀ e ∈ h, Sound e) :
    "" ∉ (peersAfter c h).keys := by
  rcases peersAfter_cases c hs with heq | ⟨e, he, ch, hch, heq⟩
  · rw [heq]; exact hc
  · rw [heq]; exact (hs e he ch hch).2

/-- The scheme of the replicated log: entries carry their term, and a log determines the
configuration that its node votes and counts with. -/
def scheme (members : AddrMap) : Scheme String LogEntry where
  termOf := fun e => e.term
  isConf := fun e => e.change ≠ none
  conf := fun h => (peersAfter members h).keys.toFinset
  conf_snoc := by
    intro l e he
    rw [peersAfter_snoc_none (not_not.mp he)]

/-! ## The base a node folds its log onto -/

/-- `base` is the cluster's configuration after `h`, or, where nodes may join, a joining
node alone under a history without changes. -/
def Placed (members : AddrMap) (joiners : Prop) (base : AddrMap) (h : List LogEntry) : Prop :=
  base = peersAfter members h ∨
    (joiners ∧ (∃ j, j ∉ members.keys ∧ base.keys = [j]) ∧ ∀ e ∈ h, e.change = none)

variable {members base : AddrMap} {joiners : Prop}

theorem Placed.append (hp : Placed members joiners base h) (hs : ∀ e ∈ g, Sound e) :
    Placed members joiners (peersAfter base g) (h ++ g) := by
  rcases hp with rfl | ⟨hj, hbase, hnone⟩
  · exact Or.inl (peersAfter_append _ _ _).symm
  -- a change in the rest decides; without one nothing has changed
  · by_cases hsome : ∃ e ∈ g, e.change ≠ none
    · refine Or.inl ?_
      rw [peersAfter_append]
      exact peersAfter_eq_of_some hs hsome
    · push Not at hsome
      refine Or.inr ⟨hj, ?_, ?_⟩
      · rw [peersAfter_of_none hsome]
        exact hbase
      · intro e he
        rcases List.mem_append.mp he with he | he
        · exact hnone e he
        · exact hsome e he

theorem Placed.isEmpty_eq_false (hp : Placed members joiners base h)
    (hm : members.isEmpty = false) (hs : ∀ e ∈ h, Sound e) : base.isEmpty = false := by
  rcases hp with rfl | ⟨_, ⟨j, _, hbase⟩, _⟩
  · exact peersAfter_isEmpty hm hs
  · exact OrdMap.isEmpty_eq_false_of_mem (k := j) (by rw [hbase]; simp)

/-! ## Replay -/

/-- The state machine after the entries of a history. Changes are not applied to it. -/
def replay (M : Machine σ) (h : List LogEntry) : σ :=
  h.foldl (fun s e =>
    match e.change with
    | none => M.apply s { index := e.index, command := e.command }
    | some _ => s) M.init

/-- What is asked of a snapshot hook: a snapshot taken after some history is not empty,
and restoring it gives the state after that history, whatever it is restored into. -/
def Lawful (M : Machine σ) : Prop :=
  ∀ h d, M.snapshotter.snapshot (replay M h) = some d →
    d ≠ [] ∧ ∀ m, M.snapshotter.restore m d = some (replay M h)

theorem replay_snoc (M : Machine σ) (h : List LogEntry) (e : LogEntry) :
    replay M (h ++ [e]) =
      match e.change with
      | none => M.apply (replay M h) { index := e.index, command := e.command }
      | some _ => replay M h := by
  unfold replay
  rw [List.foldl_append]
  rfl

/-- A snapshot that stands for a history: there is none for the empty one. -/
def SnapOf (M : Machine σ) (snapshot : Bytes) (h : List LogEntry) : Prop :=
  if h = [] then snapshot = []
  else snapshot ≠ [] ∧ ∀ m, M.snapshotter.restore m snapshot = some (replay M h)

end Refine
