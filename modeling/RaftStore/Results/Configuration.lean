import RaftStore.Node.Past
import RaftStore.Results.Fixed

/-!
# The configuration is a function of the log

`peerAddrs` is the outcome of the changes in the node's whole history, `basePeers` that of the part
which its snapshot has replaced. Where the history begins is not always where the node was started:
with a snapshot a server takes over the history of the leader, and with it the configuration that
the leader was started with. A server that joins with a configuration of its own then has one that
does not follow from it (`adopted_configuration`).

With the configuration the history began with, it holds in every run
(`configuration_follows_log`).
-/

namespace Node

open Raft Cluster Told

variable {σ : Type} {M : Machine σ} {s : Told σ} {cfg : Config} {c : AddrMap × AddrMap}

/-- A run of a node that knows its past. -/
abbrev Tells (M : Machine σ) (ok : Told σ → Life × Past → Prop) :
    Told σ → List (Life × Past) → Told σ → Prop :=
  StepPath (fun s a => some (s.tell M a.1 a.2)) ok

/-- A snapshot comes from a leader whose history began with `c`. -/
def ComesFrom (c : AddrMap × AddrMap) (sender : Past) : Event → Prop
  | .installSnapshot _ => sender.initial = c
  | _ => True

/-- The step does not bring in a history that began with another configuration. -/
def Keeps (c : AddrMap × AddrMap) (a : Life × Past) : Prop :=
  match a.1 with
  | .event ev => ComesFrom c a.2 ev
  | .restart cfg => (cfg.peerAddrs, cfg.httpAddrs) = c
  | .crashDuring ev _ cfg => ComesFrom c a.2 ev ∧ (cfg.peerAddrs, cfg.httpAddrs) = c

/-- The past of the node and those of its saved states begin with `c`. -/
structure Begins (c : AddrMap × AddrMap) (s : Told σ) : Prop where
  past : s.past.initial = c
  records : ∀ p ∈ s.records, p.initial = c

/-- What the history begins with stays, if a snapshot's history began with it too. -/
theorem Begins.initial_after (h : Begins c s) {sender : Past} (ev : Event)
    (hs : ComesFrom c sender ev) :
    (s.past.after s.node.log sender (effect s.node ev)).initial = c := by
  cases ho : effect s.node ev with
  | none => exact h.past
  | append e => exact h.past
  -- entries are added to the same history
  | merge req => exact h.past
  | install req =>
    -- a snapshot brings the sender's
    rw [eq_of_effect_install ho] at hs
    exact hs

/-- What is recorded on disk begins so too. -/
theorem Begins.recordsAfter (h : Begins c s) {past : Past} (hp : past.initial = c) (ev : Event) :
    ∀ p ∈ s.recordsAfter ev past, p.initial = c := by
  intro p hmem
  rcases List.mem_append.mp hmem with hnew | hold
  -- a state saved before the section's change, and one saved after it
  · obtain ⟨d, _, rfl⟩ := List.mem_map.mp hnew
    unfold Past.atSave
    split
    · exact h.past
    · exact hp
  · exact h.records p hold

/-- So does what a node starts from. -/
theorem initial_pastAtStart (hcfg : (cfg.peerAddrs, cfg.httpAddrs) = c) {records : List Past}
    (h : ∀ p ∈ records, p.initial = c) : (pastAtStart cfg records).initial = c := by
  cases records with
  | nil => exact hcfg
  | cons p rest => exact h p List.mem_cons_self

/-- **No step changes what the history begins with.** -/
theorem Begins.tell (h : Begins c s) {a : Life × Past} (ha : Keeps c a) :
    Begins c (s.tell M a.1 a.2) := by
  obtain ⟨l, sender⟩ := a
  cases l with
  | event ev =>
    have hp := h.initial_after ev ha
    exact ⟨hp, h.recordsAfter hp ev⟩
  | restart cfg => exact ⟨initial_pastAtStart ha h.records, h.records⟩
  | crashDuring ev saves cfg =>
    have hp := h.initial_after ev ha.1
    have hrecords : ∀ p ∈ (s.tell M (.crashDuring ev saves cfg) sender).records, p.initial = c :=
      fun p hmem => h.recordsAfter hp ev p (List.mem_of_mem_drop hmem)
    exact ⟨initial_pastAtStart ha.2 hrecords, hrecords⟩

/-! ## A history that began elsewhere

`n1` is alone, commits its first entry and takes a snapshot. `n5` was started with a configuration
of its own, and installs it. -/

/-- `n1` is alone, and compacts after one entry. -/
def compactingConfig : Config where
  id := "n1"
  peerAddrs := .single "n1" "a1"
  snapshotThreshold := 1

/-- No history, for events that carry none. -/
def nothing : Past := ⟨(.empty, .empty), []⟩

/-- `n1` leads and has compacted its first entry. -/
def leaderTold : Told Unit :=
  (start idle compactingConfig none).tell idle (.event (.tick true)) nothing

/-- A node that waits for a configuration. -/
def joinerConfig : Config where
  id := "n5"
  peerAddrs := .single "n5" "a5"
  snapshotThreshold := 0
  join := true

/-- It receives the snapshot of `n1`. -/
def adopting : List (Life × Past) :=
  [(.event (.installSnapshot leaderTold.node.installSnapshotRequestLocked), leaderTold.past.upTo 1)]

/-- The node after that: it has the configuration that the history of `n1` began with. -/
def adoptedTold : Told Unit :=
  (start idle joinerConfig none).tell idle
    (.event (.installSnapshot leaderTold.node.installSnapshotRequestLocked))
    (leaderTold.past.upTo 1)

theorem leaderTold_sound : leaderTold.Sound :=
  (sound_start rfl rfl).tell trivial

/-- The snapshot comes from a node with a history. -/
theorem adopting_run : Tells idle (fun s a => s.Grounded a.2 a.1)
    (start idle joinerConfig none) adopting
    adoptedTold := by
  refine StepPath.cons ?_ rfl (StepPath.nil _)
  show Vouches (leaderTold.past.upTo 1) leaderTold.node.installSnapshotRequestLocked
  have hbase : leaderTold.node.log.lastIncludedIndexLocked.toNat = 1 := by decide +kernel
  have hvouches := leaderTold_sound.follows.vouches
  rw [hbase] at hvouches
  exact hvouches

/-- **A configuration that does not follow** from the one the node was started with. -/
theorem adopted_configuration : ∃ s, Tells idle (fun s a => s.Grounded a.2 a.1)
    (start idle joinerConfig none) adopting s ∧ s.node.peerAddrs ≠
      (s.past.history.foldl applyEntry (joinerConfig.peerAddrs, joinerConfig.httpAddrs)).1 :=
  ⟨adoptedTold, adopting_run, by decide +kernel⟩

/-! ## In every run -/

/-- **The configuration is a function of the log**: of the whole history and the configuration it
began with, which is the node's own if no snapshot brings in another. -/
theorem configuration_follows_log (hcfg : cfg.peerAddrs.isEmpty = false)
    {storage : Option Storage} (hnil : ∀ st, storage = some st → st.saved = [])
    {ls : List (Life × Past)}
    (hrun : Tells M (fun s a => s.Grounded a.2 a.1) (start M cfg storage) ls s) :
    s.node.log.lastLogIndexLocked = s.past.history.length ∧
      s.node.log.tail = s.past.history.drop s.node.log.lastIncludedIndexLocked.toNat ∧
      s.node.peerAddrs = (s.past.history.foldl applyEntry s.past.initial).1 ∧
      s.node.peerIDs = s.node.peerAddrs.keys ∧ s.node.peerIDs.Pairwise (· < ·) ∧
      s.node.basePeers = ((s.past.history.take
        s.node.log.lastIncludedIndexLocked.toNat).foldl applyEntry s.past.initial).1 ∧
      ((∀ a ∈ ls, Keeps (cfg.peerAddrs, cfg.httpAddrs) a) →
        s.past.initial = (cfg.peerAddrs, cfg.httpAddrs)) := by
  -- a node that has saved nothing starts from its configuration
  have hsaved : savedStates storage = [] := by
    cases storage with
    | none => rfl
    | some st => exact hnil st rfl
  have hsound : s.Sound := StepPath.invariant
    (fun _ _ _ h hok hstep => Option.some.inj hstep ▸ h.tell hok) hrun (sound_start hcfg hsaved)
  obtain ⟨hfounded, hpeers, hids⟩ := hsound.follows
  refine ⟨hfounded.length_eq, hfounded.tail_eq, congrArg Prod.fst hpeers, hids, ?_,
    congrArg Prod.fst hfounded.base_eq, ?_⟩
  -- the members are sorted by name, being the keys of a map
  · rw [hids]
    exact s.node.peerAddrs.keys_sorted
  -- every part of the run keeps what the history began with
  · intro hkeeps
    have hbegins : Begins (cfg.peerAddrs, cfg.httpAddrs) s := StepPath.invariant
      (fun _ _ _ h hok hstep => Option.some.inj hstep ▸ h.tell hok.2) (hrun.restrict hkeeps)
      ⟨rfl, fun p hp => absurd hp List.not_mem_nil⟩
    exact hbegins.past

/-! `n1` takes a snapshot, adds `n2`, and is started again. -/

/-- An election, the new member, and a restart. -/
def growing : List (Life × Past) :=
  [(.event (.tick true), nothing), (.event (.addServer "n2" "a2" ""), nothing),
    (.restart compactingConfig, nothing)]

/-- `n1` after that. -/
def grownTold : Told Unit :=
  growing.foldl (fun s a => s.tell idle a.1 a.2) (start idle compactingConfig (some {}))

theorem growing_run : Tells idle (fun s a => s.Grounded a.2 a.1)
    (start idle compactingConfig (some {}))
    growing grownTold :=
  StepPath.cons trivial rfl (StepPath.cons trivial rfl (StepPath.cons rfl rfl (StepPath.nil _)))

theorem configuration_follows_log_sample :
    grownTold.node.log.lastIncludedIndexLocked = 1 ∧ grownTold.past.history.length = 2 ∧
      grownTold.node.peerAddrs = .ofList [("n1", "a1"), ("n2", "a2")] ∧
      grownTold.node.basePeers = .single "n1" "a1" ∧
      grownTold.node.peerAddrs =
        (grownTold.past.history.foldl applyEntry grownTold.past.initial).1 := by
  refine ⟨by decide +kernel, by decide +kernel, by decide +kernel, by decide +kernel, ?_⟩
  have hnil : ∀ st : Storage, some ({} : Storage) = some st → st.saved = [] := by
    rintro st ⟨⟩
    rfl
  exact (configuration_follows_log rfl hnil growing_run).2.2.1

end Node
