import RaftStore.Consensus.Majority
import RaftStore.Node.Round
import RaftStore.Results.Fixed

/-!
# One change at a time

`AddServer` and `RemoveServer` refuse the change and leave the node as it was, or they append one
entry and take the configuration it carries (`change_is_one_step`). The new configuration differs
from the old one by the server named, so that majorities of the two meet, and everybody in it is
tracked.

The entry may be committed and compacted before the call returns. `peers_applyCommitted` says that
this does not change the configuration.
-/

namespace Raft

namespace RaftNode

variable {σ : Type} {n : RaftNode σ}

/-! ## Compaction keeps the configuration -/

/-- The configuration is the one that the log leads to. -/
def Folded (n : RaftNode σ) : Prop :=
  (n.peerAddrs, n.peerHTTP) = n.log.tail.foldl applyEntry (n.basePeers, n.baseHTTP) ∧
    n.peerIDs = n.peerAddrs.keys

/-- The changes up to an index and those behind it are all changes. -/
theorem foldl_slice (hlog : n.log.Contiguous) {i : Int} (hi : n.log.head.index ≤ i) :
    (n.log.slice (n.log.sliceIndexLocked i + 1)).foldl applyEntry (n.membershipAtLocked i) =
      n.log.tail.foldl applyEntry (n.basePeers, n.baseHTTP) := by
  unfold membershipAtLocked
  rw [hlog.takeWhile_eq, Log.slice_tail hi, ← List.foldl_append, List.take_append_drop]

theorem peers_compactTo (h : Folded n) (hlog : n.log.Contiguous) {i : Int}
    (hi : n.log.head.index ≤ i) (e : LogEntry) (data : Bytes) :
    (n.compactTo i e data).peerAddrs = n.peerAddrs ∧
      (n.compactTo i e data).peerIDs = n.peerIDs := by
  have hfold := (foldl_slice hlog hi).trans h.1.symm
  have haddrs : (n.compactTo i e data).peerAddrs = n.peerAddrs := congrArg Prod.fst hfold
  exact ⟨haddrs, (congrArg OrdMap.keys haddrs).trans h.2.symm⟩

theorem peers_applyCommitted (h : Folded n) (hlog : n.log.Contiguous) :
    n.applyCommittedLocked.peerAddrs = n.peerAddrs ∧
      n.applyCommittedLocked.peerIDs = n.peerIDs := by
  obtain ⟨la, x, applies, heq⟩ := n.applyLoop_eq (n.commitIndex - n.lastApplied).toNat
  unfold applyCommittedLocked
  rw [heq]
  -- a compaction writes the configuration to the head, and it is the same
  rcases maybeCompact_cases { n with lastApplied := la, machine := x, applies := applies } with
    ⟨hsame, _⟩ | ⟨e, data, hdue, hcompact⟩
  · rw [hsame]
    exact ⟨rfl, rfl⟩
  · rw [hcompact]
    exact peers_compactTo (n := { n with lastApplied := la, machine := x, applies := applies })
      h hlog hdue.head_lt.le _ _

theorem folded_applyCommitted (h : Folded n) : Folded n.applyCommittedLocked := by
  obtain ⟨la, x, applies, heq⟩ := n.applyLoop_eq (n.commitIndex - n.lastApplied).toNat
  unfold applyCommittedLocked
  rw [heq]
  rcases maybeCompact_cases { n with lastApplied := la, machine := x, applies := applies } with
    ⟨hsame, _⟩ | ⟨e, data, _, hcompact⟩
  · rw [hsame]
    exact h
  · rw [hcompact]
    exact ⟨rfl, rfl⟩

/-! ## The end of a proposal -/

/-- What is left of a node once an entry has been appended: the log up to compaction, the
configuration, and the tracking of the others. -/
structure Settled (n n' : RaftNode σ) (index : Int) : Prop where
  log : n.log.Compacted n'.log
  peerAddrs_eq : n'.peerAddrs = n.peerAddrs
  peerIDs_eq : n'.peerIDs = n.peerIDs
  nextIndex_eq : n'.nextIndex = Function.update n.nextIndex n.id (some (index + 1))
  matchIndex_eq : n'.matchIndex = Function.update n.matchIndex n.id index

theorem settled_appended (h : Folded n) (hlog : n.log.Contiguous) (index : Int) :
    Settled n (n.appended index) index := by
  -- each call changes fields that the others do not
  obtain ⟨i, _, hadvance⟩ := (n.persistLocked.trackSelf index).advanceCommit_eq
  obtain ⟨r, g, hbroadcast⟩ :=
    (n.persistLocked.trackSelf index).advanceCommitLocked.applyCommittedLocked.broadcast_eq
  have hstanding := Node.standing_settle (n.persistLocked.trackSelf index)
  unfold appended
  rw [hbroadcast]
  rw [hadvance] at hstanding ⊢
  simp only [Node.standing, Prod.mk.injEq] at hstanding
  obtain ⟨_, _, hnext, hmatch, _⟩ := hstanding
  have hpeers := peers_applyCommitted
    (n := { n.persistLocked.trackSelf index with commitIndex := i }) h hlog
  exact
    { log := compacted_applyCommitted { n.persistLocked.trackSelf index with commitIndex := i }
      peerAddrs_eq := hpeers.1
      peerIDs_eq := hpeers.2
      nextIndex_eq := hnext
      matchIndex_eq := hmatch }

end RaftNode

/-! ## Changes -/

section

open RaftNode Consensus

variable {σ : Type} {n : RaftNode σ}

/-- A node that tracks everybody it knows of: the log is a proper one, the configuration is the one
of the log and has the node itself in it, and next indexes are within the log or right behind it. -/
structure Tracking (n : RaftNode σ) : Prop where
  contiguous : n.log.Contiguous
  peers_eq : n.peerAddrs = (n.log.tail.foldl applyEntry (n.basePeers, n.baseHTTP)).1
  ids_eq : n.peerIDs = n.peerAddrs.keys
  self : n.id ∈ n.peerIDs
  tracked : ∀ p ∈ n.peerIDs, (n.nextIndex p).isSome
  range : ∀ p i, n.nextIndex p = some i → 1 ≤ i ∧ i ≤ n.log.lastLogIndexLocked + 1

/-- The change of the server `id` has been made: one entry of the current term is appended, the
configuration differs in `id` alone, majorities meet, and everybody is tracked. -/
structure Reconfigured (n n' : RaftNode σ) (id : String) : Prop where
  appended : ∃ e, e.term = n.currentTerm ∧ e.index = n.log.lastLogIndexLocked + 1 ∧
    e.change.isSome ∧ (n.log.append [e]).Compacted n'.log
  ids_eq : n'.peerIDs = n'.peerAddrs.keys
  others : ∀ p, p ≠ id → n'.peerAddrs.get? p = n.peerAddrs.get? p
  named : id ∈ n'.peerIDs ↔ id ∉ n.peerIDs
  self : n.id ∈ n'.peerIDs
  overlap : ∀ Q Q' : Finset String, Q ⊆ n.peerIDs.toFinset → Q' ⊆ n'.peerIDs.toFinset →
    Q.card = n.majority → Q'.card = n'.majority → (Q ∩ Q').Nonempty
  tracked : ∀ p ∈ n'.peerIDs, ∃ i, n'.nextIndex p = some i ∧ 1 ≤ i ∧
    i ≤ n'.log.lastLogIndexLocked + 1

/-- Majorities as `majority` counts them. -/
theorem majority_meet {n n' : RaftNode σ} (hids : n.peerIDs.Nodup) (hids' : n'.peerIDs.Nodup)
    (hov : Overlap n.peerIDs.toFinset n'.peerIDs.toFinset) {Q Q' : Finset String}
    (hQ : Q ⊆ n.peerIDs.toFinset) (hQ' : Q' ⊆ n'.peerIDs.toFinset) (hcard : Q.card = n.majority)
    (hcard' : Q'.card = n'.majority) : (Q ∩ Q').Nonempty := by
  have hm : Majority Q n.peerIDs.toFinset := by
    refine ⟨hQ, ?_⟩
    rw [List.toFinset_card_of_nodup hids, hcard]
    rfl
  have hm' : Majority Q' n'.peerIDs.toFinset := by
    refine ⟨hQ', ?_⟩
    rw [List.toFinset_card_of_nodup hids', hcard']
    rfl
  obtain ⟨q, hq, hq'⟩ := hov Q Q' hm hm'
  exact ⟨q, Finset.mem_inter.mpr ⟨hq, hq'⟩⟩

/-- What an accepted change does to the configuration. -/
structure Changes (n : RaftNode σ) (id : String) (c : AddrMap) : Prop where
  others : ∀ p, p ≠ id → c.get? p = n.peerAddrs.get? p
  named : id ∈ c.keys ↔ id ∉ n.peerAddrs.keys
  self : n.id ∈ c.keys
  overlap : Overlap n.peerAddrs.keys.toFinset c.keys.toFinset

theorem changes_of_changedPeers {ch : MembershipChange} {c : AddrMap × AddrMap}
    (hok : n.changedPeers ch = .ok c) (hself : n.id ∈ n.peerAddrs.keys) : Changes n ch.id c.1 := by
  rcases changedPeers_cases hok with ⟨_, hnew, heq⟩ | ⟨_, hold, hne, _, heq⟩
  · rw [heq]
    refine ⟨fun p hp => by simp [hp], by simp [hnew], by simp [hself], ?_⟩
    -- adding one, or removing one, keeps majorities overlapping
    rw [OrdMap.keys_set_toFinset]
    exact overlap_insert _ _
  · rw [heq]
    refine ⟨fun p hp => by simp [hp], by simp [hold], by simp [hself, hne.symm], ?_⟩
    rw [OrdMap.keys_erase_toFinset]
    exact overlap_erase _ _

/-- The configuration right after the entry of a change. -/
theorem rebuild_change {l : Log} {e : LogEntry} {ch : MembershipChange} (hch : e.change = some ch)
    (hne : ch.peers.isEmpty = false) :
    ({ n with log := l.append [e] }.rebuildMembershipLocked).peerAddrs = ch.peers := by
  show ((l.tail ++ [e]).foldl applyEntry (n.basePeers, n.baseHTTP)).1 = ch.peers
  rw [List.foldl_append, List.foldl_cons, List.foldl_nil]
  unfold applyEntry applyChange
  rw [hch]
  simp [hne]

/-- The tracking right after the entry of a change. -/
theorem nextIndex_ensureTracking (h : Tracking n) {m : RaftNode σ}
    (hnext : m.nextIndex = n.nextIndex) (hlast : 0 ≤ n.log.lastLogIndexLocked)
    (hlog : m.log.lastLogIndexLocked = n.log.lastLogIndexLocked + 1)
    (hbase : m.log.lastIncludedIndexLocked ≤ n.log.lastLogIndexLocked) {p : String}
    (hp : p ∈ m.peerIDs) : ∃ i, m.ensurePeerTrackingLocked.nextIndex p = some i ∧ 1 ≤ i ∧
      i ≤ n.log.lastLogIndexLocked + 2 := by
  rw [ensurePeerTracking_spec]
  dsimp only
  cases hold : n.nextIndex p with
  | some i =>
    -- an index that was there stays in range
    obtain ⟨h1, h2⟩ := h.range p i hold
    refine ⟨i, ?_, h1, by omega⟩
    rw [if_neg (by rw [hnext, hold]; simp), hnext, hold]
  | none =>
    -- a new one starts behind the head or at the end
    refine ⟨m.firstNext, if_pos ⟨hp, by rw [hnext, hold]⟩, ?_, ?_⟩
    · unfold firstNext
      split
      · omega
      split <;> omega
    · unfold firstNext
      split
      · omega
      split <;> omega

/-- The node with the entry of a change at the end of its log, before anything is committed. -/
def changed (n : RaftNode σ) (e : LogEntry) : RaftNode σ :=
  { n with
    log := n.log.append [e]
    }.rebuildMembershipLocked.ensurePeerTrackingLocked.notifyPeersLocked

section

variable {e : LogEntry} {ch : MembershipChange}

@[simp] theorem log_changed : (changed n e).log = n.log.append [e] := by
  unfold changed
  rw [ensurePeerTracking_spec]
  rfl

@[simp] theorem id_changed : (changed n e).id = n.id := by
  unfold changed
  rw [ensurePeerTracking_spec]
  rfl

theorem folded_changed : Folded (changed n e) := by
  unfold changed
  rw [ensurePeerTracking_spec]
  exact ⟨rfl, rfl⟩

theorem peerAddrs_changed (hch : e.change = some ch) (hne : ch.peers.isEmpty = false) :
    (changed n e).peerAddrs = ch.peers := by
  unfold changed
  rw [ensurePeerTracking_spec]
  exact rebuild_change hch hne

theorem peerIDs_changed (hch : e.change = some ch) (hne : ch.peers.isEmpty = false) :
    (changed n e).peerIDs = ch.peers.keys := by
  rw [folded_changed.2, peerAddrs_changed hch hne]

/-- Members without a next index are tracked from zero, the others as before. -/
theorem matchIndex_changed (p : String) :
    (changed n e).matchIndex p =
      if p ∈ (changed n e).peerIDs ∧ n.nextIndex p = none then 0 else n.matchIndex p := by
  unfold changed
  rw [ensurePeerTracking_spec]
  rfl

/-- Whoever is not a member is tracked as before. -/
theorem nextIndex_changed {p : String} (hp : p ∉ (changed n e).peerIDs) :
    (changed n e).nextIndex p = n.nextIndex p := by
  unfold changed at hp ⊢
  rw [ensurePeerTracking_spec] at hp ⊢
  exact if_neg fun hmem => hp hmem.1

end

/-- **An accepted change** leads to the configuration it carries, with everybody tracked. -/
theorem reconfigured_appended (h : Tracking n) {id : String} {e : LogEntry} {ch : MembershipChange}
    (hterm : e.term = n.currentTerm) (hidx : e.index = n.log.lastLogIndexLocked + 1)
    (hch : e.change = some ch) (hc : Changes n id ch.peers) :
    Reconfigured n ((changed n e).appended (n.log.lastLogIndexLocked + 1)) id := by
  have hne : ch.peers.isEmpty = false := OrdMap.isEmpty_eq_false_of_mem hc.self
  have haddrs : (changed n e).peerAddrs = ch.peers := peerAddrs_changed hch hne
  have hcont : (n.log.append [e]).Contiguous := h.contiguous.append hidx
  have hset := settled_appended folded_changed (log_changed ▸ hcont) (n.log.lastLogIndexLocked + 1)
  generalize (changed n e).appended (n.log.lastLogIndexLocked + 1) = n' at hset ⊢
  have hids : n'.peerIDs = ch.peers.keys := by
    rw [hset.peerIDs_eq, peerIDs_changed hch hne]
  have hcopy : (n.log.append [e]).Compacted n'.log := log_changed ▸ hset.log
  have hlong : (n.log.append [e]).lastLogIndexLocked = n.log.lastLogIndexLocked + 1 := by
    rw [← hidx]
    unfold Log.lastLogIndexLocked Log.last Log.append
    rw [List.getLastD_concat]
  have hend : n'.log.lastLogIndexLocked = n.log.lastLogIndexLocked + 1 :=
    (hcopy.lastLogIndex_eq hcont).trans hlong
  -- the node tracks itself, so its log does not end below zero
  have hlast : 0 ≤ n.log.lastLogIndexLocked := by
    obtain ⟨i, hi⟩ := Option.isSome_iff_exists.mp (h.tracked _ h.self)
    have := h.range _ _ hi
    omega
  have hbase : n.log.lastIncludedIndexLocked ≤ n.log.lastLogIndexLocked := by
    rw [Log.lastLogIndex_of_contiguous h.contiguous]
    unfold Log.lastIncludedIndexLocked
    omega
  have hov : Overlap n.peerIDs.toFinset n'.peerIDs.toFinset := by
    rw [h.ids_eq, hids]
    exact hc.overlap
  exact
    { appended := ⟨e, hterm, hidx, by rw [hch]; rfl, hcopy⟩
      ids_eq := by rw [hids, hset.peerAddrs_eq, haddrs]
      others := fun p hp => by rw [hset.peerAddrs_eq, haddrs, hc.others p hp]
      named := by
        rw [hids, h.ids_eq]
        exact hc.named
      self := by
        rw [hids]
        exact hc.self
      overlap := fun Q Q' hQ hQ' hcard hcard' =>
        majority_meet (h.ids_eq ▸ n.peerAddrs.keys_nodup) (hids ▸ ch.peers.keys_nodup) hov hQ hQ'
          hcard hcard'
      tracked := by
        intro p hp
        rw [hset.nextIndex_eq, id_changed, hend]
        by_cases hself : p = n.id
        · exact ⟨n.log.lastLogIndexLocked + 1 + 1, by rw [hself, Function.update_self], by omega,
            le_refl _⟩
        · rw [Function.update_of_ne hself]
          have hpm : p ∈ { n with log := n.log.append [e] }.rebuildMembershipLocked.peerIDs := by
            show p ∈ ({ n with log := n.log.append [e] }.rebuildMembershipLocked).peerAddrs.keys
            rw [rebuild_change hch hne, ← hids]
            exact hp
          obtain ⟨i, hi, h1, h2⟩ := nextIndex_ensureTracking h
            (m := { n with
              log := n.log.append [e] }.rebuildMembershipLocked) rfl hlast hlong hbase hpm
          exact ⟨i, hi, h1, by omega⟩ }

/-- The call was refused and the node is as it was, or the change has been made. -/
def OneStep (n : RaftNode σ) (id : String) (r : RaftNode σ × Except Err Int) : Prop :=
  (∃ e, r.2 = .error e ∧ r.1 = n) ∨ ∃ i, r.2 = .ok i ∧ Reconfigured n r.1 id

theorem oneStep_proposeChange (h : Tracking n) (ch : MembershipChange) :
    OneStep n ch.id (n.proposeChangeLocked ch) := by
  rcases n.proposeChange_cases ch with ⟨e, heq⟩ | ⟨c, hok, _, heq⟩
  · rw [heq]
    exact Or.inl ⟨e, rfl, rfl⟩
  · rw [heq]
    refine Or.inr ⟨_, rfl, reconfigured_appended h rfl rfl rfl ?_⟩
    exact changes_of_changedPeers hok (h.ids_eq ▸ h.self)

/-- **A membership change is one safe step or nothing.** -/
theorem change_is_one_step (h : Tracking n) (id addr http : String) :
    OneStep n id (n.addServer id addr http) ∧ OneStep n id (n.removeServer id) := by
  refine ⟨?_, ?_⟩
  · unfold addServer
    split
    · exact Or.inl ⟨_, rfl, rfl⟩
    · exact oneStep_proposeChange h
        { type := changeAdd, id := id, addr := addr, http := http }
  · unfold removeServer
    split
    · exact Or.inl ⟨_, rfl, rfl⟩
    · exact oneStep_proposeChange h { type := changeRemove, id := id }

/-! A leader of three nodes adds a fourth one. -/

def steadyLeader : RaftNode Unit :=
  { RaftNode.boot Cluster.idle (Cluster.sample.config "n1") (some {}) with
    state := .leader
    currentTerm := 1
    log := ⟨{ term := 0, index := 0 }, [{ term := 1, index := 1 }]⟩
    commitIndex := 1
    lastApplied := 1
    nextIndex := fun p => if p ∈ Cluster.threeNodes.keys then some 2 else none }

theorem steadyLeader_tracking : Tracking steadyLeader where
  contiguous := by
    intro k e he
    match k, he with
    | 0, rfl => rfl
  peers_eq := by decide +kernel
  ids_eq := by decide +kernel
  self := by decide +kernel
  tracked := by decide +kernel
  range := by
    intro p i hi
    have hi' : (if p ∈ Cluster.threeNodes.keys then some (2 : Int) else none) = some i := hi
    split at hi'
    · cases hi'
      decide
    · cases hi'

theorem change_is_one_step_sample :
    (steadyLeader.addServer "n4" "a4" "").2 = .ok 2 ∧
      OneStep steadyLeader "n4" (steadyLeader.addServer "n4" "a4" "") ∧
      OneStep steadyLeader "n4" (steadyLeader.removeServer "n4") :=
  ⟨by decide +kernel, change_is_one_step steadyLeader_tracking "n4" "a4" ""⟩

end

end Raft
