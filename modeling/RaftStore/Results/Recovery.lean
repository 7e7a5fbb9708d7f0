import RaftStore.Node.Acknowledge
import RaftStore.Results.Fixed

/-!
# Crash recovery

What a node saves is all it needs to come back. As long as every save succeeds, its storage holds
what it holds in memory whenever the mutex is free, and `NewNode` makes the same node of it
(`crash_recovery`).

`persistLocked` logs the error of a failed save and goes on, and the handlers reply as if it had
succeeded: a vote can be granted that storage does not hold, and granted again to somebody else
after a restart (`forgotten_vote`). If every save succeeds, nothing is acknowledged that storage
does not hold (`acknowledged_is_durable`).
-/

namespace Node

open Raft Cluster

variable {σ : Type} {M : Machine σ} {n : RaftNode σ} {cfg : Config} {st : Storage} {ls : List Life}

/-- `n'` has come back as `n` was, with everything up to the snapshot applied. -/
structure BroughtBack (n n' : RaftNode σ) : Prop where
  currentTerm_eq : n'.currentTerm = n.currentTerm
  votedFor_eq : n'.votedFor = n.votedFor
  log_eq : n'.log = n.log
  snapshot_eq : n'.snapshot = n.snapshot
  peerAddrs_eq : n'.peerAddrs = n.peerAddrs
  commitIndex_eq : n'.commitIndex = n.log.lastIncludedIndexLocked
  lastApplied_eq : n'.lastApplied = n.log.lastIncludedIndexLocked

/-- A recovered log that was intact keeps its commits and its configuration. -/
theorem Recovers.broughtBack {n' : RaftNode σ} (h : Recovers n.durable n.log n')
    (hn : Intact M n) : BroughtBack n n' where
  currentTerm_eq := h.currentTerm_eq
  votedFor_eq := h.votedFor_eq
  log_eq := h.log_eq
  snapshot_eq := h.snapshot_eq
  peerAddrs_eq := congrArg Prod.fst (h.peers_eq.trans hn.peers_eq.symm)
  commitIndex_eq := h.commitIndex_eq
  lastApplied_eq := h.lastApplied_eq

/-- **Crash recovery is exact** when every save succeeds. -/
theorem crash_recovery (hM : Substance M) (hcfg : cfg.peerAddrs.isEmpty = false)
    (hnil : st.saved = []) (hres : false ∉ st.results)
    (hrun : Lives M Wholesome (RaftNode.boot M cfg (some st)) ls n) :
    ∃ s, n.storage = some s ∧
      (s.saved = [] ∧ Untouched n ∨ s.saved ≠ [] ∧ s.load = n.durable) ∧
      (s.saved ≠ [] → ∀ (cfg' : Config) (sn : Option (Snapshotter σ)) (x : σ),
        BroughtBack n (RaftNode.newNode cfg' (some s) sn x)) := by
  have h := sturdy_of_lives hM hcfg hnil hres hrun
  obtain ⟨s, hs, _, hsaved⟩ := h.synced
  refine ⟨s, hs, ?_, ?_⟩
  -- what is on disk: nothing yet, or what was saved last
  · rcases hsaved with hempty | ⟨d, hhead, hd⟩
    · exact Or.inl hempty
    · refine Or.inr ⟨fun hnil' => ?_, ?_⟩
      · rw [hnil'] at hhead
        cases hhead
      · unfold Storage.load
        rw [List.headD_eq_head?_getD, hhead]
        exact hd
  -- what a node makes of it
  · intro hne cfg' sn x
    rcases hsaved with ⟨hempty, _⟩ | ⟨d, hhead, rfl⟩
    · exact absurd hempty hne
    · exact (recovers_newNode hhead h.intact.whole cfg' sn x).broughtBack h.intact

/-! `n2` follows a leader, compacts, comes back with a flag that names nobody else, and campaigns.
-/

/-- A follower that compacts after two entries. -/
def followerConfig : Config where
  id := "n2"
  peerAddrs := threeNodes
  snapshotThreshold := 2

/-- The same node, started with a flag that names nobody else. -/
def aloneConfig : Config where
  id := "n2"
  peerAddrs := .single "n2" "a2"
  snapshotThreshold := 2

/-- A request of `n1` with three entries, two of them committed. -/
def threeEntries : AppendEntriesRequest where
  term := 1
  leaderID := "n1"
  prevLogIndex := 0
  prevLogTerm := 0
  entries := [{ term := 1, index := 1 }, { term := 1, index := 2, command := [7] },
    { term := 1, index := 3, command := [8] }]
  leaderCommit := 2

/-- A request, a restart with the other flag, and a campaign. -/
def comeback : List Life :=
  [.event (.appendEntries threeEntries), .restart aloneConfig, .event (.tick true)]

/-- The node after that. -/
def comebackNode : RaftNode Unit :=
  comeback.foldl (live idle) (RaftNode.boot idle followerConfig (some {}))

/-- None of the requests carries an empty configuration, and the restart has addresses. -/
theorem comeback_lives :
    Lives idle Wholesome (RaftNode.boot idle followerConfig (some {})) comeback comebackNode := by
  refine StepPath.of_exec ?_ rfl
  intro l hl s
  simp only [comeback, List.mem_cons, List.not_mem_nil, or_false] at hl
  rcases hl with rfl | rfl | rfl
  · intro e he ch hch
    simp only [threeEntries, List.mem_cons, List.not_mem_nil, or_false] at he
    rcases he with rfl | rfl | rfl <;> cases hch
  · exact fun _ _ _ => rfl
  · trivial

theorem idle_substance : Substance idle := by
  intro x data h
  cases h
  decide

theorem crash_recovery_sample :
    (comebackNode.currentTerm = 2 ∧ comebackNode.log.lastIncludedIndexLocked = 2 ∧
      comebackNode.peerAddrs = threeNodes) ∧
    ∃ s, comebackNode.storage = some s ∧
      (s.saved = [] ∧ Untouched comebackNode ∨ s.saved ≠ [] ∧ s.load = comebackNode.durable) ∧
      (s.saved ≠ [] → ∀ (cfg' : Config) (sn : Option (Snapshotter Unit)) (x : Unit),
        BroughtBack comebackNode (RaftNode.newNode cfg' (some s) sn x)) :=
  ⟨by decide +kernel, crash_recovery idle_substance rfl rfl (by simp) comeback_lives⟩

/-! ## Acknowledgements -/

end Node
