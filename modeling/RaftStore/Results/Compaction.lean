import RaftStore.Node.Shadow
import RaftStore.Results.Fixed

/-!
# Compaction is invisible

Two copies of one node are started in the same state, one with a positive `SnapshotThreshold` and
one with threshold `0`, and the same things happen to both. No one can tell them apart, except by
asking for entries the first has dropped (`compaction_invisible`). A leader that has compacted may
send a snapshot where the other sends entries; what counts is that the peer confirms the same index
to both.
-/

namespace Node

open Raft Cluster RaftNode

variable {σ : Type} {M : Machine σ} {n m n₀ : RaftNode σ}

/-! ## The same things happen to both -/

/-- What may happen to the two copies alike. Entries are sent from an index that the copy `n`, the
one that takes snapshots, still has. -/
def Common (n : RaftNode σ) : Event → Prop
  | .tick _ | .requestVote _ | .voteReply _ _ _ | .confirmReply _ _ => True
  | .propose _ | .addServer _ _ _ | .removeServer _ => True
  | .appendEntries req => n.log.lastIncludedIndexLocked ≤ req.prevLogIndex
  | _ => False

/-- Each copy takes its event. -/
def twinStep (s : RaftNode σ × RaftNode σ) (x : Event × Event) : Option (RaftNode σ × RaftNode σ) :=
  some (handle s.1 x.1, handle s.2 x.2)

/-- The same event, or replies that confirm the same index or carry the same higher term. -/
def Comparable (s : RaftNode σ × RaftNode σ) (x : Event × Event) : Prop :=
  x.1 = x.2 ∧ Common s.1 x.1 ∨
    ∃ peer t term index, ReplyOf peer t term index x.1 ∧ ReplyOf peer t term index x.2 ∧
      (index.isSome ∨ s.1.currentTerm < term)

/-- The two are copies of each other. -/
def InStep (s : RaftNode σ × RaftNode σ) : Prop := Shadows s.1 s.2

theorem InStep.step {s s' : RaftNode σ × RaftNode σ} (h : InStep s) {x : Event × Event}
    (hx : Comparable s x) (hstep : twinStep s x = some s') : InStep s' := by
  obtain rfl := Option.some.inj hstep
  obtain ⟨n, m⟩ := s
  obtain ⟨ev, ev'⟩ := x
  have h : Shadows n m := h
  -- the same event in both, or replies that count the same
  rcases hx with ⟨heq, hcommon⟩ | ⟨peer, t, term, index, hev, hev', hindex⟩
  swap
  · exact h.reply hev hev' hindex
  show Shadows (handle n ev) (handle m ev')
  obtain rfl : ev = ev' := heq
  cases ev with
  | tick due => exact h.tick due
  | requestVote req => exact (h.requestVote req).1
  | voteReply peer req resp => exact h.voteReply peer req resp
  | confirmReply term resp =>
    have hterm := h.currentTerm_eq
    show Shadows (n.sendConfirmHeartbeatReply term resp).1 (m.sendConfirmHeartbeatReply term resp).1
    unfold sendConfirmHeartbeatReply
    rw [hterm]
    split
    · exact h.becomeFollower resp.term ""
    · exact h
  | propose cmd => exact (h.propose cmd).1
  | addServer target addr http => exact (h.addServer target addr http).1
  | removeServer target => exact (h.removeServer target).1
  | appendEntries req => exact (h.appendEntries hcommon).1
  | _ => exact hcommon.elim

/-! ## The start -/

/-- A node as `NewNode` makes it: the log is contiguous, its dummy is committed and applied, the
configuration is that of the log, and no snapshot is due. -/
structure Orderly (n : RaftNode σ) : Prop where
  contiguous : n.log.Contiguous
  base_le_applied : n.log.head.index ≤ n.lastApplied
  base_le_commit : n.log.head.index ≤ n.commitIndex
  peers_eq : (n.peerAddrs, n.peerHTTP) = n.log.tail.foldl applyEntry (n.basePeers, n.baseHTTP)
  peerIDs_eq : n.peerIDs = n.peerAddrs.keys
  settled : Settled n

/-- The copy that takes no snapshots. -/
def uncompacting (n : RaftNode σ) : RaftNode σ := { n with snapshotThreshold := 0 }

theorem Orderly.shadows (h : Orderly n) (hk : 0 < n.snapshotThreshold) :
    Shadows n (uncompacting n) where
  same := ⟨⟨n.basePeers, n.baseHTTP, n.hooked, n.transport, n.storage, 0, n.snapshot, n.log,
    n.nextIndex, n.replicating, n.goroutines⟩, rfl⟩
  tracked := fun _ => rfl
  contiguous := h.contiguous
  compacted := Log.Compacted.refl n.log
  base_eq := by
    have hnone : dropped n (uncompacting n) = 0 := by
      show (n.log.head.index - n.log.head.index).toNat = 0
      omega
    rw [hnone]
    rfl
  base_le_applied := h.base_le_applied
  base_le_commit := h.base_le_commit
  threshold_pos := hk
  never := le_refl 0
  peers_eq := h.peers_eq
  peerIDs_eq := h.peerIDs_eq
  settled := h.settled

/-- **A started node is orderly**, on storage that holds nothing or a whole state. -/
theorem orderly_boot {cfg : Config} {st : Storage} (hk : 0 < cfg.snapshotThreshold)
    (hsaved : ∀ d ∈ st.saved, ∃ log, Whole d log ∧ log.Contiguous) :
    Orderly (RaftNode.boot M cfg (some st)) := by
  -- a node without a saved state, and one that recovers
  cases hst : st.saved with
  | nil =>
    have hnew := newNode_of_nil hst cfg (some M.snapshotter) M.init
    obtain ⟨x, hboot⟩ := boot_eq M cfg (some st) (by rw [hnew]; rfl) (by rw [hnew]; rfl)
    rw [hboot, hnew]
    refine ⟨fun k e he => ?_, le_refl _, le_refl _, rfl, rfl, Or.inl ?_⟩
    · cases he
    · show (0 : Int) - 0 < cfg.snapshotThreshold
      omega
  | cons d rest =>
    obtain ⟨log, hd, hcont⟩ := hsaved d (by rw [hst]; exact List.mem_cons_self)
    have hhead : st.saved.head? = some d := by rw [hst]; rfl
    have hrec := recovers_newNode hhead hd cfg (some M.snapshotter) M.init
    obtain ⟨x, hboot⟩ := boot_eq M cfg (some st)
      (by rw [hrec.lastApplied_eq, hrec.log_eq]) (by rw [hrec.commitIndex_eq, hrec.log_eq])
    obtain ⟨x', j, hnew⟩ := recover_eq (RaftNode.fresh cfg (some st) (some M.snapshotter) M.init)
      hd rfl rfl
    rw [hboot, newNode_eq hhead hd.log_eq, hnew]
    refine ⟨hcont, le_refl _, le_refl _, rfl, rfl, Or.inl ?_⟩
    show log.head.index - log.head.index < cfg.snapshotThreshold
    omega

/-! ## No one can tell them apart -/

/-- Nothing that others see of the two copies differs. -/
structure Indistinguishable (n m : RaftNode σ) : Prop where
  state_eq : n.state = m.state
  currentTerm_eq : n.currentTerm = m.currentTerm
  votedFor_eq : n.votedFor = m.votedFor
  commitIndex_eq : n.commitIndex = m.commitIndex
  lastApplied_eq : n.lastApplied = m.lastApplied
  lastLogIndex_eq : n.log.lastLogIndexLocked = m.log.lastLogIndexLocked
  lastLogTerm_eq : n.log.lastLogTermLocked = m.log.lastLogTermLocked
  entries_eq : ∀ i, n.log.lastIncludedIndexLocked < i →
    n.log.entryAtLocked i = m.log.entryAtLocked i
  peerAddrs_eq : n.peerAddrs = m.peerAddrs
  machine_eq : n.machine = m.machine
  vote_eq : ∀ req, (n.handleRequestVote req).2 = (m.handleRequestVote req).2
  append_eq : ∀ req : AppendEntriesRequest, n.log.lastIncludedIndexLocked ≤ req.prevLogIndex →
    (n.handleAppendEntries req).2 = (m.handleAppendEntries req).2
  propose_eq : ∀ cmd, (n.propose cmd).2 = (m.propose cmd).2
  addServer_eq : ∀ id addr http, (n.addServer id addr http).2 = (m.addServer id addr http).2
  removeServer_eq : ∀ id, (n.removeServer id).2 = (m.removeServer id).2
  request_eq : ∀ peer i, n.log.lastIncludedIndexLocked < i →
    ((n.setNext peer i).makeAppendRequestLocked peer).2 =
      ((m.setNext peer i).makeAppendRequestLocked peer).2

/-- Given the same next index, both make the same request. -/
theorem Shadows.request_eq (h : Shadows n m) (peer : String) {i : Int}
    (hi : n.log.head.index < i) :
    ((n.setNext peer i).makeAppendRequestLocked peer).2 =
      ((m.setNext peer i).makeAppendRequestLocked peer).2 := by
  have hlast := h.lastLogIndex_eq
  have hhead := h.head_le_last
  have hle := h.compacted.head_le
  have hfields : m.currentTerm = n.currentTerm ∧ m.id = n.id ∧ m.commitIndex = n.commitIndex := by
    obtain ⟨d, rfl⟩ := h.same
    exact ⟨rfl, rfl, rfl⟩
  obtain ⟨hterm, hid, hcommit⟩ := hfields
  -- where the entries of the request start, which the log of `n` still covers
  have hstart : (m.setNext peer i).startIndex peer = (n.setNext peer i).startIndex peer := by
    unfold startIndex
    rw [next_setNext, next_setNext]
    exact congrArg (fun x => min i (x + 1)) hlast
  have hcover : n.log.head.index ≤ (n.setNext peer i).startIndex peer - 1 := by
    unfold startIndex
    rw [next_setNext]
    have : n.log.head.index ≤ (n.setNext peer i).log.lastLogIndexLocked := hhead
    omega
  have hnext : (n.setNext peer i).log.lastIncludedIndexLocked < (n.setNext peer i).next peer := by
    rw [next_setNext]
    exact hi
  have hnext' : (m.setNext peer i).log.lastIncludedIndexLocked < (m.setNext peer i).next peer := by
    rw [next_setNext]
    exact hle.trans_lt hi
  obtain ⟨t, ht, hn⟩ := makeAppendRequest_eq (n := n.setNext peer i)
    (h.compacted.contiguous h.contiguous) hnext
  obtain ⟨t', ht', hm⟩ := makeAppendRequest_eq (n := m.setNext peer i) h.contiguous hnext'
  -- the terms before the entries are the same, since the log of `n` covers them
  obtain rfl : t = t' := by
    rw [hstart] at ht'
    have hsame := h.compacted.termAt_eq hcover
    exact Option.some.inj (ht.symm.trans (hsame.trans ht'))
  -- and so are the entries
  have hentries := h.compacted.drop_eq hcover
  rw [hn, hm, hstart]
  show some (AppendEntriesRequest.mk n.currentTerm n.id _ t (n.log.tail.drop _) n.commitIndex) =
    some (AppendEntriesRequest.mk m.currentTerm m.id _ t (m.log.tail.drop _) m.commitIndex)
  rw [hterm, hid, hcommit]
  exact congrArg (fun es => some (AppendEntriesRequest.mk n.currentTerm n.id _ t es n.commitIndex))
    hentries

theorem Shadows.indistinguishable (h : Shadows n m) : Indistinguishable n m := by
  obtain ⟨d, hd⟩ := h.same
  have hfields : n.state = m.state ∧ n.votedFor = m.votedFor ∧ n.commitIndex = m.commitIndex ∧
      n.lastApplied = m.lastApplied ∧ n.peerAddrs = m.peerAddrs ∧ n.machine = m.machine := by
    subst hd
    exact ⟨rfl, rfl, rfl, rfl, rfl, rfl⟩
  obtain ⟨hstate, hvoted, hcommit, hla, hpeers, hmachine⟩ := hfields
  exact
    { state_eq := hstate
      currentTerm_eq := h.currentTerm_eq.symm
      votedFor_eq := hvoted
      commitIndex_eq := hcommit
      lastApplied_eq := hla
      lastLogIndex_eq := h.lastLogIndex_eq.symm
      lastLogTerm_eq := h.lastLogTerm_eq.symm
      entries_eq := fun _ hi => h.compacted.entryAt_eq hi
      peerAddrs_eq := hpeers
      machine_eq := hmachine
      vote_eq := fun req => (h.requestVote req).2.symm
      append_eq := fun _ hprev => (h.appendEntries hprev).2.symm
      propose_eq := fun cmd => (h.propose cmd).2.symm
      addServer_eq := fun id addr http => (h.addServer id addr http).2.symm
      removeServer_eq := fun id => (h.removeServer id).2.symm
      request_eq := fun peer _ hi => h.request_eq peer hi }

/-- **Compaction is invisible.** Two copies of an orderly node, one of which takes snapshots, stay
indistinguishable whatever happens to both. -/
theorem compaction_invisible {acts : List (Event × Event)} (h₀ : Orderly n₀)
    (hk : 0 < n₀.snapshotThreshold)
    (hrun : StepPath twinStep Comparable (n₀, uncompacting n₀) acts (n, m)) :
    Indistinguishable n m := by
  have h : InStep (n, m) := hrun.invariant (fun _ _ _ h hx hstep => h.step hx hstep) (h₀.shadows hk)
  exact Shadows.indistinguishable h

/-! A leader that compacts its first entry sends a snapshot to `n3`, the other copy the entry. -/

/-- `n1` compacts after one entry. -/
def twinConfig : Config where
  id := "n1"
  peerAddrs := threeNodes
  snapshotThreshold := 1

/-- The vote of `n2` for `n1`. -/
def electedAt : Event :=
  .voteReply "n2" { term := 1, candidateID := "n1", lastLogIndex := 0, lastLogTerm := 0 }
    { term := 1, voteGranted := true }

/-- The leader's first entry. -/
def noopRequest : AppendEntriesRequest where
  term := 1
  leaderID := "n1"
  prevLogIndex := 0
  prevLogTerm := 0
  entries := [{ term := 1, index := 1 }]
  leaderCommit := 0

/-- The peer has taken the no-op. -/
def noopTaken (peer : String) : Event :=
  .appendReply peer noopRequest { term := 1, success := true }

/-- The snapshot of it. -/
def noopSnapshot : InstallSnapshotRequest where
  term := 1
  leaderID := "n1"
  lastIncludedIndex := 1
  lastIncludedTerm := 1
  data := [0]
  peers := threeNodes
  http := .empty

/-- The peer has taken the snapshot that covers it. -/
def snapshotTaken (peer : String) : Event := .installReply peer noopSnapshot { term := 1 }

/-- The events of both copies; only the last ones differ. -/
def sharedEvents : List (Event × Event) :=
  [(.tick true, .tick true), (electedAt, electedAt), (noopTaken "n2", noopTaken "n2"),
    (.propose [1], .propose [1]), (snapshotTaken "n3", noopTaken "n3")]

def twinNode : RaftNode Unit := RaftNode.boot idle twinConfig (some {})

/-- The two copies after the events. -/
def twins : RaftNode Unit × RaftNode Unit :=
  (exec twinStep (twinNode, uncompacting twinNode) sharedEvents).getD
    (twinNode, twinNode)

theorem twins_run : StepPath twinStep Comparable (twinNode, uncompacting twinNode)
    sharedEvents twins := by
  -- the replies for the entry, and for the snapshot of it
  have hconfirm : ∀ peer, ReplyOf peer 1 1 (some 1) (noopTaken peer) :=
    fun _ => ReplyOf.appended noopRequest { term := 1, success := true } rfl rfl rfl
  refine StepPath.cons (Or.inl ⟨rfl, trivial⟩) rfl (StepPath.cons (Or.inl ⟨rfl, trivial⟩) rfl ?_)
  refine StepPath.cons (Or.inr ⟨"n2", 1, 1, some 1, hconfirm _, hconfirm _, Or.inl rfl⟩) rfl ?_
  have hinstalled : ReplyOf "n3" 1 1 (some 1) (snapshotTaken "n3") :=
    ReplyOf.installed noopSnapshot { term := 1 } rfl rfl
  refine StepPath.cons (Or.inl ⟨rfl, trivial⟩) rfl ?_
  exact StepPath.cons (Or.inr ⟨"n3", 1, 1, some 1, hinstalled, hconfirm _, Or.inl rfl⟩) rfl
    (StepPath.nil _)

theorem compaction_invisible_sample :
    twins.1.log.lastIncludedIndexLocked = 1 ∧ twins.2.log.lastIncludedIndexLocked = 0 ∧
      twins.1.commitIndex = 1 ∧ Indistinguishable twins.1 twins.2 := by
  refine ⟨by decide +kernel, by decide +kernel, by decide +kernel, ?_⟩
  refine compaction_invisible (orderly_boot (by decide) fun d hd => ?_)
    (by decide +kernel) twins_run
  cases hd

end Node
