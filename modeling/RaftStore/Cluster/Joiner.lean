import RaftStore.Lib.Path
import RaftStore.Node.Sections

/-!
# A joining node

One node that is started to join a cluster, with everything that may happen to it: requests and
replies with any contents and in any order, ticks, calls of clients, crashes, and restarts, either
with the configuration it was started with or by `Cluster.Restart`, which starts it as an ordinary
member.

Saves may fail, so what a crash inside a critical section leaves behind is covered as well: it is
what a crash after the section leaves if the saves that were not reached fail.

`Joiner.held` records whether the node has been given a configuration, and `Joiner.heard` whether it
has heard of a leader since it was started. `Waiting` is what holds of the node before it is given
one: it is a follower, there is no change in its log or its storage, and it is a member of its base
configuration, alone unless `Cluster.Restart` has started it. As long as it has not heard of a
leader either, its `joining` flag is set.
-/

namespace Cluster

open Raft

variable {σ : Type} {ev : Event}

/-! ## Starting -/

/-- `SnapshotThreshold` of `DefaultConfig`. -/
def defaultSnapshotThreshold : Int := 32

/-- The configuration that `startMemberJoin` starts a member with; there is none without a raft
address. -/
def memberConfig (raftAddrs httpAddrs : AddrMap) (id : String) (join : Bool) : Option Config :=
  (raftAddrs.get? id).map (fun raftAddr =>
    let httpAddr := (httpAddrs.get? id).getD ""
    if join then
      { id := id
        peerAddrs := .single id raftAddr
        snapshotThreshold := defaultSnapshotThreshold
        httpAddrs := if httpAddr ≠ "" then .single id httpAddr else .empty
        join := true }
    else
      { id := id
        peerAddrs := raftAddrs
        snapshotThreshold := defaultSnapshotThreshold
        httpAddrs := httpAddrs
        join := false })

/-- A node that is started to join, with itself as its only peer. -/
structure JoinConfig extends Config where
  joins : join = true
  alone : peerAddrs.keys = [id]

/-! ## Running -/

/-- The event gives the node a configuration: it accepts a change, or installs a snapshot with its
peers. -/
def brings (n : RaftNode σ) : Event → Bool
  | .appendEntries req =>
    (n.handleAppendEntries req).2.success && req.entries.any (fun e => e.change.isSome)
  | .installSnapshot req =>
    decide (n.currentTerm ≤ req.term) &&
      decide (n.log.lastIncludedIndexLocked < req.lastIncludedIndex) && !req.peers.isEmpty
  | _ => false

/-- The event is a request of a leader that is not stale. -/
def hears (n : RaftNode σ) : Event → Bool
  | .appendEntries req => decide (n.currentTerm ≤ req.term)
  | .installSnapshot req => decide (n.currentTerm ≤ req.term)
  | _ => false

/-- A tick that finds the deadline passed. -/
def fires : Event → Bool
  | .tick due => due
  | _ => false

/-- A joining node. `held`: it has been given a configuration; `heard`: since its start it has heard
of a leader, or it was started as an ordinary member; `enrolled`: it was started as an ordinary
member at some time. -/
structure Joiner (σ : Type) where
  node : RaftNode σ
  up : Bool := true
  held : Bool := false
  heard : Bool := false
  enrolled : Bool := false

namespace Joiner

def init (M : Machine σ) (cfg : JoinConfig) (storage : Option Storage) : Joiner σ where
  node := RaftNode.boot M cfg.toConfig storage

def step (M : Machine σ) (cfg : JoinConfig) (j : Joiner σ) : Event → Option (Joiner σ)
  | .crash => if j.up then some { j with up := false } else none
  | .restart =>
    if j.up then none
    else
      some
        { j with node := RaftNode.boot M cfg.toConfig j.node.storage, up := true, heard := false }
  | .clusterRestart raftAddrs httpAddrs =>
    if j.up then none
    else
      (memberConfig raftAddrs httpAddrs cfg.id false).map (fun c =>
        { j with
          node := RaftNode.boot M c j.node.storage, up := true, heard := true, enrolled := true })
  | ev =>
    if j.up then
      some { j with
        node := handle j.node ev
        held := j.held || brings j.node ev
        heard := j.heard || hears j.node ev }
    else none

/-- The timer of the node is not due once it has heard of a leader, or was started as an ordinary
member. -/
def Patient (j : Joiner σ) (ev : Event) : Prop :=
  j.heard = true ∨ j.enrolled = true → fires ev = false

instance (j : Joiner σ) (ev : Event) : Decidable (j.Patient ev) :=
  inferInstanceAs (Decidable (_ ∨ _ → _))

end Joiner

/-! ## Waiting -/

variable {cfg : JoinConfig} {n : RaftNode σ} {heard enrolled : Bool}

/-- A base configuration of which the node is a member, alone unless it was started as an ordinary
one. -/
structure Base (cfg : JoinConfig) (enrolled : Bool) (peers : AddrMap) : Prop where
  mem : cfg.id ∈ peers.keys
  alone : enrolled = false → peers = cfg.peerAddrs

/-- A saved state without a change. -/
structure Unchanged (cfg : JoinConfig) (enrolled : Bool) (d : DurableState) : Prop where
  log : ∃ log : Log, d.log = log.toList ∧ ∀ e ∈ log.tail, e.change = none
  base : Base cfg enrolled d.snapshotPeers

structure Waiting (cfg : JoinConfig) (heard enrolled : Bool) (n : RaftNode σ) : Prop where
  id_eq : n.id = cfg.id
  state_eq : n.state = .follower
  log : ∀ e ∈ n.log.tail, e.change = none
  base : Base cfg enrolled n.basePeers
  peers_eq : n.peerAddrs = n.basePeers
  saved : ∀ s ∈ n.storage, ∀ d ∈ s.saved, Unchanged cfg enrolled d
  joining : heard = false → enrolled = false → n.joining = true
  joined : heard = true → n.joining = false

/-- Entries without changes leave the configuration alone. -/
theorem foldl_applyEntry_of_none {es : List LogEntry} (h : ∀ e ∈ es, e.change = none)
    (c : AddrMap × AddrMap) : es.foldl applyEntry c = c := by
  induction es with
  | nil => rfl
  | cons e rest ih =>
    have he : applyEntry c e = c := by
      unfold applyEntry
      rw [h e List.mem_cons_self]
    rw [List.foldl_cons, he, ih (fun x hx => h x (List.mem_cons_of_mem e hx))]

theorem Waiting.persist (h : Waiting cfg heard enrolled n) :
    Waiting cfg heard enrolled n.persistLocked := by
  refine { h with saved := ?_ }
  intro s hs d hd
  obtain ⟨s₀, hs₀, rfl⟩ := Option.mem_map.mp hs
  rcases Storage.mem_saved_save hd with rfl | hold
  · exact ⟨⟨n.log, rfl, h.log⟩, h.base⟩
  · exact h.saved s₀ hs₀ d hold

/-- The membership is rebuilt from a log without changes. -/
theorem Waiting.rebuild {m : RaftNode σ}
    (h : Waiting cfg heard enrolled { m with peerAddrs := m.basePeers }) :
    Waiting cfg heard enrolled m.rebuildMembershipLocked := by
  have hfold := foldl_applyEntry_of_none h.log (m.basePeers, m.baseHTTP)
  exact { h with peers_eq := congrArg Prod.fst hfold }

theorem Waiting.becomeFollower (h : Waiting cfg heard enrolled n) (term : Int) (leaderID : String) :
    Waiting cfg heard enrolled (n.becomeFollowerLocked term leaderID) := by
  unfold RaftNode.becomeFollowerLocked
  dsimp only
  split
  · have hterm : Waiting cfg heard enrolled { n with currentTerm := term, votedFor := "" } :=
      { h with }
    exact { hterm.persist with state_eq := rfl }
  · exact { h with state_eq := rfl }

theorem Waiting.not_leader (h : Waiting cfg heard enrolled n) : n.state ≠ .leader := by
  rw [h.state_eq]
  decide

/-- A compaction drops entries that change nothing. -/
theorem Waiting.compactTo (h : Waiting cfg heard enrolled n) {index : Int}
    (hidx : n.log.lastIncludedIndexLocked < index) (e : LogEntry) (data : Bytes) :
    Waiting cfg heard enrolled (n.compactTo index e data) := by
  -- no entry has a change, so the base stays
  have hmem : n.membershipAtLocked index = (n.basePeers, n.baseHTTP) := by
    refine foldl_applyEntry_of_none (fun x hx => h.log x ?_) _
    exact ( List.takeWhile_prefix _).subset hx
  -- the slice starts behind the first entry
  have hslice : ∀ x ∈ n.log.slice (n.log.sliceIndexLocked index + 1), x ∈ n.log.tail := by
    intro x hx
    obtain ⟨k, hk⟩ : ∃ k, (n.log.sliceIndexLocked index + 1).toNat = k + 1 := by
      unfold Log.lastIncludedIndexLocked at hidx
      exact ⟨(n.log.sliceIndexLocked index).toNat, by unfold Log.sliceIndexLocked; omega⟩
    unfold Log.slice at hx
    rw [hk] at hx
    exact List.mem_of_mem_drop hx
  unfold RaftNode.compactTo
  rw [hmem]
  have hcut : Waiting cfg heard enrolled { n with
      log := ⟨{ term := e.term, index := index }, n.log.slice (n.log.sliceIndexLocked index + 1)⟩
      snapshot := data, peerAddrs := n.basePeers } :=
    { h with log := fun x hx => h.log x (hslice x hx), peers_eq := rfl }
  have hbuilt := Waiting.rebuild (m := { n with
      log := ⟨{ term := e.term, index := index }, n.log.slice (n.log.sliceIndexLocked index + 1)⟩
      snapshot := data }) hcut
  exact Waiting.persist { hbuilt with }

theorem Waiting.applyCommitted (h : Waiting cfg heard enrolled n) :
    Waiting cfg heard enrolled n.applyCommittedLocked := by
  obtain ⟨la, x, applies, hloop⟩ := n.applyLoop_eq (n.commitIndex - n.lastApplied).toNat
  -- applying leaves the configuration alone
  have happlied : Waiting cfg heard enrolled
      { n with lastApplied := la, machine := x, applies := applies } := { h with }
  unfold RaftNode.applyCommittedLocked
  rw [hloop]
  rcases RaftNode.maybeCompact_cases
    { n with lastApplied := la, machine := x, applies := applies } with
    ⟨hkept, _⟩ | ⟨e, data, hdue, hcompact⟩
  · rw [hkept]
    exact happlied
  · rw [hcompact]
    exact happlied.compactTo hdue.head_lt e data

/-- A tick is no reason to campaign, as long as the node is joining or its timer is not due. -/
theorem Waiting.tick (h : Waiting cfg heard enrolled n) {due : Bool}
    (hdue : heard = true ∨ enrolled = true → due = false) :
    Waiting cfg heard enrolled (n.tick due) := by
  have hnot : (!n.joining && n.isVoterLocked && due) = false := by
    by_cases htold : heard = true ∨ enrolled = true
    · simp [hdue htold]
    · rw [not_or, Bool.not_eq_true, Bool.not_eq_true] at htold
      simp [h.joining htold.1 htold.2]
  -- nothing due, a leader's heartbeat, or an election
  obtain ⟨m, heq, rfl | ⟨hl, _⟩ | ⟨_, hgo, _⟩⟩ := n.tick_cases due
  · rw [heq]
    exact h.applyCommitted
  · exact absurd hl h.not_leader
  · rw [hnot] at hgo
    cases hgo

theorem Waiting.requestVote (h : Waiting cfg heard enrolled n) (req : RequestVoteRequest) :
    Waiting cfg heard enrolled (n.handleRequestVote req).1 := by
  rcases n.handleRequestVote_cases req with ⟨_, heq⟩ | ⟨m, hm, _, hvoted⟩
  · rw [heq]
    exact h
  have hterm : Waiting cfg heard enrolled m := by
    -- the term may have risen before
    rcases hm with ⟨_, rfl⟩ | ⟨_, rfl⟩
    · exact h
    · exact h.becomeFollower _ _
  rcases hvoted with ⟨_, _, heq⟩ | heq
  · have hvote : Waiting cfg heard enrolled { m with votedFor := req.candidateID } := { hterm with }
    rw [heq]
    exact hvote.persist
  · rw [heq]
    exact hterm

/-! ## Requests of a leader -/

/-- The flag is cleared before the request is looked at. -/
theorem Waiting.hearLeader (h : Waiting cfg heard enrolled n) (term : Int) (leaderID : String) :
    Waiting cfg true enrolled (n.hearLeader term leaderID) := by
  have hmark : ∀ m : RaftNode σ, Waiting cfg heard enrolled m →
      Waiting cfg true enrolled { m with leaderID := leaderID, joining := false } :=
    fun m hm => { hm with joining := fun hno => (by cases hno), joined := fun _ => rfl }
  unfold RaftNode.hearLeader
  dsimp only
  split
  -- the term rises, or stays
  · exact hmark _ (h.becomeFollower term leaderID)
  · exact hmark n h

theorem Waiting.merge (h : Waiting cfg heard enrolled n) {req : AppendEntriesRequest}
    (hreq : ∀ e ∈ req.entries, e.change = none) :
    Waiting cfg heard enrolled (n.mergeLocked req) := by
  rcases n.mergeLocked_cases req with heq | heq
  · rw [heq]
    exact h
  · have hmerged : ∀ x ∈ (n.log.mergeEntries req.entries (req.prevLogIndex + 1)).1.tail,
        x.change = none := by
      intro x hx
      -- an entry of the log, or one of the request
      rcases Log.mem_mergeEntries hx with hold | ⟨e, he, hcopy⟩
      · exact h.log x hold
      · exact hcopy.2.2.trans (hreq e he)
    have hbuilt : Waiting cfg heard enrolled { n with
        log := (n.log.mergeEntries req.entries
          (req.prevLogIndex + 1)).1 }.rebuildMembershipLocked :=
      Waiting.rebuild { h with log := hmerged, peers_eq := rfl }
    rw [heq]
    exact Waiting.persist { hbuilt with }

theorem Waiting.followCommit (h : Waiting cfg heard enrolled n) (leaderCommit : Int) :
    Waiting cfg heard enrolled (n.followCommitLocked leaderCommit) := by
  unfold RaftNode.followCommitLocked
  split
  · exact Waiting.applyCommitted { h with }
  · exact h

theorem Waiting.appendEntries (h : Waiting cfg heard enrolled n) {req : AppendEntriesRequest}
    (hbrings : brings n (.appendEntries req) = false) :
    Waiting cfg (heard || hears n (.appendEntries req)) enrolled (n.handleAppendEntries req).1 := by
  have hheard := h.hearLeader req.term req.leaderID
  have hnow (hterm : n.currentTerm ≤ req.term) :
      (heard || hears n (.appendEntries req)) = true := by
    simp [hears, hterm]
  rcases n.handleAppendEntries_cases req with ⟨hlt, heq⟩ | ⟨hterm, _, heq⟩ | ⟨hterm, _, heq⟩
  · have hstale : hears n (.appendEntries req) = false := decide_eq_false (not_le.mpr hlt)
    rw [hstale, Bool.or_false, heq]
    exact h
  · rw [hnow hterm, heq]
    exact hheard
  · -- what it accepts holds no change
    have hnone : ∀ e ∈ req.entries, e.change = none := by
      simpa [brings, heq] using hbrings
    rw [hnow hterm, heq]
    exact (hheard.merge hnone).followCommit _

theorem Waiting.installSnapshot (h : Waiting cfg heard enrolled n) {req : InstallSnapshotRequest}
    (hbrings : brings n (.installSnapshot req) = false) :
    Waiting cfg (heard || hears n (.installSnapshot req)) enrolled
      (n.handleInstallSnapshot req).1 := by
  have hheard := h.hearLeader req.term req.leaderID
  have hnow (hterm : n.currentTerm ≤ req.term) :
      (heard || hears n (.installSnapshot req)) = true := by
    simp [hears, hterm]
  rcases n.handleInstallSnapshot_cases req with ⟨hlt, heq⟩ | ⟨hterm, _, heq⟩ | ⟨hterm, hidx, heq⟩
  · have hstale : hears n (.installSnapshot req) = false := decide_eq_false (not_le.mpr hlt)
    rw [hstale, Bool.or_false, heq]
    exact h
  · rw [hnow hterm, heq]
    exact hheard
  · -- the snapshot is installed, and the base configuration stays
    have hpeers : req.peers.isEmpty = true := by
      simpa [brings, hterm, hidx] using hbrings
    rw [hnow hterm, heq]
    obtain ⟨k, ⟨hsome, _⟩ | ⟨_, rfl⟩, hinstalled⟩ :=
      (n.hearLeader req.term req.leaderID).installLocked_eq req
    · rw [hpeers] at hsome
      cases hsome
    · rw [hinstalled]
      exact Waiting.persist { hheard with log := fun e he => (by cases he) }

theorem Waiting.proposeChange (h : Waiting cfg heard enrolled n) (ch : MembershipChange) :
    (n.proposeChangeLocked ch).1 = n := by
  rcases n.proposeChange_cases ch with ⟨e, heq⟩ | ⟨_, _, ⟨_, hld, _⟩, _⟩
  · rw [heq]
  · exact absurd hld h.not_leader

/-- What is not a request of a leader. Most of it is for a leader. -/
theorem Waiting.handle_other (h : Waiting cfg heard enrolled n)
    (hev : (∀ req, ev ≠ .appendEntries req) ∧ ∀ req, ev ≠ .installSnapshot req)
    (hdue : heard = true ∨ enrolled = true → fires ev = false) :
    Waiting cfg heard enrolled (handle n ev) := by
  have hld := h.not_leader
  cases ev with
  | tick due => exact h.tick hdue
  | requestVote req => exact h.requestVote req
  | appendEntries req => exact absurd rfl (hev.1 req)
  | installSnapshot req => exact absurd rfl (hev.2 req)
  | voteReply peer req resp =>
    show Waiting cfg heard enrolled (n.sendRequestVoteReply peer req resp)
    rcases n.sendRequestVoteReply_cases peer req resp with ⟨_, heq⟩ | heq | ⟨⟨hcand, _⟩, _⟩
    · rw [heq]
      exact h.becomeFollower _ _
    · rw [heq]
      exact h
    · exact absurd (h.state_eq.symm.trans hcand) (by decide)
  | appendReply peer req resp =>
    have hlate : n.replicateToAppended peer req resp = n.replicateAgain peer false :=
      if_pos (Or.inl hld)
    simp only [Cluster.handle, hlate]
    exact { h with }
  | installReply peer req resp =>
    have hlate : n.replicateToInstalled peer req resp = n.replicateAgain peer false :=
      if_pos (Or.inl hld)
    simp only [Cluster.handle, hlate]
    exact { h with }
  | confirmReply term resp =>
    show Waiting cfg heard enrolled (n.sendConfirmHeartbeatReply term resp).1
    unfold RaftNode.sendConfirmHeartbeatReply
    split
    · exact h.becomeFollower _ _
    · exact h
  | replicate peer =>
    have hnone : n.replicateToHead peer = (n, none) := if_pos hld
    simp only [Cluster.handle, hnone]
    exact { h with }
  | replicateDone peer => exact { h with }
  | propose cmd =>
    show Waiting cfg heard enrolled (n.propose cmd).1
    rcases n.propose_cases cmd with ⟨e, heq⟩ | ⟨⟨_, hl⟩, _⟩
    · rw [heq]
      exact h
    · exact absurd hl hld
  | addServer target addr http =>
    show Waiting cfg heard enrolled (n.addServer target addr http).1
    unfold RaftNode.addServer
    split
    · exact h
    · rw [h.proposeChange]
      exact h
  | removeServer target =>
    show Waiting cfg heard enrolled (n.removeServer target).1
    unfold RaftNode.removeServer
    split
    · exact h
    · rw [h.proposeChange]
      exact h
  | readIndex =>
    show Waiting cfg heard enrolled n.waitCurrentTermPoll.1
    unfold RaftNode.waitCurrentTermPoll
    rw [if_pos hld]
    exact h
  | crash => exact h
  | restart => exact h
  | clusterRestart raftAddrs httpAddrs => exact h

/-- **One event** that brings no configuration. -/
theorem Waiting.handle (h : Waiting cfg heard enrolled n)
    (hbrings : brings n ev = false)
    (hdue : heard = true ∨ enrolled = true → fires ev = false) :
    Waiting cfg (heard || hears n ev) enrolled (handle n ev) := by
  cases ev with
  | appendEntries req => exact h.appendEntries hbrings
  | installSnapshot req => exact h.installSnapshot hbrings
  | _ =>
    show Waiting cfg (heard || false) enrolled _
    rw [Bool.or_false]
    exact h.handle_other ⟨by simp, by simp⟩ hdue

/-- A node that has heard of a leader campaigns when its timer is due. -/
theorem Waiting.campaigns (h : Waiting cfg true enrolled n) : (n.tick true).state ≠ .follower := by
  have hvoter : n.isVoterLocked = true := by
    unfold RaftNode.isVoterLocked
    rw [h.peers_eq, h.id_eq]
    exact (OrdMap.get?_isSome_iff _ _).mpr h.base.mem
  have hjoined : n.joining = false := h.joined rfl
  have htick : n.tick true = n.startElectionLocked.applyCommittedLocked := by
    simp [RaftNode.tick, h.state_eq, hjoined, hvoter]
  rw [htick, RaftNode.state_applyCommitted]
  unfold RaftNode.startElectionLocked
  rw [if_neg (by simp [hjoined, hvoter])]
  dsimp only
  split
  · rw [(Node.becomeLeader_fields _).1]
    decide
  · rw [RaftNode.foldl_spawn]
    exact State.noConfusion

/-! ## Starting -/

theorem Waiting.restoreSnapshot (h : Waiting cfg heard enrolled n) :
    Waiting cfg heard enrolled n.restoreSnapshotLocked := by
  obtain ⟨x, la, ci, hx⟩ := RaftNode.restoreSnapshot_fields n
  rw [hx]
  exact { h with }

theorem Waiting.load (h : Waiting cfg heard enrolled n) {d : DurableState}
    (hd : Unchanged cfg enrolled d) :
    Waiting cfg heard enrolled { n.load d with peerAddrs := (n.load d).basePeers } := by
  obtain ⟨log, hlog, hnone⟩ := hd.log
  have hpeers : d.snapshotPeers.isEmpty = false := OrdMap.isEmpty_eq_false_of_mem hd.base.mem
  unfold RaftNode.load
  rw [hlog, hpeers]
  exact { h with log := hnone, base := hd.base, peers_eq := rfl }

/-- Recovery of a state without changes. -/
theorem Waiting.recover (h : Waiting cfg heard enrolled n) {d : DurableState}
    (hd : Unchanged cfg enrolled d) : Waiting cfg heard enrolled (n.recover d) := by
  have hbuilt (k : RaftNode σ)
      (hk : Waiting cfg heard enrolled { k with peerAddrs := k.basePeers }) :
      Waiting cfg heard enrolled k.restoreSnapshotLocked.rebuildMembershipLocked := by
    obtain ⟨x, la, ci, hx⟩ := RaftNode.restoreSnapshot_fields k
    rw [hx]
    exact Waiting.rebuild { hk with }
  -- a node that is alone does not stop joining
  have hjoined (k : RaftNode σ) (hk : Waiting cfg heard enrolled k.rebuildMembershipLocked) :
      Waiting cfg heard enrolled (if k.rebuildMembershipLocked.peerIDs.length > 1 then
        { k.rebuildMembershipLocked with joining := false } else k.rebuildMembershipLocked) := by
    split
    · next hmany =>
      refine { hk with joining := fun hno halone => ?_, joined := fun _ => rfl }
      have hids : k.rebuildMembershipLocked.peerIDs = [cfg.id] := by
        show k.rebuildMembershipLocked.peerAddrs.keys = _
        rw [hk.peers_eq, hk.base.alone halone, cfg.alone]
      rw [hids] at hmany
      exact absurd hmany (by simp)
    · exact hk
  refine hjoined _ (hbuilt _ ?_)
  split
  · exact { h.load hd with }
  · exact h.load hd

/-- A start from such states, with the node's own settings or as an ordinary member. -/
theorem waiting_boot (M : Machine σ) {c : Config} {storage : Option Storage}
    (hid : c.id = cfg.id) (hbase : Base cfg enrolled c.peerAddrs) (hjoin : c.join = !heard)
    (hst : ∀ s ∈ storage, ∀ d ∈ s.saved, Unchanged cfg enrolled d) :
    Waiting cfg heard enrolled (RaftNode.boot M c storage) := by
  have hfresh : Waiting cfg heard enrolled (RaftNode.fresh c storage (some M.snapshotter) M.init) :=
    ⟨hid, rfl, fun e he => (by cases he), hbase, rfl, hst,
      fun hno _ => by rw [hno] at hjoin; exact hjoin,
      fun hyes => by rw [hyes] at hjoin; exact hjoin⟩
  have hnew : Waiting cfg heard enrolled
      (RaftNode.newNode c storage (some M.snapshotter) M.init) := by
    unfold RaftNode.newNode
    cases storage with
    | none => exact hfresh
    | some s =>
      dsimp only
      split
      · next hstate =>
        -- the latest state that was saved
        have hlast : Unchanged cfg enrolled s.load := by
          unfold Storage.load at hstate ⊢
          cases hs : s.saved with
          | nil =>
            rw [hs] at hstate
            cases hstate
          | cons d rest => exact hst s rfl d (by rw [hs]; exact List.mem_cons_self)
        exact hfresh.recover hlast
      · exact hfresh
  have happly : Waiting cfg heard enrolled
      { RaftNode.newNode c storage (some M.snapshotter) M.init with
      apply := some M.apply } := { hnew with }
  exact { happly.restoreSnapshot with }

/-! ## Along a run -/

/-- A node without a configuration waits, or is down and will. -/
def Joiner.Waits (cfg : JoinConfig) (j : Joiner σ) : Prop :=
  j.held = false → Waiting cfg j.heard j.enrolled j.node

/-- An event at a node that is up. -/
theorem Joiner.Waits.handle {j : Joiner σ} (h : j.Waits cfg)
    (hpatient : j.held = false → j.Patient ev) :
    Joiner.Waits cfg
      { j with
        node := Cluster.handle j.node ev
        held := j.held || brings j.node ev
        heard := j.heard || hears j.node ev } := by
  intro hheld
  obtain ⟨hold, hbrings⟩ := Bool.or_eq_false_iff.mp hheld
  exact (h hold).handle hbrings (hpatient hold)

/-- **One event.** -/
theorem Joiner.Waits.step {M : Machine σ} {j j' : Joiner σ} (h : j.Waits cfg)
    (hpatient : j.held = false → j.Patient ev) (hstep : j.step M cfg ev = some j') :
    j'.Waits cfg := by
  cases ev with
  | crash =>
    simp only [Joiner.step] at hstep
    split at hstep <;> cases hstep
    exact h
  | restart =>
    simp only [Joiner.step] at hstep
    split at hstep <;> cases hstep
    intro hheld
    have hbase : Base cfg j.enrolled cfg.peerAddrs := ⟨by rw [cfg.alone]; simp, fun _ => rfl⟩
    exact waiting_boot M rfl hbase cfg.joins (h hheld).saved
  | clusterRestart raftAddrs httpAddrs =>
    -- started as an ordinary member, whatever its storage holds
    simp only [Joiner.step] at hstep
    split at hstep
    · cases hstep
    · obtain ⟨c, hc, rfl⟩ := Option.map_eq_some_iff.mp hstep
      intro hheld
      obtain ⟨addr, haddr, rfl⟩ := Option.map_eq_some_iff.mp hc
      have hbase : Base cfg true raftAddrs :=
        ⟨(OrdMap.get?_isSome_iff _ _).mp (by simp [haddr]), fun hno => (by cases hno)⟩
      have hsaved : ∀ s ∈ j.node.storage, ∀ d ∈ s.saved, Unchanged cfg true d := by
        intro s hs d hd
        have hold := (h hheld).saved s hs d hd
        exact ⟨hold.log, hold.base.mem, fun hno => (by cases hno)⟩
      exact waiting_boot M rfl hbase rfl hsaved
  | _ =>
    simp only [Joiner.step] at hstep
    split at hstep <;> cases hstep
    exact h.handle hpatient

end Cluster
