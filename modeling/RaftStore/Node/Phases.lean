import RaftStore.Node.Replay
import RaftStore.Node.Shadow
import RaftStore.Raft.Slices

/-!
# Phases of a critical section

The log, the two indexes and the state machine of a node (`Body`) change in a few phases: the commit
index moves, what is committed is applied and compacted, an entry is appended, the entries of a
leader are merged, a snapshot is installed. Every section is a sequence of these, with at most one
update of the log that is not a compaction, and this one is the event's own (`phases_handle`).

Unlike the updates of `Minor`, a phase keeps apply and compaction together. So it can be said that a
node which is not applying anything does not compact either (`Rested`), and with it that a snapshot
never reaches beyond the commit index, although the commit index may go back.

The largest index that a section may put into the log and what data a snapshot may carry are
parameters of the phases.
-/

namespace Node

open Raft Cluster RaftNode

variable {σ : Type} {B : Int} {D : Bytes → Prop} {n m : RaftNode σ}

/-! ## The phases -/

/-- The fields that phases are about. -/
structure Body (σ : Type) where
  log : Log
  snapshot : Bytes
  commitIndex : Int
  lastApplied : Int
  machine : σ
  snapshotter : Option (Snapshotter σ)
  snapshotThreshold : Int

def body (n : RaftNode σ) : Body σ where
  log := n.log
  snapshot := n.snapshot
  commitIndex := n.commitIndex
  lastApplied := n.lastApplied
  machine := n.machine
  snapshotter := n.snapshotter
  snapshotThreshold := n.snapshotThreshold

/-- What a phase makes of the body, with the update of the log that it is, a compaction apart. -/
inductive Phase (B : Int) (D : Bytes → Prop) (n : RaftNode σ) : Option Raw.Op → RaftNode σ → Prop
  | other {m : RaftNode σ} (h : body m = body n) (hst : Stores n m) : Phase B D n none m
  -- a leader's commit index grows, a follower's may go back to the end of its log
  | commit (i : Int) (hi : n.commitIndex ≤ i ∨ i = n.log.lastLogIndexLocked) :
      Phase B D n none { n with commitIndex := i }
  | apply : Phase B D n none n.applyCommittedLocked
  | append {m : RaftNode σ} (e : LogEntry) (hidx : e.index = n.log.lastLogIndexLocked + 1)
      (hB : n.log.lastLogIndexLocked + 1 ≤ B)
      (h : body m = { body n with log := n.log.append [e] }) (hst : Stores n m) :
      Phase B D n (some (.append e.term e.command e.change)) m
  | merge (req : AppendEntriesRequest) (hprev : n.PrevMatches req)
      (hB : n.log.lastLogIndexLocked + req.entries.length ≤ B) :
      Phase B D n (some (.entries req.prevLogIndex req.prevLogTerm req.entries)) (n.mergeLocked req)
  | install (req : InstallSnapshotRequest)
      (hidx : n.log.lastIncludedIndexLocked < req.lastIncludedIndex)
      (hB : req.lastIncludedIndex ≤ B) (hdata : D req.data) :
      Phase B D n (some (.install req.lastIncludedIndex req.lastIncludedTerm)) (n.installLocked req)

/-- Phases one after another, with their updates of the log. -/
inductive Phases (B : Int) (D : Bytes → Prop) : RaftNode σ → List Raw.Op → RaftNode σ → Prop
  | nil (n : RaftNode σ) : Phases B D n [] n
  | cons {n m k : RaftNode σ} {op : Option Raw.Op} {ops : List Raw.Op} (h : Phase B D n op m)
      (rest : Phases B D m ops k) : Phases B D n (op.toList ++ ops) k

theorem Phases.trans {k : RaftNode σ} {ops ops' : List Raw.Op} (h : Phases B D n ops m)
    (h' : Phases B D m ops' k) : Phases B D n (ops ++ ops') k := by
  induction h with
  | nil _ => exact h'
  | cons hstep _ ih =>
    rw [List.append_assoc]
    exact .cons hstep (ih h')

/-- One phase that leaves the log alone. -/
theorem Phases.single (h : Phase B D n none m) : Phases B D n [] m := .cons h (.nil m)

/-- **The rule for phases.** -/
theorem Phases.invariant {P : RaftNode σ → Prop} {ops : List Raw.Op}
    (hP : ∀ m op m', Phase B D m op m' → P m → P m') (h : Phases B D n ops m) (hn : P n) : P m := by
  induction h with
  | nil _ => exact hn
  | cons hstep _ ih => exact ih (hP _ _ _ hstep hn)

/-- Neither the body nor anything durable. -/
theorem phases_same (h : body m = body n) (hs : m.storage = n.storage)
    (hd : m.durable = n.durable) : Phases B D n [] m := .single (.other h (Or.inl ⟨hs, hd⟩))

theorem stores_applyCommitted (n : RaftNode σ) : Stores n n.applyCommittedLocked := by
  obtain ⟨la, x, applies, hloop⟩ := n.applyLoop_eq (n.commitIndex - n.lastApplied).toNat
  unfold applyCommittedLocked
  rw [hloop]
  -- a compaction saves, everything else has been saved before
  rcases maybeCompact_cases { n with lastApplied := la, machine := x, applies := applies } with
    ⟨hkept, _⟩ | ⟨e, data, _, hcompact⟩
  · rw [hkept]
    exact Or.inl ⟨rfl, rfl⟩
  · rw [hcompact]
    exact Or.inr rfl

theorem Phase.stores {op : Option Raw.Op} (h : Phase B D n op m) : Stores n m := by
  cases h with
  | other _ hst => exact hst
  | commit i _ => exact Or.inl ⟨rfl, rfl⟩
  | apply => exact stores_applyCommitted n
  | append _ _ _ _ hst => exact hst
  | merge req _ _ => exact stores_mergeLocked n req
  | install req _ _ _ => exact stores_installLocked n req

/-! ## Sections -/

theorem phases_becomeFollower (n : RaftNode σ) (term : Int) (leaderID : String) :
    Phases B D n [] (n.becomeFollowerLocked term leaderID) := by
  unfold becomeFollowerLocked
  dsimp only
  split
  · exact .single (.other rfl (Or.inr rfl))
  · exact phases_same rfl rfl rfl

theorem phases_hearLeader (n : RaftNode σ) (term : Int) (leaderID : String) :
    Phases B D n [] (n.hearLeader term leaderID) := by
  have hmark : ∀ m : RaftNode σ,
      Phases B D m [] { m with leaderID := leaderID, joining := false } :=
    fun m => phases_same rfl rfl rfl
  unfold hearLeader
  dsimp only
  split
  · exact (phases_becomeFollower n term leaderID).trans (hmark _)
  · exact hmark n

theorem phases_broadcast (n : RaftNode σ) : Phases B D n [] n.broadcastAppendEntriesLocked := by
  obtain ⟨r, g, heq⟩ := n.broadcast_eq
  rw [heq]
  exact phases_same rfl rfl rfl

theorem phases_spawns (peers : List String) (req : RequestVoteRequest) (n : RaftNode σ) :
    Phases B D n [] (peers.foldl (fun n' peer => n'.spawn (.sendRequestVote peer req)) n) := by
  induction peers generalizing n with
  | nil => exact .nil n
  | cons peer rest ih =>
    have hspawn : Phases B D n [] (n.spawn (.sendRequestVote peer req)) := phases_same rfl rfl rfl
    exact hspawn.trans (ih _)

/-- Commit and apply. -/
theorem phases_settle (n : RaftNode σ) :
    Phases B D n [] n.advanceCommitLocked.applyCommittedLocked := by
  obtain ⟨i, hle, heq⟩ := n.advanceCommit_eq
  rw [heq]
  exact .cons (.commit i (Or.inl hle)) (.single .apply)

/-- An entry is appended, and everything that a leader does then. -/
theorem phases_appended (e : LogEntry) (hidx : e.index = n.log.lastLogIndexLocked + 1)
    (hB : n.log.lastLogIndexLocked + 1 ≤ B) (hm : body m = { body n with log := n.log.append [e] })
    (hs : m.storage = n.storage) (index : Int) :
    Phases B D n [.append e.term e.command e.change] (m.appended index) := by
  have hstored : Stores n (m.persistLocked.trackSelf index) := by
    right
    show m.storage.map _ = _
    rw [hs]
    rfl
  unfold RaftNode.appended
  -- the entry is saved and tracked before anything is committed
  have happend : Phase B D n (some (.append e.term e.command e.change))
      (m.persistLocked.trackSelf index) :=
    .append e hidx hB hm hstored
  exact (Phases.cons happend (phases_settle _)).trans (phases_broadcast _)

/-- A leader starts with an entry of its term that carries nothing. -/
theorem phases_becomeLeader (hB : n.log.lastLogIndexLocked + 1 ≤ B) :
    Phases B D n [.append n.currentTerm [] none] n.becomeLeaderLocked := by
  unfold becomeLeaderLocked
  dsimp only
  refine Phases.cons (?_ : Phase B D n (some (.append n.currentTerm [] none)) _)
    ((phases_settle _).trans (phases_broadcast _))
  exact .append { term := n.currentTerm, index := n.log.lastLogIndexLocked + 1 } rfl hB rfl
    (Or.inr rfl)

/-- Nothing is written to the log, or one update is made. -/
def Writes (B : Int) (D : Bytes → Prop) (n : RaftNode σ) (own : Raw.Op → Prop) (m : RaftNode σ) :
    Prop :=
  Phases B D n [] m ∨ ∃ op, own op ∧ Phases B D n [op] m

theorem Writes.before {own : Raw.Op → Prop} {k : RaftNode σ} (h : Phases B D n [] m)
    (h' : Writes B D m own k) : Writes B D n own k := by
  rcases h' with h' | ⟨op, hop, h'⟩
  · exact Or.inl (h.trans h')
  · exact Or.inr ⟨op, hop, h.trans h'⟩

theorem Writes.after {own : Raw.Op → Prop} {k : RaftNode σ} (h : Writes B D n own m)
    (h' : Phases B D m [] k) : Writes B D n own k := by
  rcases h with h | ⟨op, hop, h⟩
  · exact Or.inl (h.trans h')
  · exact Or.inr ⟨op, hop, h.trans h'⟩

/-- A node that stands alone leads at once, in the next term. -/
theorem writes_startElection (hB : n.log.lastLogIndexLocked + 1 ≤ B) :
    Writes B D n (· = .append (n.currentTerm + 1) [] none) n.startElectionLocked := by
  -- the new leader appends an entry of the new term
  have hlead (m : RaftNode σ) (hterm : m.currentTerm = n.currentTerm + 1) (hlog : m.log = n.log) :
      Phases B D m [.append (n.currentTerm + 1) [] none] m.becomeLeaderLocked := by
    rw [← hterm]
    exact phases_becomeLeader (hlog ▸ hB)
  unfold startElectionLocked
  split
  · exact Or.inl (.nil n)
  dsimp only
  -- the vote for itself is saved first
  split
  · refine Writes.before ?_ (Or.inr ⟨_, rfl, hlead _ rfl rfl⟩)
    exact .single (.other rfl (Or.inr rfl))
  · refine Writes.before ?_ (Or.inl (phases_spawns _ _ _))
    exact .single (.other rfl (Or.inr rfl))

theorem writes_tick (hB : n.log.lastLogIndexLocked + 1 ≤ B) (due : Bool) :
    Writes B D n (· = .append (n.currentTerm + 1) [] none) (n.tick due) := by
  obtain ⟨m, heq, hm⟩ := n.tick_cases due
  rw [heq]
  refine Writes.after ?_ (.single .apply)
  rcases hm with rfl | ⟨_, rfl⟩ | ⟨_, _, rfl⟩
  · exact Or.inl (.nil _)
  · exact Or.inl (phases_broadcast n)
  · exact writes_startElection hB

theorem phases_requestVote (n : RaftNode σ) (req : RequestVoteRequest) :
    Phases B D n [] (n.handleRequestVote req).1 := by
  -- too old a term, a vote, or a refusal
  rcases n.handleRequestVote_cases req with ⟨_, heq⟩ | ⟨m, hm, _, hvoted⟩
  · rw [heq]
    exact .nil n
  have hheard : Phases B D n [] m := by
    rcases hm with ⟨_, rfl⟩ | ⟨_, rfl⟩
    · exact .nil _
    · exact phases_becomeFollower n _ _
  rcases hvoted with ⟨_, _, heq⟩ | heq
  · -- the vote is saved once more, after the term
    rw [heq]
    exact hheard.trans (.single (.other rfl (Or.inr rfl)))
  · rw [heq]
    exact hheard

theorem writes_voteReply (hB : n.log.lastLogIndexLocked + 1 ≤ B) (peer : String)
    (req : RequestVoteRequest) (resp : RequestVoteResponse) :
    Writes B D n (· = .append n.currentTerm [] none) (n.sendRequestVoteReply peer req resp) := by
  have hvotes : Phases B D n [] { n with votesReceived := insert peer n.votesReceived } :=
    phases_same rfl rfl rfl
  rcases n.sendRequestVoteReply_cases peer req resp with
    ⟨_, heq⟩ | heq | ⟨_, ⟨_, heq⟩ | ⟨_, heq⟩⟩
  · rw [heq]
    exact Or.inl (phases_becomeFollower n _ _)
  · rw [heq]
    exact Or.inl (.nil n)
  -- the last vote that it takes
  · rw [heq]
    exact Or.inr ⟨_, rfl, hvotes.trans (phases_becomeLeader hB)⟩
  · rw [heq]
    exact Or.inl hvotes

theorem phases_replicateAgain (n : RaftNode σ) (peer : String) (more : Bool) :
    Phases B D n [] (n.replicateAgain peer more) := phases_same rfl rfl rfl

theorem phases_matched (n : RaftNode σ) (peer : String) (index : Int) :
    Phases B D n [] (n.matched peer index) := by
  have hset : Phases B D n [] ((n.setMatch peer index).setNext peer (index + 1)) :=
    phases_same rfl rfl rfl
  exact (hset.trans (phases_settle _)).trans (phases_replicateAgain _ _ _)

theorem phases_appendReply (n : RaftNode σ) (peer : String) (req : AppendEntriesRequest)
    (resp : AppendEntriesResponse) : Phases B D n [] (n.replicateToAppended peer req resp) := by
  rcases n.replicateToAppended_cases peer req resp with
    ⟨_, heq⟩ | ⟨_, ⟨_, heq⟩ | ⟨_, _, heq⟩ | ⟨m, rfl | ⟨i, _, rfl⟩, heq⟩⟩
  · rw [heq]
    exact phases_replicateAgain n _ _
  · rw [heq]
    exact (phases_becomeFollower n resp.term "").trans (phases_replicateAgain _ _ _)
  · rw [heq]
    exact phases_matched n _ _
  · rw [heq]
    exact phases_replicateAgain _ _ _
  · rw [heq]
    exact (phases_same rfl rfl rfl : Phases B D n [] (n.setNext peer i)).trans
      (phases_replicateAgain _ _ _)

theorem phases_installReply (n : RaftNode σ) (peer : String) (req : InstallSnapshotRequest)
    (resp : InstallSnapshotResponse) : Phases B D n [] (n.replicateToInstalled peer req resp) := by
  rcases n.replicateToInstalled_cases peer req resp with
    ⟨_, heq⟩ | ⟨_, ⟨_, heq⟩ | ⟨_, heq⟩⟩
  · rw [heq]
    exact phases_replicateAgain n _ _
  · rw [heq]
    exact (phases_becomeFollower n resp.term "").trans (phases_replicateAgain _ _ _)
  · rw [heq]
    exact phases_matched n _ _

theorem phases_replicate (n : RaftNode σ) (peer : String) :
    Phases B D n [] (handle n (.replicate peer)) := by
  obtain ⟨m, hm, heq⟩ := handle_replicate_cases n peer
  -- only the next index of the peer may have been corrected
  have hset : Phases B D n [] m := by
    rcases hm with rfl | rfl
    · exact .nil _
    · exact phases_same rfl rfl rfl
  rcases heq with heq | heq
  · rw [heq]
    exact hset
  · rw [heq]
    exact hset.trans (phases_replicateAgain m peer false)

theorem writes_propose (hB : n.log.lastLogIndexLocked + 1 ≤ B) (cmd : Bytes) :
    Writes B D n (· = .append n.currentTerm cmd none) (n.propose cmd).1 := by
  rcases n.propose_cases cmd with ⟨e, heq⟩ | ⟨_, heq⟩
  · rw [heq]
    exact Or.inl (.nil n)
  -- the entry, with the next index and the leader's term
  · rw [heq]
    refine Or.inr ⟨_, rfl, phases_appended
      { term := n.currentTerm, index := n.log.lastLogIndexLocked + 1,
        command := cmd } ?_ hB ?_ ?_ _⟩
    · rfl
    · rfl
    · rfl

/-- The entry of a change carries the configuration that it leads to. -/
theorem writes_proposeChange (hB : n.log.lastLogIndexLocked + 1 ≤ B) (ch : MembershipChange) :
    Writes B D n (fun op => ∃ c, n.changedPeers ch = .ok c ∧
      op = .append n.currentTerm [] (some { ch with peers := c.1, httpAddrs := c.2 }))
      (n.proposeChangeLocked ch).1 := by
  rcases n.proposeChange_cases ch with ⟨e, heq⟩ | ⟨c, hok, _, heq⟩
  · rw [heq]
    exact Or.inl (.nil n)
  · rw [heq, ensurePeerTracking_spec]
    refine Or.inr ⟨_, ⟨c, hok, rfl⟩, phases_appended
      { term := n.currentTerm, index := n.log.lastLogIndexLocked + 1,
        change := some { ch with peers := c.1, httpAddrs := c.2 } } ?_ hB ?_ ?_ _⟩
    · rfl
    · rfl
    · rfl

theorem phases_followCommit (n : RaftNode σ) (leaderCommit : Int) :
    Phases B D n [] (n.followCommitLocked leaderCommit) := by
  unfold followCommitLocked
  split
  · next hgt =>
    dsimp only
    have hcommit : ∀ i, n.commitIndex ≤ i ∨ i = n.log.lastLogIndexLocked →
        Phases B D n [] { n with commitIndex := i }.applyCommittedLocked :=
      fun i hi => .cons (.commit i hi) (.single .apply)
    -- the leader's commit index, or the end of the log
    refine hcommit _ ?_
    split
    · exact Or.inr rfl
    · exact Or.inl hgt.le
  · exact .nil n

theorem writes_appendEntries {req : AppendEntriesRequest}
    (hB : n.log.lastLogIndexLocked + req.entries.length ≤ B) :
    Writes B D n (· = .entries req.prevLogIndex req.prevLogTerm req.entries)
      (n.handleAppendEntries req).1 := by
  have hheard := phases_hearLeader (B := B) (D := D) n req.term req.leaderID
  have hlog := log_hearLeader n req.term req.leaderID
  rcases n.handleAppendEntries_cases req with ⟨_, heq⟩ | ⟨_, _, heq⟩ | ⟨_, hprev, heq⟩
  · rw [heq]
    exact Or.inl (.nil n)
  · rw [heq]
    exact Or.inl hheard
  · rw [heq]
    -- the request is merged, and then the commit index follows
    refine Or.inr ⟨_, rfl, hheard.trans (.cons (.merge req ?_ ?_) (phases_followCommit _ _))⟩
    · unfold PrevMatches
      rw [hlog]
      exact hprev
    · rw [hlog]
      exact hB

theorem writes_installSnapshot {req : InstallSnapshotRequest} (hB : req.lastIncludedIndex ≤ B)
    (hdata : D req.data) :
    Writes B D n (· = .install req.lastIncludedIndex req.lastIncludedTerm)
      (n.handleInstallSnapshot req).1 := by
  have hheard := phases_hearLeader (B := B) (D := D) n req.term req.leaderID
  rcases n.handleInstallSnapshot_cases req with ⟨_, heq⟩ | ⟨_, _, heq⟩ | ⟨_, hidx, heq⟩
  · rw [heq]
    exact Or.inl (.nil n)
  · rw [heq]
    exact Or.inl hheard
  · rw [heq]
    refine Or.inr ⟨_, rfl, hheard.trans (.cons (.install req ?_ hB hdata) (.nil _))⟩
    rw [log_hearLeader]
    exact hidx

/-- The largest index that an event may put into the log is at most `B`, and the data of a snapshot
is such as `D` says. -/
def Within (B : Int) (D : Bytes → Prop) (n : RaftNode σ) : Event → Prop
  | .appendEntries req => n.log.lastLogIndexLocked + req.entries.length ≤ B
  | .installSnapshot req => req.lastIncludedIndex ≤ B ∧ D req.data
  | .tick _ | .voteReply .. | .propose _ | .addServer .. | .removeServer _ =>
    n.log.lastLogIndexLocked + 1 ≤ B
  | _ => True

/-- The update of the log that an event makes, if it makes one: the entry of a new leader, of a
command or of a change, the entries of a request, the snapshot of a request. -/
def Own (n : RaftNode σ) : Event → Raw.Op → Prop
  | .tick _, op => op = .append (n.currentTerm + 1) [] none
  | .voteReply _ _ _, op => op = .append n.currentTerm [] none
  | .propose cmd, op => op = .append n.currentTerm cmd none
  | .addServer target addr http, op =>
    let ch : MembershipChange := { type := changeAdd, id := target, addr := addr, http := http }
    ∃ c, n.changedPeers ch = .ok c ∧
      op = .append n.currentTerm [] (some { ch with peers := c.1, httpAddrs := c.2 })
  | .removeServer target, op =>
    let ch : MembershipChange := { type := changeRemove, id := target }
    ∃ c, n.changedPeers ch = .ok c ∧
      op = .append n.currentTerm [] (some { ch with peers := c.1, httpAddrs := c.2 })
  | .appendEntries req, op => op = .entries req.prevLogIndex req.prevLogTerm req.entries
  | .installSnapshot req, op => op = .install req.lastIncludedIndex req.lastIncludedTerm
  | _, _ => False

/-- **Every section is a sequence of phases**, with at most one update that is the event's own. -/
theorem phases_handle {ev : Event} (hB : Within B D n ev) :
    Writes B D n (Own n ev) (handle n ev) := by
  cases ev with
  | tick due => exact writes_tick hB due
  | requestVote req => exact Or.inl (phases_requestVote n req)
  | appendEntries req => exact writes_appendEntries hB
  | installSnapshot req => exact writes_installSnapshot hB.1 hB.2
  | voteReply peer req resp => exact writes_voteReply hB peer req resp
  | appendReply peer req resp => exact Or.inl (phases_appendReply n peer req resp)
  | installReply peer req resp => exact Or.inl (phases_installReply n peer req resp)
  | confirmReply term resp =>
    simp only [handle, sendConfirmHeartbeatReply]
    split
    · exact Or.inl (phases_becomeFollower n _ _)
    · exact Or.inl (.nil n)
  | replicate peer => exact Or.inl (phases_replicate n peer)
  | replicateDone peer => exact Or.inl (phases_same rfl rfl rfl)
  | propose cmd => exact writes_propose hB cmd
  | addServer target addr http =>
    simp only [handle, addServer]
    split
    · exact Or.inl (.nil n)
    · exact writes_proposeChange hB _
  | removeServer target =>
    simp only [handle, removeServer]
    split
    · exact Or.inl (.nil n)
    · exact writes_proposeChange hB _
  | readIndex =>
    simp only [handle, waitCurrentTermPoll]
    split
    · exact Or.inl (.nil n)
    split
    · exact Or.inl (.nil n)
    · exact Or.inl (phases_broadcast n)
  | crash => exact Or.inl (.nil n)
  | restart => exact Or.inl (.nil n)
  | clusterRestart raftAddrs httpAddrs => exact Or.inl (.nil n)

/-- **The rule for sections.** -/
theorem Writes.invariant {P : RaftNode σ → Prop} {own : Raw.Op → Prop}
    (hP : ∀ m op m', Phase B D m op m' → P m → P m') (h : Writes B D n own m) (hn : P n) : P m := by
  rcases h with h | ⟨_, _, h⟩
  · exact h.invariant hP hn
  · exact h.invariant hP hn

/-! ## A node at rest -/

/-- The log is in order, ends at `B` at the latest and starts at a snapshot. -/
structure Placed (B : Int) (log : Log) (snapshot : Bytes) : Prop where
  contiguous : log.Contiguous
  nonneg : 0 ≤ log.head.index
  last_le : log.lastLogIndexLocked ≤ B
  fresh : snapshot = [] → log.head.index = 0

/-- No snapshot is due, whether or not the entry it would end with is at hand. -/
def Undue (b : Body σ) : Prop :=
  ∀ s data, b.snapshotter = some s → s.snapshot b.machine = some data → 0 < b.snapshotThreshold →
    b.lastApplied - b.log.head.index < b.snapshotThreshold

/-- The snapshot is within what is applied and what is committed, and no snapshot is due. -/
structure Rested (B : Int) (b : Body σ) : Prop extends Placed B b.log b.snapshot where
  base_le_applied : b.log.head.index ≤ b.lastApplied
  base_le_commit : b.log.head.index ≤ b.commitIndex
  settled : Undue b
  -- the hook delivers data, so that a log is compacted only where there is a snapshot
  substance : ∀ s x data, b.snapshotter = some s → s.snapshot x = some data → data ≠ []

/-- A node that has applied nothing but its snapshot is not due for another one. -/
theorem undue_of_le {b : Body σ} (h : b.lastApplied ≤ b.log.head.index) : Undue b := by
  intro s data _ _ hpos
  omega

/-- A node that stands at its snapshot is at rest. -/
theorem rested_of_base {b : Body σ} (h : Placed B b.log b.snapshot)
    (hla : b.lastApplied = b.log.head.index) (hci : b.commitIndex = b.log.head.index)
    (hsub : ∀ s x data, b.snapshotter = some s → s.snapshot x = some data → data ≠ []) :
    Rested B b where
  toPlaced := h
  base_le_applied := hla.ge
  base_le_commit := hci.ge
  settled := undue_of_le hla.le
  substance := hsub

theorem Rested.base_le_last {b : Body σ} (h : Rested B b) :
    b.log.head.index ≤ b.log.lastLogIndexLocked := by
  rw [Log.lastLogIndex_of_contiguous h.contiguous]
  omega

theorem Undue.not_due (h : Undue (body n)) (e : LogEntry) (data : Bytes) : ¬ n.Due e data := by
  intro hdue
  obtain ⟨s, hs, hdata⟩ := hdue.hook
  exact absurd hdue.reached (not_le.mpr (h s data hs hdata hdue.positive))

/-- **Apply and compact.** A snapshot is taken only if entries were applied right before, and then
it reaches no further than the commit index. -/
theorem Undue.applyCommitted_cases (h : Undue (body n)) : n.applyCommittedLocked = n ∨
    ∃ la x applies, la ≤ n.commitIndex ∧ n.log.head.index ≤ la ∧
      ((n.applyCommittedLocked = { n with lastApplied := la, machine := x, applies := applies } ∧
          Undue (body n.applyCommittedLocked)) ∨
        ∃ e data, ({ n with
            lastApplied := la, machine := x, applies := applies } : RaftNode σ).Due e data ∧
          n.applyCommittedLocked = ({ n with lastApplied := la, machine := x, applies := applies } :
            RaftNode σ).compactTo la e data) := by
  unfold applyCommittedLocked
  rcases applyLoop_progress (n.commitIndex - n.lastApplied).toNat n with hsame | ⟨hle, e, he⟩
  · -- nothing was applied
    rw [hsame]
    rcases n.maybeCompact_cases with ⟨hkept, _⟩ | ⟨e, data, hdue, _⟩
    · exact Or.inl hkept
    · exact absurd hdue (h.not_due e data)
  · obtain ⟨la, x, applies, hloop⟩ := n.applyLoop_eq (n.commitIndex - n.lastApplied).toNat
    rw [hloop] at hle he ⊢
    have hbase : n.log.head.index ≤ la := by
      by_contra hlt
      rw [Log.entryAt_of_lt (not_le.mp hlt)] at he
      cases he
    refine Or.inr ⟨la, x, applies, hle, hbase, ?_⟩
    -- what was applied may let a snapshot become due
    rcases maybeCompact_cases { n with lastApplied := la, machine := x, applies := applies } with
      ⟨hkept, hnot⟩ | ⟨e', data, hdue, hcompact⟩
    · rw [hkept]
      refine Or.inl ⟨rfl, fun s data hs hdata hpos => ?_⟩
      -- the last entry that was applied is there
      by_contra hge
      exact hnot e data ⟨⟨s, hs, hdata⟩, hpos, not_lt.mp hge, he⟩
    · exact Or.inr ⟨e', data, hdue, hcompact⟩

theorem Undue.applyCommitted (h : Undue (body n)) : Undue (body n.applyCommittedLocked) := by
  rcases h.applyCommitted_cases with heq | ⟨la, x, applies, _, _, ⟨_, hundue⟩ | ⟨e, data, _, heq⟩⟩
  · rw [heq]
    exact h
  · exact hundue
  · rw [heq]
    exact undue_of_le (le_refl la)

theorem Rested.applyCommitted (h : Rested B (body n)) : Rested B (body n.applyCommittedLocked) := by
  have hundue := Undue.applyCommitted h.settled
  rcases Undue.applyCommitted_cases h.settled with
    heq | ⟨la, x, applies, hle, hbase, ⟨heq, _⟩ | ⟨e, data, hdue, heq⟩⟩
  · rw [heq]
    exact h
  · rw [heq] at hundue ⊢
    exact { h with base_le_applied := hbase, settled := hundue }
  -- the compacted log is the same log from a later index on
  · have hcopy : n.log.Compacted
        ⟨{ term := e.term, index := la }, n.log.slice (n.log.sliceIndexLocked la + 1)⟩ :=
      (Log.Compacted.refl n.log).drop hdue.head_lt.le hdue.entry
    obtain ⟨s, hs, hdata⟩ := hdue.hook
    rw [heq] at hundue ⊢
    -- the dummy stands at what was applied
    exact
      { contiguous := hcopy.contiguous h.contiguous
        nonneg := h.nonneg.trans hcopy.head_le
        last_le := (hcopy.lastLogIndex_eq h.contiguous).trans_le h.last_le
        base_le_applied := le_refl la
        base_le_commit := hle
        settled := hundue
        substance := h.substance
        fresh := fun hnil => absurd hnil (h.substance s x data hs hdata) }

theorem Rested.append (h : Rested B (body n)) {e : LogEntry}
    (hidx : e.index = n.log.lastLogIndexLocked + 1) (hB : n.log.lastLogIndexLocked + 1 ≤ B) :
    Rested B { body n with log := n.log.append [e] } := by
  have hcont : n.log.Contiguous := h.contiguous
  have hlong : (n.log.append [e]).lastLogIndexLocked = n.log.lastLogIndexLocked + 1 := by
    rw [Log.lastLogIndex_of_contiguous (hcont.append hidx), Log.lastLogIndex_of_contiguous hcont]
    simp [Log.append, Int.add_assoc]
  exact { h with contiguous := hcont.append hidx, last_le := hlong.trans_le hB }

theorem body_mergeLocked (n : RaftNode σ) (req : AppendEntriesRequest) : body (n.mergeLocked req) =
    { body n with log := (n.log.mergeEntries req.entries (req.prevLogIndex + 1)).1 } := by
  unfold mergeLocked
  dsimp only
  split
  · rfl
  · rfl

/-- A snapshot replaces the log and sets both indexes, the commit index unless it is beyond. -/
theorem body_installLocked (n : RaftNode σ) (req : InstallSnapshotRequest) :
    body (n.installLocked req) =
      { body n with
        log := ⟨{ term := req.lastIncludedTerm, index := req.lastIncludedIndex }, []⟩
        snapshot := req.data
        lastApplied := req.lastIncludedIndex
        commitIndex :=
          if n.commitIndex < req.lastIncludedIndex then req.lastIncludedIndex else n.commitIndex
        machine := n.restored req.data } := by
  obtain ⟨k, ⟨_, rfl⟩ | ⟨_, rfl⟩, heq⟩ := n.installLocked_eq req
  · rw [heq]
    rfl
  · rw [heq]
    rfl

theorem Rested.merge (h : Rested B (body n)) {req : AppendEntriesRequest}
    (hprev : n.PrevMatches req) (hB : n.log.lastLogIndexLocked + req.entries.length ≤ B) :
    Rested B (body (n.mergeLocked req)) := by
  have hold : n.log.Contiguous := h.contiguous
  rw [body_mergeLocked]
  -- the head stays, and the tail grows by the entries of the request at most
  obtain ⟨q, hq, hpos⟩ := Log.exists_position hprev.1 hprev.2
  have hstart : req.prevLogIndex + 1 = n.log.head.index + 1 + q := by omega
  generalize hmerged : (n.log.mergeEntries req.entries (req.prevLogIndex + 1)).1 = log'
  have hcont : log'.Contiguous := hmerged ▸ hold.merge hstart hq
  have hlen : log'.tail.length ≤ n.log.tail.length + req.entries.length :=
    hmerged ▸ Log.length_mergeEntries hstart hq
  have hhead : log'.head = n.log.head := hmerged ▸ Log.head_mergeEntries
  have hlast : log'.lastLogIndexLocked ≤ B := by
    rw [Log.lastLogIndex_of_contiguous hold] at hB
    rw [Log.lastLogIndex_of_contiguous hcont, hhead]
    omega
  obtain ⟨_, _⟩ := log'
  obtain rfl := hhead
  exact { h with contiguous := hcont, last_le := hlast }

theorem Rested.install (h : Rested B (body n)) {req : InstallSnapshotRequest}
    (hidx : n.log.lastIncludedIndexLocked < req.lastIncludedIndex)
    (hB : req.lastIncludedIndex ≤ B) (hdata : req.data ≠ []) :
    Rested B (body (n.installLocked req)) := by
  have hnn : 0 ≤ n.log.head.index := h.nonneg
  unfold Log.lastIncludedIndexLocked at hidx
  rw [body_installLocked]
  refine
    { contiguous := fun k e he => by cases he
      nonneg := hnn.trans hidx.le
      last_le := hB
      base_le_applied := le_refl _
      base_le_commit := ?_
      settled := undue_of_le (le_refl _)
      substance := h.substance
      fresh := fun hnil => absurd hnil hdata }
  show req.lastIncludedIndex ≤ if _ then _ else _
  split <;> omega

/-- **Every phase leaves a node at rest at rest.** -/
theorem Rested.phase {op : Option Raw.Op} (h : Rested B (body n))
    (hstep : Phase B (· ≠ []) n op m) :
    Rested B (body m) := by
  cases hstep with
  -- the other fields change
  | other heq _ =>
    rw [heq]
    exact h
  -- the commit index moves forward, or to the end of the log
  | commit i hi =>
    refine { h with base_le_commit := ?_ }
    show n.log.head.index ≤ i
    rcases hi with hle | rfl
    · exact le_trans h.base_le_commit hle
    · exact h.base_le_last
  | apply => exact h.applyCommitted
  | append e hidx hB heq _ =>
    rw [heq]
    exact h.append hidx hB
  | merge req hprev hB => exact h.merge hprev hB
  | install req hidx hB hdata => exact h.install hidx hB hdata

/-- **No phase leaves a snapshot that is due.** This needs neither the bound nor the data. -/
theorem Undue.phase {op : Option Raw.Op} (h : Undue (body n)) (hstep : Phase B D n op m) :
    Undue (body m) := by
  cases hstep with
  | other heq _ =>
    rw [heq]
    exact h
  | commit i hi => exact h
  | apply => exact h.applyCommitted
  | append e _ _ heq _ =>
    rw [heq]
    exact h
  -- a merge keeps the head
  | merge req _ _ =>
    rw [body_mergeLocked]
    intro s data hs hdata hpos
    show n.lastApplied - (n.log.mergeEntries req.entries (req.prevLogIndex + 1)).1.head.index < _
    rw [Log.head_mergeEntries]
    exact h s data hs hdata hpos
  | install req _ _ _ =>
    rw [body_installLocked]
    exact undue_of_le (le_refl _)

/-- **One event**: it has some bound, and any data will do. -/
theorem Undue.handle (h : Undue (body n)) (ev : Event) : Undue (body (handle n ev)) := by
  -- a bound for the event, whatever it carries
  obtain ⟨B, hev⟩ : ∃ B, Within B (fun _ => True) n ev := by
    cases ev with
    | appendEntries req => exact ⟨_, le_refl _⟩
    | installSnapshot req => exact ⟨_, le_refl _, trivial⟩
    | tick due => exact ⟨_, le_refl _⟩
    | voteReply peer req resp => exact ⟨_, le_refl _⟩
    | propose cmd => exact ⟨_, le_refl _⟩
    | addServer target addr http => exact ⟨_, le_refl _⟩
    | removeServer target => exact ⟨_, le_refl _⟩
    | _ => exact ⟨0, trivial⟩
  exact (phases_handle hev).invariant (P := fun m => Undue (body m))
    (fun _ _ _ hstep hm => hm.phase hstep) h

/-- A node that has just started stands at its snapshot, or at the beginning. -/
def Unmoved (n : RaftNode σ) : Prop := n.lastApplied = 0 ∨ n.lastApplied = n.log.head.index

theorem Unmoved.restoreSnapshot (h : Unmoved n) : Unmoved n.restoreSnapshotLocked := by
  unfold restoreSnapshotLocked
  split
  · exact h
  split
  · exact h
  split
  · exact h
  · unfold Unmoved
    dsimp only
    split
    · exact Or.inr rfl
    · exact h

theorem unmoved_boot (M : Machine σ) (cfg : Config) (storage : Option Storage) :
    Unmoved (boot M cfg storage) := by
  -- a new node, a node without a saved state, and one that recovers
  have hnew : Unmoved (newNode cfg storage (some M.snapshotter) M.init) := by
    unfold newNode
    cases storage with
    | none => exact Or.inl rfl
    | some st =>
      dsimp only
      split
      · have hload : Unmoved ((fresh cfg (some st) (some M.snapshotter) M.init).load st.load) := by
          unfold load
          dsimp only
          split <;> split <;> exact Or.inl rfl
        exact recover_rule hload (fun _ _ => Or.inr rfl) (fun _ hm => hm.restoreSnapshot)
          (fun _ hm => hm) (fun _ _ hm => hm)
      · exact Or.inl rfl
  exact Unmoved.restoreSnapshot (n := { newNode cfg storage (some M.snapshotter) M.init with
    apply := some M.apply }) hnew

/-- **A start.** -/
theorem undue_boot (M : Machine σ) (cfg : Config) (storage : Option Storage)
    (hbase : 0 ≤ (boot M cfg storage).log.head.index) : Undue (body (boot M cfg storage)) := by
  refine undue_of_le ?_
  show (boot M cfg storage).lastApplied ≤ (boot M cfg storage).log.head.index
  rcases unmoved_boot M cfg storage with hzero | hhead
  · exact hzero.le.trans hbase
  · exact hhead.le

/-! ## Along the life of a node -/

/-- A recorded state with a log in order. -/
def Ordinary (B : Int) (d : DurableState) : Prop :=
  ∃ log : Log, d.log = log.toList ∧ Placed B log d.snapshot

/-- **One event**, and what it saves on the way. -/
theorem Rested.handle {ev : Event} (h : Rested B (body n)) (hev : Within B (· ≠ []) n ev) :
    Rested B (body (handle n ev)) ∧ Saved (Ordinary B) n (handle n ev) :=
  (phases_handle hev).invariant (P := fun m => Rested B (body m) ∧ Saved (Ordinary B) n m)
    (fun _ _ m' hstep hm =>
      have hrested := hm.1.phase hstep
      ⟨hrested, hm.2.step hstep.stores ⟨m'.log, rfl, hrested.toPlaced⟩⟩) ⟨h, Saved.refl _ n⟩

/-- `NewNode` on ordinary states stands at the snapshot of the last one. -/
theorem newNode_placed (hB : 0 ≤ B) (cfg : Config) {storage : Option Storage}
    (sn : Option (Snapshotter σ)) (x : σ) (hall : AllSaved (Ordinary B) storage)
    (hk : k = RaftNode.newNode cfg storage sn x) :
    Placed B k.log k.snapshot ∧ k.lastApplied = k.log.head.index ∧
      k.commitIndex = k.log.head.index ∧ k.snapshotter = sn := by
  have hfresh : Placed B ⟨{ term := 0, index := 0 }, []⟩ [] :=
    ⟨(fun _ _ he => nomatch he), le_refl 0, hB, fun _ => rfl⟩
  subst hk
  cases storage with
  | none => exact ⟨hfresh, rfl, rfl, rfl⟩
  | some st =>
    cases hst : st.saved with
    | nil =>
      rw [newNode_of_nil hst]
      exact ⟨hfresh, rfl, rfl, rfl⟩
    | cons d rest =>
      -- the state is loaded, and both indexes are moved to its snapshot
      obtain ⟨log, hlog, hd⟩ := hall st rfl d (by rw [hst]; exact List.mem_cons_self)
      rw [newNode_eq (by rw [hst]; rfl) hlog]
      generalize hm : RaftNode.fresh cfg (some st) sn x = m
      obtain ⟨peers, http, hload⟩ := load_fields m hlog
      obtain ⟨y, hy⟩ := restoreLoaded_eq (n := { m with
        currentTerm := d.currentTerm, votedFor := d.votedFor, snapshot := d.snapshot, log := log
        basePeers := peers, baseHTTP := http }) (by rw [← hm]; rfl) (by rw [← hm]; rfl) hd.fresh
      unfold RaftNode.recover
      rw [hload]
      dsimp only at hy ⊢
      rw [hy]
      obtain ⟨j, hj⟩ := RaftNode.exists_joining ({ m with
        currentTerm := d.currentTerm, votedFor := d.votedFor, snapshot := d.snapshot, log := log
        basePeers := peers, baseHTTP := http
        machine := y
        lastApplied := log.lastIncludedIndexLocked
        commitIndex := log.lastIncludedIndexLocked } : RaftNode σ).rebuildMembershipLocked
      rw [hj]
      exact ⟨hd, rfl, rfl, by rw [← hm]; rfl⟩

/-- **A start** from ordinary states. -/
theorem rested_boot {M : Machine σ} (hM : Substance M) (hB : 0 ≤ B) (cfg : Config)
    {storage : Option Storage} (hall : AllSaved (Ordinary B) storage) :
    Rested B (body (RaftNode.boot M cfg storage)) := by
  obtain ⟨hplaced, hla, hci, hsn⟩ := newNode_placed hB cfg (some M.snapshotter) M.init hall rfl
  obtain ⟨x, hx⟩ := boot_eq M cfg storage hla hci
  rw [hx]
  refine rested_of_base hplaced hla hci fun s y data hs hdata => ?_
  obtain rfl : M.snapshotter = s := Option.some.inj (hsn.symm.trans hs)
  exact hM y data hdata

/-- At rest, and in storage nothing but logs in order. -/
structure Steady (B : Int) (n : RaftNode σ) : Prop where
  rested : Rested B (body n)
  saved : AllSaved (Ordinary B) n.storage

theorem steady_boot {M : Machine σ} (hM : Substance M) (hB : 0 ≤ B) (cfg : Config)
    {storage : Option Storage} (hall : AllSaved (Ordinary B) storage) :
    Steady B (RaftNode.boot M cfg storage) where
  rested := rested_boot hM hB cfg hall
  saved := by
    rw [storage_boot]
    exact hall

/-- No event puts an index above `B` into the log; a node may crash and start whenever it likes. -/
def Bounded (B : Int) (n : RaftNode σ) : Life → Prop
  | .event ev => Within B (· ≠ []) n ev
  | .restart _ => True
  | .crashDuring ev _ _ => Within B (· ≠ []) n ev

/-- **One step.** -/
theorem Steady.live {M : Machine σ} (hM : Substance M) (hB : 0 ≤ B) (h : Steady B n) {l : Life}
    (hl : Bounded B n l) : Steady B (live M n l) := by
  -- the saves of an event are all ordinary, so those before a crash are too
  cases l with
  | event ev =>
    obtain ⟨hrested, hsaved⟩ := h.rested.handle hl
    exact ⟨hrested, hsaved.all h.saved⟩
  | restart cfg => exact steady_boot hM hB cfg h.saved
  | crashDuring ev saves cfg =>
    obtain ⟨_, hsaved⟩ := h.rested.handle hl
    exact steady_boot hM hB cfg (hsaved.all_cut h.saved saves)

end Node
