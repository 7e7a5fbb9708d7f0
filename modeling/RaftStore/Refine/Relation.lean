import RaftStore.Refine.Scheme
import RaftStore.Cluster.Runs
import RaftStore.Consensus.Agreement

/-!
# How a cluster relates to a chronicle

`WorldRel X a w` says that the cluster `w` is described by the chronicle `a`: every node's
term, vote, log and role are the ones on record, and every message in flight, request or
reply, states something that the chronicle knows to be true; so does every client call. Facts
about a chronicle do not become false, so a message may be delayed for as long as the network likes.

A node that runs is related as a whole (`NodeRel`): what it has stored (`Stored`), its role
(`CandidateRel`, `LeaderRel`), how far it has committed and applied (`Progress`), and its
goroutines. Each part speaks of the fields it depends on, so that it carries over by itself
when a critical section changes others. A node that is down is related through what it would
restart as.

The run is described by a `Mode`. `strict` is the flag of `Consensus.Step`: what depends on
acknowledged entries staying in place is only claimed under it. `compacting` says that
snapshots may be taken, `joiners` that servers may be added and removed.
-/

namespace Refine

open Raft Consensus Cluster

variable {σ : Type}

/-! ## Modes -/

abbrev Chron := Chronicle String LogEntry

/-- The setup of a run, its initial configuration, and what may happen in it. -/
structure Mode (σ : Type) where
  setup : Setup σ
  members : AddrMap
  strict : Prop
  compacting : Prop
  joiners : Prop

/-- Nodes are configured under their own name; with the common initial configuration, or,
where nodes may join, with themselves alone. A snapshot is never empty. -/
structure Mode.Valid (X : Mode σ) : Prop where
  id_eq : ∀ id, (X.setup.config id).id = id
  members_ne : X.members.isEmpty = false
  named : "" ∉ X.members.keys
  peers : ∀ id, (X.setup.config id).peerAddrs = X.members ∨
    (X.joiners ∧ id ∉ X.members.keys ∧ (X.setup.config id).peerAddrs.keys = [id])
  threshold : ¬ X.compacting → ∀ id, (X.setup.config id).snapshotThreshold ≤ 0
  snapshots : X.strict → X.compacting →
    ∀ m d, X.setup.machine.snapshotter.snapshot m = some d → d ≠ []

/-- The chronicle of a run: the protocol's invariant, and leaders' logs that are numbered
and carry sound changes. -/
structure Good (X : Mode σ) (a : Chron) : Prop where
  inv : Inv (scheme X.members) X.strict a
  numbered : ∀ T, Numbered (a.reign T)
  sound : ∀ T, ∀ e ∈ a.reign T, Sound e
  static : ¬ X.joiners → ∀ T, ∀ e ∈ a.reign T, e.change = none

/-! ## Messages -/

/-- A vote request is on record as a bid, and goes to a member of the bidder's
configuration. -/
def VoteReq (X : Mode σ) (a : Chron) (src dst : String) (req : RequestVoteRequest) : Prop :=
  src ≠ "" ∧ req.candidateID = src ∧ ∃ l, a.bid src req.term = some l ∧
    req.lastLogIndex = l.length ∧ req.lastLogTerm = endTerm l ∧ dst ∈ (scheme X.members).conf l

/-- An AppendEntries request cuts a state `g` of the leader's log at `p`. -/
def AppendReq (X : Mode σ) (a : Chron) (src : String) (req : AppendEntriesRequest) : Prop :=
  (∃ Q, a.won req.term src Q) ∧ ∃ (g : List LogEntry) (p : Nat), g <+: a.reign req.term ∧
    p ≤ g.length ∧ req.prevLogIndex = p ∧ req.prevLogTerm = endTerm (g.take p) ∧
    req.entries = g.drop p ∧
    (X.strict → 0 ≤ req.leaderCommit ∧ req.leaderCommit ≤ g.length ∧
      Settled a req.term (g.take req.leaderCommit.toNat))

/-- An InstallSnapshot request stands for a committed prefix `g` of the leader's log. -/
def InstallReq (X : Mode σ) (a : Chron) (src : String) (req : InstallSnapshotRequest) : Prop :=
  X.compacting ∧ (∃ Q, a.won req.term src Q) ∧ ∃ g : List LogEntry, g <+: a.reign req.term ∧
    g ≠ [] ∧ req.lastIncludedIndex = g.length ∧ req.lastIncludedTerm = endTerm g ∧
    Placed X.members X.joiners req.peers g ∧
    (X.strict → Settled a req.term g ∧ req.data ≠ [] ∧
      (Lawful X.setup.machine → SnapOf X.setup.machine req.data g))

/-- A call in flight: its request, and what its reply confirms. -/
def CallRel (X : Mode σ) (a : Chron) (c : Call) : Prop :=
  c.src ≠ c.dst ∧
    match c.rpc with
    | .requestVote req resp => VoteReq X a c.src c.dst req ∧
      ∀ r, resp = some r → r.voteGranted = true → a.vote c.dst req.term = some c.src
    | .appendEntries req resp _ => AppendReq X a c.src req ∧
      ∀ r, resp = some r → r.success = true → X.strict →
        a.ack c.dst req.term (req.prevLogIndex.toNat + req.entries.length)
    | .installSnapshot req resp => InstallReq X a c.src req ∧
      ∀ r, resp = some r → r.term ≤ req.term → X.strict →
        a.ack c.dst req.term req.lastIncludedIndex.toNat

/-- A goroutine never addresses its own node, and a vote request is on record. -/
def GoroutineRel (X : Mode σ) (a : Chron) (id : String) : Goroutine → Prop
  | .replicateTo peer => peer ≠ id
  | .replicateToDone peer => peer ≠ id
  | .sendRequestVote peer req => peer ≠ id ∧ VoteReq X a id peer req

/-- What a `PUT` request has proposed is in the log of the leader that accepted it, and
what it waits for is what it has proposed. -/
def PutRel (X : Mode σ) (a : Chron) (p : PutOp) : Prop :=
  (∀ i t, p.proposed = some (i, t) → 0 < i ∧ (a.reign t)[i.toNat - 1]? =
    some { term := t, index := i, command := X.setup.encode p.key p.value }) ∧
  ∀ i, p.phase = .waitApplied i → ∃ t, p.proposed = some (i, t)

/-! ## Nodes -/

/-- The durable part of a node: term, vote, and a log that renders its history with the
first `b` entries compacted. -/
structure Stored (X : Mode σ) (a : Chron) (id : String) (b : Nat) (term : Int)
    (votedFor : String) (log : Log) (snapshot : Bytes) (basePeers : AddrMap) : Prop where
  term_eq : a.term id = term
  vote_eq : a.vote id term = if votedFor = "" then none else some votedFor
  log_eq : log = render (a.log id) b
  base_le : b ≤ (a.log id).length
  base_zero : ¬ X.compacting → b = 0
  placed : Placed X.members X.joiners basePeers ((a.log id).take b)
  settled : X.strict → Settled a term ((a.log id).take b)
  nonempty : X.strict → 0 < b → snapshot ≠ []
  snap : X.strict → Lawful X.setup.machine →
    SnapOf X.setup.machine snapshot ((a.log id).take b)

/-- A candidate's log is its bid, and the votes it has received are on record. -/
structure CandidateRel (X : Mode σ) (a : Chron) (id : String) (term : Int)
    (votesReceived : Finset String) (peerAddrs : AddrMap) : Prop where
  bid : a.bid id term = some (a.log id)
  votes : ∀ q ∈ votesReceived, a.vote q term = some id
  voters : votesReceived ⊆ (scheme X.members).conf (a.log id)
  unwon : ∀ Q, ¬ a.won term id Q
  peers : peerAddrs = peersAfter X.members (a.log id)

/-- A leader has won its term, what it counts is acknowledged, and it knows how far it has
committed in its term. -/
structure LeaderRel (X : Mode σ) (a : Chron) (id : String) (term : Int) (peerAddrs : AddrMap)
    (matchIndex : String → Int) (commitIndex : Int) : Prop where
  won : ∃ Q, a.won term id Q
  peers : peerAddrs = peersAfter X.members (a.log id)
  tracked : X.strict → ∀ p, 0 < matchIndex p → a.ack p term (matchIndex p).toNat
  own_le : X.strict → ∀ {i L}, a.commit term i L → (i : Int) ≤ commitIndex
  own_commit : X.strict → 0 < commitIndex →
    endTerm ((a.log id).take commitIndex.toNat) = term → ∃ L, a.commit term commitIndex.toNat L

/-- What a node takes to be committed is settled, what it has applied is part of that and
covers its snapshot, and its state machine is the replay of it. A node that never starts
from a snapshot has applied its history from the first entry on. -/
structure Progress (X : Mode σ) (a : Chron) (id : String)
    (term base commitIndex lastApplied : Int) (applies : List (Int × LogEntry))
    (machine : σ) : Prop where
  applied_nonneg : 0 ≤ lastApplied
  base_le : base ≤ lastApplied
  applied_le : lastApplied ≤ commitIndex
  commit_le : commitIndex ≤ (a.log id).length
  settled : Settled a term ((a.log id).take commitIndex.toNat)
  applied : ∀ x ∈ applies, 0 < x.1 ∧ x.1 ≤ lastApplied ∧
    ∃ l, Settled a term l ∧ l[x.1.toNat - 1]? = some x.2
  inOrder : ¬ X.joiners → ¬ X.compacting →
    applies = ((a.log id).take lastApplied.toNat).map (fun e => (e.index, e))
  machine : Lawful X.setup.machine →
    machine = replay X.setup.machine ((a.log id).take lastApplied.toNat)

/-- A running node, its storage apart. -/
structure Live (X : Mode σ) (a : Chron) (id : String) (n : RaftNode σ) : Prop where
  id_eq : n.id = id
  stored : ∃ b, Stored X a id b n.currentTerm n.votedFor n.log n.snapshot n.basePeers
  peers_eq : n.peerAddrs = peersAfter n.basePeers n.log.tail
  peerIDs_eq : n.peerIDs = n.peerAddrs.keys
  apply_eq : n.apply = some X.setup.machine.apply
  snapshotter_eq : n.snapshotter = some X.setup.machine.snapshotter
  threshold_eq : n.snapshotThreshold = (X.setup.config id).snapshotThreshold
  candidate : n.state = .candidate →
    CandidateRel X a id n.currentTerm n.votesReceived n.peerAddrs
  leader : n.state = .leader →
    LeaderRel X a id n.currentTerm n.peerAddrs n.matchIndex n.commitIndex
  voter : ¬ X.joiners → n.state ≠ .follower → id ∈ X.members.keys
  progress : X.strict →
    Progress X a id n.currentTerm n.log.lastIncludedIndexLocked n.commitIndex n.lastApplied
      n.applies n.machine
  threads : ∀ g ∈ n.goroutines, GoroutineRel X a id g

/-- The durable state of a node that has saved nothing. -/
def initialState (cfg : Config) : DurableState where
  log := [{ term := 0, index := 0 }]
  snapshotPeers := cfg.peerAddrs
  snapshotHTTP := cfg.httpAddrs

/-- Storage in which every save succeeds and that holds `d`, or nothing if `d` is what a
node starts with. -/
def Holds (cfg : Config) (storage : Option Storage) (d : DurableState) : Prop :=
  ∃ st, storage = some st ∧ st.results = [] ∧
    (st.saved.head? = some d ∨ (st.saved = [] ∧ d = initialState cfg))

/-- A running node whose storage holds its durable state. -/
structure NodeRel (X : Mode σ) (a : Chron) (id : String) (n : RaftNode σ) : Prop
    extends Live X a id n where
  synced : Holds (X.setup.config id) n.storage n.durable

/-! ## The cluster -/

/-- The heartbeats of a `Get` go to other nodes. -/
def GetRel (g : GetOp σ) : Prop := ∀ b ∈ g.beats, b.1 ≠ g.node

structure WorldRel (X : Mode σ) (a : Chron) (w : World σ) : Prop where
  good : Good X a
  nodes : ∀ id, NodeRel X a id (w.revived X.setup id)
  calls : ∀ c ∈ w.calls, CallRel X a c
  puts : ∀ p ∈ w.puts, PutRel X a p
  gets : ∀ g ∈ w.gets, GetRel g

/-! ## Histories on record -/

section Record

variable {X : Mode σ} {a a' : Chron} {l : List LogEntry}

/-- Every entry of a chained log is an entry of a leader's log at the same place. -/
theorem Good.getElem?_reign (hch : Chained (scheme X.members) a l) {k : Nat} {e : LogEntry}
    (he : l[k]? = some e) : (a.reign e.term)[k]? = some e :=
  getElem?_of_isPrefix (hch k e he) (getElem?_take_succ he (by omega))

theorem Good.numbered_of_chained (hg : Good X a) (hch : Chained (scheme X.members) a l) :
    Numbered l :=
  fun k e he => hg.numbered _ k e (Good.getElem?_reign hch he)

theorem Good.sound_of_chained (hg : Good X a) (hch : Chained (scheme X.members) a l) :
    ∀ e ∈ l, Sound e := by
  intro e he
  obtain ⟨k, hk⟩ := List.getElem?_of_mem he
  exact hg.sound _ e (List.mem_of_getElem? (Good.getElem?_reign hch hk))

theorem Good.static_of_chained (hg : Good X a) (hst : ¬ X.joiners)
    (hch : Chained (scheme X.members) a l) : ∀ e ∈ l, e.change = none := by
  intro e he
  obtain ⟨k, hk⟩ := List.getElem?_of_mem he
  exact hg.static hst _ e (List.mem_of_getElem? (Good.getElem?_reign hch hk))

theorem Good.numbered_log (hg : Good X a) (id : String) : Numbered (a.log id) :=
  hg.numbered_of_chained (hg.inv.logs.chained_log id)

theorem Good.sound_log (hg : Good X a) (id : String) : ∀ e ∈ a.log id, Sound e :=
  hg.sound_of_chained (hg.inv.logs.chained_log id)

/-- A leader's log stays as it is, up to what is appended at its end. -/
theorem Good.of_step (hg : Good X a) {id : String}
    (hstep : Step (scheme X.members) X.strict id a a')
    (hreign : ∀ T, a'.reign T = a.reign T) : Good X a' ∧ Later id a a' := by
  refine ⟨⟨(hstep.inv hg.inv).1, ?_, ?_, ?_⟩, hstep.later hg.inv⟩
  · intro T
    rw [hreign]
    exact hg.numbered T
  · intro T
    rw [hreign]
    exact hg.sound T
  · intro hst T
    rw [hreign]
    exact hg.static hst T

/-- An entry a leader appends has to be numbered and sound. -/
theorem Good.of_append (hg : Good X a) {id : String} {e : LogEntry}
    (hstep : Step (scheme X.members) X.strict id a a')
    (hreign : a'.reign = (a.append id e).reign) (hidx : e.index = (a.log id).length + 1)
    (hs : Sound e) (hst : ¬ X.joiners → e.change = none) : Good X a' ∧ Later id a a' := by
  have hcases : ∀ T, a'.reign T = a.reign T ∨ a'.reign T = a.log id ++ [e] := by
    intro T
    rw [hreign]
    by_cases hT : T = a.term id
    · rw [hT, reign_append_self]
      exact Or.inr rfl
    · rw [reign_append_ne hT]
      exact Or.inl rfl
  refine ⟨⟨(hstep.inv hg.inv).1, ?_, ?_, ?_⟩, hstep.later hg.inv⟩
  · intro T
    rcases hcases T with h | h
    · rw [h]; exact hg.numbered T
    · rw [h]; exact (hg.numbered_log id).snoc hidx
  · intro T x hx
    rcases hcases T with h | h
    · rw [h] at hx; exact hg.sound T x hx
    · rw [h, List.mem_append, List.mem_singleton] at hx
      rcases hx with hx | rfl
      · exact hg.sound_log id x hx
      · exact hs
  · intro hj T x hx
    rcases hcases T with h | h
    · rw [h] at hx; exact hg.static hj T x hx
    · rw [h, List.mem_append, List.mem_singleton] at hx
      rcases hx with hx | rfl
      · exact hg.static_of_chained hj (hg.inv.logs.chained_log id) x hx
      · exact hst hj

end Record

/-! ## Later chronicles -/

section Mono

variable {X : Mode σ} {a a' : Chron}

theorem VoteReq.mono {src dst : String} {req : RequestVoteRequest} (h : VoteReq X a src dst req)
    (hx : Extends a a') : VoteReq X a' src dst req := by
  obtain ⟨h1, h2, l, hl, hrest⟩ := h
  exact ⟨h1, h2, l, hx.bid_mono hl, hrest⟩

theorem AppendReq.mono {src : String} {req : AppendEntriesRequest} (h : AppendReq X a src req)
    (hg : Good X a) (hx : Extends a a') : AppendReq X a' src req := by
  obtain ⟨⟨Q, hw⟩, g, p, hgr, hp, h1, h2, h3, h4⟩ := h
  refine ⟨⟨Q, hx.won_mono hw⟩, g, p, hgr.trans (hx.reign_mono _), hp, h1, h2, h3, fun hs => ?_⟩
  obtain ⟨h5, h6, h7⟩ := h4 hs
  exact ⟨h5, h6, h7.mono hg.inv hx (le_refl _)⟩

theorem InstallReq.mono {src : String} {req : InstallSnapshotRequest} (h : InstallReq X a src req)
    (hg : Good X a) (hx : Extends a a') : InstallReq X a' src req := by
  obtain ⟨hc, ⟨Q, hw⟩, g, hgr, hne, h1, h2, h3, h4⟩ := h
  refine ⟨hc, ⟨Q, hx.won_mono hw⟩, g, hgr.trans (hx.reign_mono _), hne, h1, h2, h3, fun hs => ?_⟩
  obtain ⟨h5, h6, h7⟩ := h4 hs
  exact ⟨h5.mono hg.inv hx (le_refl _), h6, h7⟩

theorem CallRel.mono {c : Call} (h : CallRel X a c) (hg : Good X a) (hx : Extends a a') :
    CallRel X a' c := by
  obtain ⟨hne, h⟩ := h
  refine ⟨hne, ?_⟩
  cases hr : c.rpc with
  | requestVote req resp =>
    rw [hr] at h
    exact ⟨h.1.mono hx, fun r h1 h2 => hx.vote_mono (h.2 r h1 h2)⟩
  | appendEntries req resp read =>
    rw [hr] at h
    exact ⟨h.1.mono hg hx, fun r h1 h2 h3 => hx.ack_mono (h.2 r h1 h2 h3)⟩
  | installSnapshot req resp =>
    rw [hr] at h
    exact ⟨h.1.mono hg hx, fun r h1 h2 h3 => hx.ack_mono (h.2 r h1 h2 h3)⟩

theorem GoroutineRel.mono {id : String} {g : Goroutine} (h : GoroutineRel X a id g)
    (hx : Extends a a') : GoroutineRel X a' id g := by
  cases g with
  | sendRequestVote peer req => exact ⟨h.1, h.2.mono hx⟩
  | replicateTo peer => exact h
  | replicateToDone peer => exact h

theorem PutRel.mono {p : PutOp} (h : PutRel X a p) (hx : Extends a a') : PutRel X a' p := by
  refine ⟨fun i t hp => ?_, h.2⟩
  obtain ⟨hi, hget⟩ := h.1 i t hp
  exact ⟨hi, getElem?_of_isPrefix (hx.reign_mono t) hget⟩

/-! The parts of a node's relation, carried to a later chronicle with the same log. -/

section Parts

variable {id : String} (hx : Extends a a') (hlog : a'.log id = a.log id)

include hx hlog

theorem Stored.mono {b : Nat} {term term' : Int} {v v' : String} {log : Log} {snapshot : Bytes}
    {basePeers : AddrMap} (h : Stored X a id b term v log snapshot basePeers) (hg : Good X a)
    (hterm : a'.term id = term') (hvote : a'.vote id term' = if v' = "" then none else some v')
    (hle : term ≤ term') : Stored X a' id b term' v' log snapshot basePeers := by
  refine ⟨hterm, hvote, by rw [hlog]; exact h.log_eq, by rw [hlog]; exact h.base_le, h.base_zero,
    by rw [hlog]; exact h.placed, fun hs => ?_, h.nonempty, by rw [hlog]; exact h.snap⟩
  rw [hlog]
  exact (h.settled hs).mono hg.inv hx hle

theorem CandidateRel.mono {term : Int} {votesReceived : Finset String} {peerAddrs : AddrMap}
    (h : CandidateRel X a id term votesReceived peerAddrs)
    (hwon : ∀ Q, a'.won term id Q → a.won term id Q) :
    CandidateRel X a' id term votesReceived peerAddrs := by
  refine ⟨?_, fun q hq => hx.vote_mono (h.votes q hq), ?_, fun Q hw => h.unwon Q (hwon Q hw), ?_⟩
  · rw [hlog]; exact hx.bid_mono h.bid
  · rw [hlog]; exact h.voters
  · rw [hlog]; exact h.peers

theorem LeaderRel.mono {term commitIndex : Int} {peerAddrs : AddrMap} {matchIndex : String → Int}
    (h : LeaderRel X a id term peerAddrs matchIndex commitIndex)
    (hcommit : ∀ {i L}, a'.commit term i L → a.commit term i L) :
    LeaderRel X a' id term peerAddrs matchIndex commitIndex := by
  obtain ⟨Q, hw⟩ := h.won
  refine ⟨⟨Q, hx.won_mono hw⟩, by rw [hlog]; exact h.peers,
    fun hs p hp => hx.ack_mono (h.tracked hs p hp), fun hs => fun hc => h.own_le hs (hcommit hc),
      ?_⟩
  intro hs hpos hend
  rw [hlog] at hend
  obtain ⟨L, hL⟩ := h.own_commit hs hpos hend
  exact ⟨L, hx.commit_mono hL⟩

theorem Progress.mono {term term' base commitIndex lastApplied : Int}
    {applies : List (Int × LogEntry)}
    {machine : σ} (h : Progress X a id term base commitIndex lastApplied applies machine)
    (hg : Good X a) (hle : term ≤ term') :
    Progress X a' id term' base commitIndex lastApplied applies machine := by
  refine ⟨h.applied_nonneg, h.base_le, h.applied_le, by rw [hlog]; exact h.commit_le, ?_, ?_, ?_,
    ?_⟩
  · rw [hlog]
    exact h.settled.mono hg.inv hx hle
  · intro e he
    obtain ⟨h0, hi, l, hl, hget⟩ := h.applied e he
    exact ⟨h0, hi, l, hl.mono hg.inv hx hle, hget⟩
  · rw [hlog]
    exact h.inOrder
  · rw [hlog]
    exact h.machine

end Parts

/-- **The frame.** Steps of another node leave a node's relation alone. -/
theorem Live.frame {id j : String} {n : RaftNode σ} (h : Live X a id n) (hg : Good X a)
    (hg' : Good X a') (hl : Later j a a') (hij : id ≠ j) : Live X a' id n := by
  have hx := hl.toExtends
  have hlog := hl.log_eq hij
  obtain ⟨b, hst⟩ := h.stored
  refine { h with
    stored := ⟨b, hst.mono hx hlog hg ((hl.term_eq hij).trans hst.term_eq) ?_ (le_refl _)⟩
    candidate := fun hc => (h.candidate hc).mono hx hlog (fun Q => hl.won_eq hij)
    leader := fun hld => (h.leader hld).mono hx hlog ?_
    progress := fun hs => (h.progress hs).mono hx hlog hg (le_refl _)
    threads := fun g hgr => (h.threads g hgr).mono hx }
  · rw [hl.vote_eq hij]
    exact hst.vote_eq
  · intro i L hc
    rcases hl.commit_eq hc with hold | ⟨P, hP⟩
    · exact hold
    · -- only the leader itself commits in its term
      obtain ⟨Q, hw⟩ := (h.leader hld).won
      exact absurd (hg'.inv.ballots.won_unique (hl.won_mono hw) hP).1 hij

theorem NodeRel.frame {id j : String} {n : RaftNode σ} (h : NodeRel X a id n) (hg : Good X a)
    (hg' : Good X a') (hl : Later j a a') (hij : id ≠ j) : NodeRel X a' id n :=
  { h.toLive.frame hg hg' hl hij with synced := h.synced }

end Mono

end Refine
