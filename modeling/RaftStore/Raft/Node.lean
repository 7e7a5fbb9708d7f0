import RaftStore.Raft.Log
import Mathlib.Data.Finset.Card
import Mathlib.Logic.Function.Basic

/-!
# The node, its storage and its configuration

`RaftNode` has the fields of the struct in `raft/node.go`, with these differences.

* Clocks are left out: whether a deadline has passed is an input of `tick`, and the waits
  of the client calls end when the schedule says so.
* The goroutines that a critical section starts and that are ready to run are kept in
  `goroutines`; the ones waiting for an RPC are part of the cluster.
* `machine` is the state the callbacks `apply` and `snapshotter` work on, and `hooked` is
  what the peer hook was last called with.
* `applies` records the calls of `apply` since the node was constructed, each with the index
  it was called with and the entry. Nothing reads it; it is what the theorems about `apply`
  speak of.

The functions of this module are `persist.go` and the configuration part of
`membership.go`.
-/

namespace Raft

/-! ## Durable state -/

/-- What a node writes to disk. -/
structure DurableState where
  currentTerm : Int := 0
  votedFor : String := ""
  log : List LogEntry := []
  snapshot : Bytes := []
  snapshotPeers : AddrMap := .empty
  snapshotHTTP : AddrMap := .empty
  deriving DecidableEq

/-- Durable storage: every state saved so far, the latest first, and the results of the
`Save` calls to come (`false` is an error; once the list is used up every call succeeds). -/
structure Storage where
  saved : List DurableState := []
  results : List Bool := []
  deriving DecidableEq

/-- `Load`: the latest saved state, the zero value when there is none. -/
def Storage.load (s : Storage) : DurableState := s.saved.headD {}

/-- `Save`. A failed call leaves the saved states alone. -/
def Storage.save (s : Storage) (st : DurableState) : Storage :=
  match s.results with
  | [] => { s with saved := st :: s.saved }
  | true :: rest => { saved := st :: s.saved, results := rest }
  | false :: rest => { s with results := rest }

theorem Storage.mem_saved_save {s : Storage} {st d : DurableState} (hd : d ∈ (s.save st).saved) :
    d = st ∨ d ∈ s.saved := by
  unfold Storage.save at hd
  split at hd
  · exact List.mem_cons.mp hd
  · exact List.mem_cons.mp hd
  · exact Or.inr hd

/-! ## The node -/

/-- A goroutine that is ready to run. `replicateToDone` is the deferred function of
`replicateTo`. The goroutines of a `ReadIndex` call are kept with that call. -/
inductive Goroutine
  | replicateTo (peer : String)
  | replicateToDone (peer : String)
  | sendRequestVote (peer : String) (req : RequestVoteRequest)
  deriving DecidableEq

structure RaftNode (σ : Type) where
  id : String
  peerAddrs : AddrMap
  peerHTTP : AddrMap
  peerIDs : List String
  basePeers : AddrMap
  baseHTTP : AddrMap
  joining : Bool
  peerHook : Bool
  hooked : Option (AddrMap × AddrMap)
  transport : Option AddrMap
  apply : Option (ApplyFunc σ)
  storage : Option Storage
  snapshotter : Option (Snapshotter σ)
  snapshotThreshold : Int
  snapshot : Bytes
  state : State
  currentTerm : Int
  votedFor : String
  log : Log
  commitIndex : Int
  lastApplied : Int
  nextIndex : String → Option Int
  matchIndex : String → Int
  replicating : String → Bool
  votesReceived : Finset String
  leaderID : String
  stopped : Bool
  machine : σ
  applies : List (Int × LogEntry)
  goroutines : List Goroutine

variable {σ : Type}

namespace RaftNode

/-- `go f(...)`. -/
def spawn (n : RaftNode σ) (g : Goroutine) : RaftNode σ :=
  { n with goroutines := n.goroutines ++ [g] }

/-- The state that `persistLocked` saves. -/
def durable (n : RaftNode σ) : DurableState where
  currentTerm := n.currentTerm
  votedFor := n.votedFor
  log := n.log.toList
  snapshot := n.snapshot
  snapshotPeers := n.basePeers
  snapshotHTTP := n.baseHTTP

def persistLocked (n : RaftNode σ) : RaftNode σ :=
  { n with storage := n.storage.map (·.save n.durable) }

/-! ## Membership -/

def majority (n : RaftNode σ) : Nat := n.peerIDs.length / 2 + 1

def isVoterLocked (n : RaftNode σ) : Bool := (n.peerAddrs.get? n.id).isSome

end RaftNode

/-- Apply one change to a configuration and its HTTP addresses. A change that carries the
whole configuration replaces both. -/
def applyChange (c : AddrMap × AddrMap) (ch : MembershipChange) : AddrMap × AddrMap :=
  if !ch.peers.isEmpty then (ch.peers, ch.httpAddrs)
  else if ch.type = changeAdd then
    (c.1.set ch.id ch.addr, if ch.http ≠ "" then c.2.set ch.id ch.http else c.2)
  else if ch.type = changeRemove then (c.1.erase ch.id, c.2.erase ch.id)
  else c

/-- One round of the loops over the log in `rebuildMembershipLocked` and
`membershipAtLocked`. -/
def applyEntry (c : AddrMap × AddrMap) (e : LogEntry) : AddrMap × AddrMap :=
  match e.change with
  | some ch => applyChange c ch
  | none => c

namespace RaftNode

def rebuildMembershipLocked (n : RaftNode σ) : RaftNode σ :=
  let c := n.log.tail.foldl applyEntry (n.basePeers, n.baseHTTP)
  { n with peerAddrs := c.1, peerHTTP := c.2, peerIDs := c.1.keys }

/-- The configuration as of a log index: the loop stops at the first entry above it. -/
def membershipAtLocked (n : RaftNode σ) (index : Int) : AddrMap × AddrMap :=
  (n.log.tail.takeWhile (fun e => e.index ≤ index)).foldl applyEntry (n.basePeers, n.baseHTTP)

/-- `GRPCTransport.SetPeerAddr` on the address map. Go reads an absent address as `""`. -/
def setPeerAddr (addrs : AddrMap) (id addr : String) : AddrMap :=
  if (addrs.get? id).getD "" = addr then addrs else addrs.set id addr

/-- Tell the transport the addresses of all peers, and call the peer hook. -/
def notifyPeersLocked (n : RaftNode σ) : RaftNode σ :=
  { n with
    transport := n.transport.map
      (fun addrs => n.peerAddrs.bindings.foldl (fun m b => setPeerAddr m b.1 b.2) addrs)
    hooked := if n.peerHook then some (n.peerAddrs, n.peerHTTP) else n.hooked }

/-- Start tracking peers that are new to the leader. -/
def ensurePeerTrackingLocked (n : RaftNode σ) : RaftNode σ :=
  let last := n.log.lastLogIndexLocked
  let snap := n.log.lastIncludedIndexLocked
  n.peerIDs.foldl (fun n p =>
    match n.nextIndex p with
    | some _ => n
    | none =>
      let next := if snap > 0 then snap else if last + 1 < 1 then 1 else last + 1
      { n with
        nextIndex := Function.update n.nextIndex p (some next)
        matchIndex := Function.update n.matchIndex p 0 }) n

/-- Where the tracking of a new peer starts. -/
def firstNext (n : RaftNode σ) : Int :=
  if n.log.lastIncludedIndexLocked > 0 then n.log.lastIncludedIndexLocked
  else if n.log.lastLogIndexLocked + 1 < 1 then 1 else n.log.lastLogIndexLocked + 1

/-- One round of the loop. -/
def trackPeer (start : Int) (n : RaftNode σ) (p : String) : RaftNode σ :=
  match n.nextIndex p with
  | some _ => n
  | none =>
    { n with
      nextIndex := Function.update n.nextIndex p (some start)
      matchIndex := Function.update n.matchIndex p 0 }

theorem trackPeer_eq (n : RaftNode σ) (start : Int) (p : String) :
    trackPeer start n p =
      { n with
        nextIndex := fun q => if q = p ∧ n.nextIndex q = none then some start else n.nextIndex q
        matchIndex := fun q => if q = p ∧ n.nextIndex q = none then 0 else n.matchIndex q } := by
  unfold trackPeer
  cases hp : n.nextIndex p with
  | some i =>
    have hnot : ∀ q, ¬ (q = p ∧ n.nextIndex q = none) := by
      rintro q ⟨rfl, hq⟩
      rw [hp] at hq
      cases hq
    simp only [hnot, if_false]
  | none =>
    have hiff : ∀ q, (q = p ∧ n.nextIndex q = none) ↔ q = p :=
      fun q => ⟨fun h => h.1, fun h => ⟨h, h ▸ hp⟩⟩
    simp only [hiff]
    congr 1 <;> funext q <;> rw [Function.update_apply]

theorem foldl_trackPeer (n : RaftNode σ) (start : Int) (ps : List String) :
    ps.foldl (trackPeer start) n =
      { n with
        nextIndex := fun q => if q ∈ ps ∧ n.nextIndex q = none then some start else n.nextIndex q
        matchIndex := fun q => if q ∈ ps ∧ n.nextIndex q = none then 0 else n.matchIndex q } := by
  induction ps generalizing n with
  | nil => simp
  | cons p rest ih =>
    rw [List.foldl_cons, ih, trackPeer_eq]
    -- a peer that the first round has begun to track is left alone by the others
    congr 1 <;> funext q
    all_goals
      by_cases hq : n.nextIndex q = none
      · rcases eq_or_ne q p with rfl | hp
        · simp [hq]
        · simp [hq, hp]
      · simp [hq]

/-- **Only peers without tracking are changed**, and these are tracked from zero. -/
theorem ensurePeerTracking_spec (n : RaftNode σ) :
    n.ensurePeerTrackingLocked =
      { n with
        nextIndex := fun p =>
          if p ∈ n.peerIDs ∧ n.nextIndex p = none then some n.firstNext else n.nextIndex p
        matchIndex := fun p =>
          if p ∈ n.peerIDs ∧ n.nextIndex p = none then 0 else n.matchIndex p } :=
  foldl_trackPeer n n.firstNext n.peerIDs

theorem ensurePeerTracking_eq (n : RaftNode σ) : ∃ next mi,
    n.ensurePeerTrackingLocked = { n with nextIndex := next, matchIndex := mi } ∧
      ∀ p, mi p = n.matchIndex p ∨ mi p = 0 := by
  refine ⟨_, _, n.ensurePeerTracking_spec, fun p => ?_⟩
  split
  · exact Or.inr rfl
  · exact Or.inl rfl

end RaftNode

end Raft
