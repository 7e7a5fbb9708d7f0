import Mathlib.Algebra.Ring.Int.Defs
import RaftStore.Raft.Types

/-!
# The messages on the wire

The protobuf messages of `proto/raftkv.proto` and the conversions of `raft/grpc.go`. An `int` is
sent as an `int64`. The optional membership change of an entry is flattened into six fields of the
message; its presence is read off two of them, the type and the peers.
-/

namespace Raft

/-! ## Messages -/

namespace Pb

/-- `raftkv.LogEntry`. A change is flattened into the last six fields; an unset field is empty. -/
structure LogEntry where
  term : Int64
  index : Int64
  command : Bytes
  changeType : String := ""
  changeId : String := ""
  changeAddr : String := ""
  changeHttp : String := ""
  changePeers : AddrMap := .empty
  changeHttpAddrs : AddrMap := .empty
  deriving DecidableEq

/-- `raftkv.RequestVoteRequest`. -/
structure RequestVoteRequest where
  term : Int64
  candidateId : String
  lastLogIndex : Int64
  lastLogTerm : Int64
  deriving DecidableEq

structure RequestVoteResponse where
  term : Int64
  voteGranted : Bool
  deriving DecidableEq

/-- `raftkv.AppendEntriesRequest`. -/
structure AppendEntriesRequest where
  term : Int64
  leaderId : String
  prevLogIndex : Int64
  prevLogTerm : Int64
  entries : List LogEntry
  leaderCommit : Int64
  deriving DecidableEq

structure AppendEntriesResponse where
  term : Int64
  success : Bool
  deriving DecidableEq

/-- `raftkv.InstallSnapshotRequest`: besides the image, the configuration at its last index. -/
structure InstallSnapshotRequest where
  term : Int64
  leaderId : String
  lastIncludedIndex : Int64
  lastIncludedTerm : Int64
  data : Bytes
  peers : AddrMap
  httpAddrs : AddrMap
  deriving DecidableEq

structure InstallSnapshotResponse where
  term : Int64
  deriving DecidableEq

end Pb

/-! ## Votes -/

def voteReqToProto (r : RequestVoteRequest) : Pb.RequestVoteRequest where
  term := .ofInt r.term
  candidateId := r.candidateID
  lastLogIndex := .ofInt r.lastLogIndex
  lastLogTerm := .ofInt r.lastLogTerm

def voteReqFromProto (r : Pb.RequestVoteRequest) : RequestVoteRequest where
  term := r.term.toInt
  candidateID := r.candidateId
  lastLogIndex := r.lastLogIndex.toInt
  lastLogTerm := r.lastLogTerm.toInt

def voteRespToProto (r : RequestVoteResponse) : Pb.RequestVoteResponse where
  term := .ofInt r.term
  voteGranted := r.voteGranted

def voteRespFromProto (r : Pb.RequestVoteResponse) : RequestVoteResponse where
  term := r.term.toInt
  voteGranted := r.voteGranted

/-! ## Entries -/

/-- The loop body of `appendReqToProto`. -/
def entryToProto (e : LogEntry) : Pb.LogEntry :=
  let m : Pb.LogEntry := { term := .ofInt e.term, index := .ofInt e.index, command := e.command }
  -- `if e.Change != nil`: without a change the six fields keep their zero values
  match e.change with
  | none => m
  | some ch =>
    { m with
      changeType := ch.type
      changeId := ch.id
      changeAddr := ch.addr
      changeHttp := ch.http
      changePeers := ch.peers
      changeHttpAddrs := ch.httpAddrs }

/-- The loop body of `appendReqFromProto`. -/
def entryFromProto (m : Pb.LogEntry) : LogEntry where
  term := m.term.toInt
  index := m.index.toInt
  command := m.command
  change :=
    -- the presence of a change is not sent: it is read off its type and its peers
    if m.changeType ≠ "" ∨ m.changePeers.isEmpty = false then
      some
        { type := m.changeType, id := m.changeId, addr := m.changeAddr, http := m.changeHttp,
          peers := m.changePeers, httpAddrs := m.changeHttpAddrs }
    else none

def appendReqToProto (r : AppendEntriesRequest) : Pb.AppendEntriesRequest where
  term := .ofInt r.term
  leaderId := r.leaderID
  prevLogIndex := .ofInt r.prevLogIndex
  prevLogTerm := .ofInt r.prevLogTerm
  entries := r.entries.map entryToProto
  leaderCommit := .ofInt r.leaderCommit

def appendReqFromProto (r : Pb.AppendEntriesRequest) : AppendEntriesRequest where
  term := r.term.toInt
  leaderID := r.leaderId
  prevLogIndex := r.prevLogIndex.toInt
  prevLogTerm := r.prevLogTerm.toInt
  entries := r.entries.map entryFromProto
  leaderCommit := r.leaderCommit.toInt

def appendRespToProto (r : AppendEntriesResponse) : Pb.AppendEntriesResponse where
  term := .ofInt r.term
  success := r.success

def appendRespFromProto (r : Pb.AppendEntriesResponse) : AppendEntriesResponse where
  term := r.term.toInt
  success := r.success

/-! ## Snapshots -/

/-- The configuration travels under other names: `Http` is `http_addrs` on the wire. -/
def installReqToProto (r : InstallSnapshotRequest) : Pb.InstallSnapshotRequest where
  term := .ofInt r.term
  leaderId := r.leaderID
  lastIncludedIndex := .ofInt r.lastIncludedIndex
  lastIncludedTerm := .ofInt r.lastIncludedTerm
  data := r.data
  peers := r.peers
  httpAddrs := r.http

def installReqFromProto (r : Pb.InstallSnapshotRequest) : InstallSnapshotRequest where
  term := r.term.toInt
  leaderID := r.leaderId
  lastIncludedIndex := r.lastIncludedIndex.toInt
  lastIncludedTerm := r.lastIncludedTerm.toInt
  data := r.data
  peers := r.peers
  http := r.httpAddrs

def installRespToProto (r : InstallSnapshotResponse) : Pb.InstallSnapshotResponse where
  term := .ofInt r.term

def installRespFromProto (r : Pb.InstallSnapshotResponse) : InstallSnapshotResponse where
  term := r.term.toInt

/-! ## Round trips -/

/-- The values of a 64-bit `int`. -/
def IsInt (x : Int) : Prop := -2 ^ 63 ≤ x ∧ x < 2 ^ 63

theorem IsInt.toInt_ofInt {x : Int} (h : IsInt x) : (Int64.ofInt x).toInt = x :=
  Int64.toInt_ofInt_of_le h.1 h.2

/-- Every number of the request fits into 64 bits. -/
def RequestVoteRequest.Ints (r : RequestVoteRequest) : Prop :=
  IsInt r.term ∧ IsInt r.lastLogIndex ∧ IsInt r.lastLogTerm

/-- Every number of the request fits into 64 bits. -/
def InstallSnapshotRequest.Ints (r : InstallSnapshotRequest) : Prop :=
  IsInt r.term ∧ IsInt r.lastIncludedIndex ∧ IsInt r.lastIncludedTerm

def LogEntry.Ints (e : LogEntry) : Prop := IsInt e.term ∧ IsInt e.index

/-- Every number of the request and of its entries fits into 64 bits. -/
def AppendEntriesRequest.Ints (r : AppendEntriesRequest) : Prop :=
  IsInt r.term ∧ IsInt r.prevLogIndex ∧ IsInt r.prevLogTerm ∧ IsInt r.leaderCommit ∧
    ∀ e ∈ r.entries, e.Ints

/-- A change that the receiver can tell from none: it has a type or peers. -/
def LogEntry.Marked (e : LogEntry) : Prop :=
  ∀ ch, e.change = some ch → ch.type ≠ "" ∨ ch.peers.isEmpty = false

/-- A vote request arrives as it was sent. -/
theorem voteReq_roundTrip {r : RequestVoteRequest} (h : r.Ints) :
    voteReqFromProto (voteReqToProto r) = r := by
  obtain ⟨hterm, hindex, hlast⟩ := h
  simp only [voteReqFromProto, voteReqToProto, hterm.toInt_ofInt, hindex.toInt_ofInt,
    hlast.toInt_ofInt]

theorem voteResp_roundTrip {r : RequestVoteResponse} (h : IsInt r.term) :
    voteRespFromProto (voteRespToProto r) = r := by
  simp only [voteRespFromProto, voteRespToProto, h.toInt_ofInt]

/-- A snapshot arrives as it was sent. -/
theorem installReq_roundTrip {r : InstallSnapshotRequest} (h : r.Ints) :
    installReqFromProto (installReqToProto r) = r := by
  obtain ⟨hterm, hindex, hlast⟩ := h
  simp only [installReqFromProto, installReqToProto, hterm.toInt_ofInt, hindex.toInt_ofInt,
    hlast.toInt_ofInt]

theorem installResp_roundTrip {r : InstallSnapshotResponse} (h : IsInt r.term) :
    installRespFromProto (installRespToProto r) = r := by
  simp only [installRespFromProto, installRespToProto, h.toInt_ofInt]

theorem appendResp_roundTrip {r : AppendEntriesResponse} (h : IsInt r.term) :
    appendRespFromProto (appendRespToProto r) = r := by
  simp only [appendRespFromProto, appendRespToProto, h.toInt_ofInt]

/-- An entry survives the flattening of its change. -/
theorem entry_roundTrip {e : LogEntry} (h : e.Ints) (hmark : e.Marked) :
    entryFromProto (entryToProto e) = e := by
  obtain ⟨term, index, command, change⟩ := e
  obtain ⟨hterm, hindex⟩ := h
  cases change with
  | none =>
    -- no field of a change is set, so the receiver sees none
    have hempty : (OrdMap.empty : AddrMap).isEmpty = true := rfl
    simp only [entryFromProto, entryToProto, hterm.toInt_ofInt, hindex.toInt_ofInt, hempty]
    simp
  | some ch =>
    -- the receiver sees the change: its type or its peers are set
    have hpresent : ch.type ≠ "" ∨ ch.peers.isEmpty = false := hmark ch rfl
    simp only [entryFromProto, entryToProto, hterm.toInt_ofInt, hindex.toInt_ofInt]
    congr 1
    exact if_pos hpresent

/-- `AppendEntries` arrives as it was sent, if each of its changes has a type or peers. -/
theorem appendReq_roundTrip {r : AppendEntriesRequest} (h : r.Ints)
    (hmark : ∀ e ∈ r.entries, e.Marked) : appendReqFromProto (appendReqToProto r) = r := by
  obtain ⟨hterm, hprev, hprevTerm, hcommit, hentries⟩ := h
  -- entry by entry
  have hmap : (r.entries.map entryToProto).map entryFromProto = r.entries := by
    rw [List.map_map]
    exact (List.map_congr_left (fun e he => entry_roundTrip (hentries e he) (hmark e he))).trans
      (List.map_id r.entries)
  simp only [appendReqFromProto, appendReqToProto, hterm.toInt_ofInt, hprev.toInt_ofInt,
    hprevTerm.toInt_ofInt, hcommit.toInt_ofInt, hmap]

end Raft
