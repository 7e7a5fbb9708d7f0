import RaftStore.Raft.Node

/-!
# The gRPC transport

`GRPCTransport` keeps one connection for each peer that it has called. `SetPeerAddr` closes the one
to an address that is no longer right, `Close` all of them. A connection is a number here: its place
among all that `grpc.NewClient` has returned (`made`), where it says which of them are still open.
-/

namespace Raft

/-- A connection of gRPC. It is never reopened. -/
structure ClientConn where
  addr : String
  isOpen : Bool := true
  deriving DecidableEq

/-- Why there is no connection: `ErrUnreachable` with the name of the peer, or the error of
`grpc.NewClient`. -/
inductive ClientErr
  | unknownPeer (peer : String)
  | newClient
  deriving DecidableEq

/-- `GRPCTransport`: addresses, cached connections, and all that were ever made. -/
structure GRPCTransport where
  addrs : AddrMap
  conns : OrdMap String Nat
  made : List ClientConn

namespace GRPCTransport

/-- `NewGRPCTransport`. -/
def new (addrs : AddrMap) : GRPCTransport := ⟨addrs, .empty, []⟩

/-- Close the connection that is cached for `id`, and forget it. -/
def drop (t : GRPCTransport) (id : String) : GRPCTransport :=
  match t.conns.get? id with
  | some i =>
    { t with
      conns := t.conns.erase id
      made := t.made.modify i (fun c => { c with isOpen := false }) }
  | none => t

/-- `Close`: every cached connection is closed and forgotten. -/
def close (t : GRPCTransport) : GRPCTransport := t.conns.keys.foldl drop t

/-- Go reads an absent address as `""`. -/
def setPeerAddr (t : GRPCTransport) (id addr : String) : GRPCTransport :=
  if (t.addrs.get? id).getD "" = addr then t
  else
    let t := t.drop id
    { t with addrs := t.addrs.set id addr }

/-- `dials` says whether `grpc.NewClient` returns a connection. -/
def client (t : GRPCTransport) (dials : Bool) (peer : String) :
    GRPCTransport × Except ClientErr Nat :=
  match t.conns.get? peer with
  | some i => (t, .ok i)
  | none =>
    let addr := (t.addrs.get? peer).getD ""
    if addr = "" then (t, .error (.unknownPeer peer))
    else if dials then
      ({ t with conns := t.conns.set peer t.made.length, made := t.made ++ [{ addr := addr }] },
        .ok t.made.length)
    else (t, .error .newClient)

/-! ## Its parts -/

/-- Closing a connection forgets no address. -/
@[simp] theorem addrs_drop (t : GRPCTransport) (id : String) : (t.drop id).addrs = t.addrs := by
  unfold drop
  split
  · rfl
  · rfl

/-- A connection that is closed is forgotten. -/
theorem get?_drop (t : GRPCTransport) (id x : String) :
    (t.drop id).conns.get? x = if x = id then none else t.conns.get? x := by
  unfold drop
  split
  · simp
  · next hnone =>
    split
    · next heq => rw [heq, hnone]
    · rfl

/-- It is closed, and the others are not. -/
theorem made_drop (t : GRPCTransport) (id : String) (j : Nat) : (t.drop id).made[j]? =
    if t.conns.get? id = some j then t.made[j]?.map (fun c => { c with isOpen := false })
    else t.made[j]? := by
  unfold drop
  split
  · next i hi =>
    rw [List.getElem?_modify, hi]
    by_cases hij : i = j
    · simp [hij]
    · simp [hij]
  · next hnone => simp [hnone]

/-- **What a call gets**: the cached connection, an error, or a new connection to the address that
the peer has now. -/
theorem client_cases (t : GRPCTransport) (dials : Bool) (peer : String) :
    (∃ i, t.conns.get? peer = some i ∧ t.client dials peer = (t, .ok i)) ∨
    t.conns.get? peer = none ∧
      ((t.addrs.get? peer).getD "" = "" ∧ t.client dials peer = (t, .error (.unknownPeer peer)) ∨
       (t.addrs.get? peer).getD "" ≠ "" ∧ dials = false ∧
         t.client dials peer = (t, .error .newClient) ∨
       (t.addrs.get? peer).getD "" ≠ "" ∧ t.client dials peer =
        ({ t with
            conns := t.conns.set peer t.made.length
            made := t.made ++ [{ addr := (t.addrs.get? peer).getD "" }] }, .ok t.made.length)) := by
  unfold client
  -- a cached connection is returned; otherwise there must be an address
  cases hget : t.conns.get? peer with
  | some i => exact Or.inl ⟨i, rfl, rfl⟩
  | none =>
    right
    by_cases haddr : (t.addrs.get? peer).getD "" = ""
    · simp [haddr]
    · cases dials with
      | true => simp [haddr]
      | false => simp [haddr]

end GRPCTransport

end Raft
