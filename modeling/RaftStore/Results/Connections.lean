import RaftStore.Raft.Transport
import RaftStore.Results.Dialing

/-!
# The cache of connections

Calls, changes of addresses and `Close` come in any order (`TransportOp`). The cache is not seen
from outside: a call goes to the address that the node has told last, as if every call dialled anew
(`calls_dial_told`). Nor does it leak: the connections that are open are those in the cache, one for
each peer (`open_iff_cached`). Both follow from one invariant (`Sound`), which every operation
keeps.
-/

namespace Raft

namespace GRPCTransport

variable {t t' : GRPCTransport} {id addr p q : String} {i : Nat}

/-- What the cache has is open, goes to the peer's address and is not shared; what is open is in it.
-/
structure Sound (t : GRPCTransport) : Prop where
  cached : ∀ p i, t.conns.get? p = some i →
    (t.addrs.get? p).getD "" ≠ "" ∧ t.made[i]? = some { addr := (t.addrs.get? p).getD "" }
  unshared : ∀ p q i, t.conns.get? p = some i → t.conns.get? q = some i → p = q
  kept : ∀ i c, t.made[i]? = some c → c.isOpen = true → ∃ p, t.conns.get? p = some i

/-! ## The operations -/

/-- A new transport has no connections. -/
theorem sound_new (addrs : AddrMap) : Sound (new addrs) := by
  refine ⟨fun p i h => ?_, fun p q i h => ?_, fun i c h => ?_⟩
  · simp [new, OrdMap.get?, OrdMap.empty] at h
  · simp [new, OrdMap.get?, OrdMap.empty] at h
  · simp [new] at h

/-- Closing the connection to a node keeps the cache sound. -/
theorem Sound.drop (h : Sound t) (id : String) : Sound (t.drop id) := by
  refine ⟨fun p i hp => ?_, fun p q i hp hq => ?_, fun i c hc hopen => ?_⟩
  · rw [get?_drop] at hp
    split at hp
    · cases hp
    -- the connection to another node stays
    next hne =>
    obtain ⟨haddr, hmade⟩ := h.cached p i hp
    rw [addrs_drop, made_drop, if_neg]
    · exact ⟨haddr, hmade⟩
    · -- it would be shared with the one that is closed
      intro hid
      exact hne (h.unshared p id i hp hid)
  · rw [get?_drop] at hp hq
    split at hp
    · cases hp
    split at hq
    · cases hq
    exact h.unshared p q i hp hq
  -- an open one is not the one that was closed, so it is in the cache still
  · rw [made_drop] at hc
    split at hc
    · -- this one has just been closed
      obtain ⟨c', _, rfl⟩ := Option.map_eq_some_iff.mp hc
      cases hopen
    next hne =>
    obtain ⟨p, hp⟩ := h.kept i c hc hopen
    refine ⟨p, ?_⟩
    rw [get?_drop, if_neg]
    · exact hp
    · rintro rfl
      exact hne hp

/-- Closing several keeps the cache sound. -/
theorem Sound.foldl_drop (h : Sound t) (ids : List String) :
    Sound (ids.foldl GRPCTransport.drop t) := by
  induction ids generalizing t with
  | nil => exact h
  | cons id rest ih => exact ih (h.drop id)

/-- Only the connections that were not closed are left. -/
theorem get?_foldl_drop (ids : List String) (t : GRPCTransport) (x : String) :
    (ids.foldl GRPCTransport.drop t).conns.get? x = if x ∈ ids then none else t.conns.get? x := by
  induction ids generalizing t with
  | nil => simp
  | cons id rest ih =>
    rw [List.foldl_cons, ih, get?_drop]
    by_cases hx : x = id
    · simp [hx]
    · simp [hx]

/-- Closing connections forgets no address. -/
theorem addrs_foldl_drop (ids : List String) (t : GRPCTransport) :
    (ids.foldl GRPCTransport.drop t).addrs = t.addrs := by
  induction ids generalizing t with
  | nil => rfl
  | cons id rest ih => rw [List.foldl_cons, ih, addrs_drop]

/-- The cache is empty after `Close`. -/
theorem get?_close (t : GRPCTransport) (x : String) : t.close.conns.get? x = none := by
  unfold close
  rw [get?_foldl_drop]
  split
  · rfl
  · next hx =>
    rw [← OrdMap.get?_isSome_iff] at hx
    simpa using hx

/-- A new address closes the old connection and keeps the cache sound. -/
theorem Sound.setPeerAddr (h : Sound t) (id addr : String) : Sound (t.setPeerAddr id addr) := by
  unfold GRPCTransport.setPeerAddr
  split
  · exact h
  have hdrop := h.drop id
  refine ⟨fun p i hp => ?_, hdrop.unshared, hdrop.kept⟩
  -- whatever is cached after `drop` is for another peer, whose address stays
  have hne : p ≠ id := by
    rintro rfl
    rw [get?_drop, if_pos rfl] at hp
    cases hp
  simpa [hne] using hdrop.cached p i hp

/-- A call keeps the cache sound. -/
theorem Sound.client (h : Sound t) (dials : Bool) (peer : String) :
    Sound (t.client dials peer).1 := by
  rcases t.client_cases dials peer with
    ⟨i, _, heq⟩ | ⟨hnone, ⟨_, heq⟩ | ⟨_, _, heq⟩ | ⟨haddr, heq⟩⟩
  · rw [heq]
    exact h
  · rw [heq]
    exact h
  · rw [heq]
    exact h
  -- the last case: a new connection is made
  rw [heq]
  -- the numbers in the cache are below that of the new connection
  have hlt : ∀ p i, t.conns.get? p = some i → i < t.made.length :=
    fun p i hp => (List.getElem?_eq_some_iff.mp (h.cached p i hp).2).1
  refine ⟨fun p i hp => ?_, fun p q i hp hq => ?_, fun i c hc hopen => ?_⟩
  -- what is cached has the known address
  · simp only [OrdMap.get?_set] at hp
    split at hp
    · next hpt =>
      cases hp
      rw [hpt]
      exact ⟨haddr, by simp⟩
    · obtain ⟨hknown, hmade⟩ := h.cached p i hp
      exact ⟨hknown, by rw [List.getElem?_append_left (hlt p i hp)]; exact hmade⟩
  -- nobody shares the new number
  · simp only [OrdMap.get?_set] at hp hq
    split at hp
    · split at hq
      · next hpt hqt => rw [hpt, hqt]
      · cases hp
        exact absurd (hlt q _ hq) (lt_irrefl _)
    · split at hq
      · cases hq
        exact absurd (hlt p _ hp) (lt_irrefl _)
      · exact h.unshared p q i hp hq
  -- and what is open is cached
  · rcases Nat.lt_or_ge i t.made.length with hold | hnew
    · rw [List.getElem?_append_left hold] at hc
      obtain ⟨p, hp⟩ := h.kept i c hc hopen
      have hne : p ≠ peer := by
        rintro rfl
        rw [hnone] at hp
        cases hp
      exact ⟨p, by simp [hne, hp]⟩
    · have hi := (List.getElem?_eq_some_iff.mp hc).1
      simp only [List.length_append, List.length_singleton] at hi
      obtain rfl : i = t.made.length := by omega
      exact ⟨peer, by simp⟩

/-! ## Runs -/

/-- What a transport is asked to do. `dials` says whether `grpc.NewClient` succeeds. -/
inductive TransportOp
  | setPeerAddr (id addr : String)
  | call (dials : Bool) (peer : String)
  | close

/-- The transport after one operation. -/
def step (t : GRPCTransport) : TransportOp → GRPCTransport
  | .setPeerAddr id addr => t.setPeerAddr id addr
  | .call dials peer => (t.client dials peer).1
  | .close => t.close

/-- Every operation keeps the cache sound. -/
theorem Sound.step (h : Sound t) (op : TransportOp) : Sound (t.step op) := by
  cases op with
  | setPeerAddr id addr => exact h.setPeerAddr id addr
  | call dials peer => exact h.client dials peer
  | close => exact h.foldl_drop _

/-- So does every sequence of them. -/
theorem Sound.run (h : Sound t) (ops : List TransportOp) :
    Sound (ops.foldl GRPCTransport.step t) := by
  induction ops generalizing t with
  | nil => exact h
  | cons op rest ih => exact ih (h.step op)

/-- The dial map of a node's transport, as the model of the node has it. -/
def told (addrs : AddrMap) : TransportOp → AddrMap
  | .setPeerAddr id addr => RaftNode.setPeerAddr addrs id addr
  | _ => addrs

/-- The addresses are what the transport was told. -/
theorem addrs_step (t : GRPCTransport) (op : TransportOp) :
    (t.step op).addrs = told t.addrs op := by
  cases op with
  | setPeerAddr id addr =>
    show (t.setPeerAddr id addr).addrs = RaftNode.setPeerAddr t.addrs id addr
    unfold GRPCTransport.setPeerAddr RaftNode.setPeerAddr
    split
    · rfl
    · simp
  | call dials peer =>
    rcases t.client_cases dials peer with ⟨i, _, heq⟩ | ⟨_, ⟨_, heq⟩ | ⟨_, _, heq⟩ | ⟨_, heq⟩⟩
    · simp [step, told, heq]
    · simp [step, told, heq]
    · simp [step, told, heq]
    · simp [step, told, heq]
  | close => exact addrs_foldl_drop _ _

/-- The same for a sequence of operations. -/
theorem addrs_run (ops : List TransportOp) (t : GRPCTransport) :
    (ops.foldl GRPCTransport.step t).addrs = ops.foldl told t.addrs := by
  induction ops generalizing t with
  | nil => rfl
  | cons op rest ih => rw [List.foldl_cons, List.foldl_cons, ih, addrs_step]

/-- What `notifyPeersLocked` does to its transport. -/
def notifyOps (peers : AddrMap) : List TransportOp :=
  peers.bindings.map (fun b => .setPeerAddr b.1 b.2)

/-- What a node tells its transport, one member after the other. -/
theorem foldl_told_notify (peers addrs : AddrMap) : (notifyOps peers).foldl told addrs =
    peers.bindings.foldl (fun m b => RaftNode.setPeerAddr m b.1 b.2) addrs := by
  unfold notifyOps
  rw [List.foldl_map]
  rfl

/-- What a call gets from a sound transport. -/
theorem Sound.call (h : Sound t) (dials : Bool) (peer : String) :
    (∀ t' i, t.client dials peer = (t', .ok i) → (t.addrs.get? peer).getD "" ≠ "" ∧
      t'.made[i]? = some { addr := (t.addrs.get? peer).getD "" }) ∧
    ∀ t' e, t.client dials peer = (t', .error e) → t' = t ∧
      (e = .unknownPeer peer ∧ (t.addrs.get? peer).getD "" = "" ∨
        e = .newClient ∧ dials = false ∧ t.conns.get? peer = none) := by
  rcases t.client_cases dials peer with
    ⟨j, hj, heq⟩ | ⟨hnone, ⟨haddr, heq⟩ | ⟨_, hdials, heq⟩ | ⟨haddr, heq⟩⟩
  -- a cached connection, to the address that is known
  · rw [heq]
    refine ⟨fun t' i hok => ?_, fun t' e herr => ?_⟩
    · cases hok
      exact h.cached peer j hj
    · cases herr
  -- no address is known
  · rw [heq]
    refine ⟨fun t' i hok => ?_, fun t' e herr => ?_⟩
    · cases hok
    · cases herr
      exact ⟨rfl, Or.inl ⟨rfl, haddr⟩⟩
  -- none can be made
  · rw [heq]
    refine ⟨fun t' i hok => ?_, fun t' e herr => ?_⟩
    · cases hok
    · cases herr
      exact ⟨rfl, Or.inr ⟨rfl, hdials, hnone⟩⟩
  -- a new one is made, to the address that is known
  · rw [heq]
    refine ⟨fun t' i hok => ?_, fun t' e herr => ?_⟩
    · cases hok
      exact ⟨haddr, by simp⟩
    · cases herr

/-! ## The results -/

variable {σ : Type} {n : RaftNode σ} {addrs : AddrMap} {ops : List TransportOp}

/-- **Members are dialled where the configuration says.** If the dial map of the node is that of the
transport, it stays so when the node tells its peers, and every call to a member then goes to the
address that the membership has for it. -/
theorem members_dialled (ht : n.transport = some (ops.foldl told addrs)) :
    n.notifyPeersLocked.transport = some ((ops ++ notifyOps n.peerAddrs).foldl told addrs) ∧
    ∀ p a, n.peerAddrs.get? p = some a → ∀ dials t' i,
      ((ops ++ notifyOps n.peerAddrs).foldl GRPCTransport.step (new addrs)).client dials p =
        (t', .ok i) → t'.made[i]? = some { addr := a } := by
  -- the transport has been told the addresses of the members last
  have hnotify : (ops ++ notifyOps n.peerAddrs).foldl told addrs =
      n.peerAddrs.bindings.foldl (fun m b => RaftNode.setPeerAddr m b.1 b.2)
        (ops.foldl told addrs) := by
    rw [List.foldl_append, foldl_told_notify]
  constructor
  · rw [hnotify]
    simp [RaftNode.notifyPeersLocked, ht]
  · intro p a hp dials t' i hcall
    have hsound := (sound_new addrs).run (ops ++ notifyOps n.peerAddrs)
    have hmade := ((hsound.call dials p).1 t' i hcall).2
    rw [addrs_run] at hmade
    -- and the address of a member is the one that it was told
    have haddr : (((ops ++ notifyOps n.peerAddrs).foldl told addrs).get? p).getD "" = a := by
      rw [hnotify]
      exact Node.getD_of_mem n.peerAddrs.sorted (OrdMap.mem_bindings_of_get? hp) _
    rw [← haddr]
    exact hmade

/-! A node whose transport was told an old address of `n2`, and has called it there. -/

/-- The transport was told another address, and has called `n2` there. -/
def moved : List TransportOp := [.setPeerAddr "n2" "a9", .call true "n2"]

/-- The node has the address of its configuration. -/
def mover : RaftNode Unit :=
  { RaftNode.boot Cluster.idle (Cluster.sample.config "n1") none with
    transport := some (moved.foldl told Cluster.threeNodes) }

theorem members_dialled_sample :
    ((moved.foldl told Cluster.threeNodes).get? "n2" = some "a9" ∧
      mover.peerAddrs.get? "n2" = some "a2") ∧
    mover.notifyPeersLocked.transport =
      some ((moved ++ notifyOps mover.peerAddrs).foldl told Cluster.threeNodes) ∧
    ∀ p a, mover.peerAddrs.get? p = some a → ∀ dials t' i,
      ((moved ++ notifyOps mover.peerAddrs).foldl GRPCTransport.step
        (new Cluster.threeNodes)).client
        dials p = (t', .ok i) → t'.made[i]? = some { addr := a } :=
  ⟨by decide +kernel, members_dialled rfl⟩

/-- **The cache is not seen.** After any operations a call gets an open connection to the address
that was told last; it fails, and nothing changes, only if there is no address, or if it has no
connection yet and cannot dial. -/
theorem calls_dial_told (addrs : AddrMap) (ops : List TransportOp) (dials : Bool) (peer : String) :
    (∀ t' i, (ops.foldl GRPCTransport.step (new addrs)).client dials peer = (t', .ok i) →
      ((ops.foldl told addrs).get? peer).getD "" ≠ "" ∧
        t'.made[i]? = some { addr := ((ops.foldl told addrs).get? peer).getD "" }) ∧
    ∀ t' e, (ops.foldl GRPCTransport.step (new addrs)).client dials peer = (t', .error e) →
      t' = ops.foldl GRPCTransport.step (new addrs) ∧
        (e = .unknownPeer peer ∧ ((ops.foldl told addrs).get? peer).getD "" = "" ∨
          e = .newClient ∧ dials = false ∧
            (ops.foldl GRPCTransport.step (new addrs)).conns.get? peer = none) := by
  have hcall := ((sound_new addrs).run ops).call dials peer
  rw [addrs_run] at hcall
  exact hcall

/-- **Nothing leaks.** After any operations a connection is open just if it is cached, and each is
cached for one peer; after `Close` none is open. -/
theorem open_iff_cached (addrs : AddrMap) (ops : List TransportOp) :
    (∀ i, (∃ c, (ops.foldl GRPCTransport.step (new addrs)).made[i]? = some c ∧ c.isOpen = true) ↔
      ∃ p, (ops.foldl GRPCTransport.step (new addrs)).conns.get? p = some i) ∧
    (∀ p q i, (ops.foldl GRPCTransport.step (new addrs)).conns.get? p = some i →
      (ops.foldl GRPCTransport.step (new addrs)).conns.get? q = some i → p = q) ∧
    ∀ c ∈ (ops.foldl GRPCTransport.step (new addrs)).close.made, c.isOpen = false := by
  have hsound := (sound_new addrs).run ops
  refine ⟨fun i => ⟨?_, ?_⟩, hsound.unshared, fun c hc => ?_⟩
  -- open connections are cached
  · rintro ⟨c, hc, hopen⟩
    exact hsound.kept i c hc hopen
  -- and cached ones are open
  · rintro ⟨p, hp⟩
    exact ⟨_, (hsound.cached p i hp).2, rfl⟩
  · obtain ⟨i, hi⟩ := List.mem_iff_getElem?.mp hc
    cases hopen : c.isOpen with
    | false => rfl
    | true =>
      -- whatever is open is in the cache, which is empty
      obtain ⟨p, hp⟩ := (hsound.step .close).kept i c hi hopen
      rw [show (GRPCTransport.step _ .close).conns.get? p = none from get?_close _ p] at hp
      cases hp

end GRPCTransport

end Raft
