import RaftStore.Node.Recovery
import RaftStore.Results.Fixed

/-!
# The dial map

The transport has its own copy of the addresses. `notifyPeersLocked` brings it up to date, and every
section that changes the membership calls it. `NewNode` recovers the membership from storage, too,
but before there is a transport, and `startNode` gives the transport only the addresses of the flag:
after a restart the transport does not know a server that was added (`unknown_member`).

Where the flag of every start lists the members that storage records, the transport knows all
members at any time (`dials_members`).
-/

namespace Node

open Raft Cluster

variable {σ : Type} {M : Machine σ} {n m m' : RaftNode σ} {cfg : Config} {ls : List Life}

/-- The transport has the address of every member. -/
def Dials (n : RaftNode σ) : Prop :=
  ∃ addrs, n.transport = some addrs ∧
    ∀ id addr, n.peerAddrs.get? id = some addr → (addrs.get? id).getD "" = addr

/-! ## Telling the transport -/

/-- An address that is told; without one the old address is removed. -/
theorem getD_setPeerAddr (addrs : AddrMap) (id addr x : String) :
    ((RaftNode.setPeerAddr addrs id addr).get? x).getD "" =
      if x = id then addr else (addrs.get? x).getD "" := by
  unfold RaftNode.setPeerAddr
  by_cases hx : x = id
  -- the address itself, which may be empty
  · subst hx
    rw [if_pos rfl]
    split
    · assumption
    · simp
  · rw [if_neg hx]
    split
    · rfl
    · simp [hx]

/-- Addresses that are not told stay as they are. -/
theorem getD_foldl_setPeerAddr {bs : List (String × String)} {x : String}
    (hx : ∀ b ∈ bs, b.1 ≠ x) (addrs : AddrMap) :
    ((bs.foldl (fun m b => RaftNode.setPeerAddr m b.1 b.2) addrs).get? x).getD "" =
      (addrs.get? x).getD "" := by
  induction bs generalizing addrs with
  | nil => rfl
  | cons b rest ih =>
    rw [List.foldl_cons, ih (fun c hc => hx c (List.mem_cons_of_mem _ hc)), getD_setPeerAddr,
      if_neg (Ne.symm (hx b List.mem_cons_self))]

/-- Every address that is told is known afterwards. -/
theorem getD_of_mem {bs : List (String × String)} (hbs : bs.Pairwise (fun a b => a.1 < b.1))
    {b : String × String} (hb : b ∈ bs) (addrs : AddrMap) :
    ((bs.foldl (fun m b => RaftNode.setPeerAddr m b.1 b.2) addrs).get? b.1).getD "" = b.2 := by
  induction bs generalizing addrs with
  | nil => cases hb
  | cons c rest ih =>
    rw [List.pairwise_cons] at hbs
    rcases List.mem_cons.mp hb with rfl | hb
    · -- the keys are distinct, so it is not told again
      rw [List.foldl_cons, getD_foldl_setPeerAddr (fun d hd => (hbs.1 d hd).ne'), getD_setPeerAddr,
        if_pos rfl]
    · exact ih hbs.2 hb _

theorem dials_notify {addrs : AddrMap} (ht : n.transport = some addrs) :
    Dials n.notifyPeersLocked := by
  refine ⟨_, congrArg (Option.map _) ht, fun id addr hget => ?_⟩
  exact getD_of_mem n.peerAddrs.sorted (OrdMap.mem_bindings_of_get? hget) addrs

/-! ## The sections -/

/-- No section lets the dial map fall behind. -/
theorem kept_dials : Kept (σ := σ) Dials where
  minor := by
    intro m m' hstep h
    cases hstep with
    | volatile v => exact h
    | ballot term vote _ => exact h
    | apply e _ _ =>
      obtain ⟨_, _, heq⟩ := m.applyNext_eq (m.lastApplied + 1) e
      rw [heq]
      exact h
    -- a compaction tells the members again
    | compact e data s _ _ _ _ =>
      obtain ⟨addrs, ht, _⟩ := h
      exact dials_notify (n := RaftNode.rebuildMembershipLocked { m with
        log := _, snapshot := data, basePeers := _, baseHTTP := _ }) ht
  append := fun _ _ h => h
  change := by
    rintro m ch c _ ⟨addrs, ht, _⟩
    exact dials_notify (n := RaftNode.rebuildMembershipLocked { m with log := _ }) ht

/-- Neither do the requests of a leader. -/
theorem accepts_dials (n : RaftNode σ) (ev : Event) : Accepts Dials n ev := by
  cases ev with
  | appendEntries req =>
    intro m _ _ _ h
    rcases m.mergeLocked_cases req with hsame | hmerged
    · rw [hsame]
      exact h
    -- a merge tells the members
    · obtain ⟨addrs, ht, _⟩ := h
      rw [hmerged]
      exact dials_notify (n := RaftNode.rebuildMembershipLocked { m with log := _ }) ht
  | installSnapshot req =>
    intro m _ _ h
    obtain ⟨k, ⟨_, rfl⟩ | ⟨_, rfl⟩, heq⟩ := m.installLocked_eq req
    · obtain ⟨addrs, ht, _⟩ := h
      rw [heq]
      exact dials_notify (n := RaftNode.rebuildMembershipLocked { m with
        log := _, snapshot := _, basePeers := req.peers, baseHTTP := req.http }) ht
    · -- without a configuration the membership stays
      rw [heq]
      exact h
  | _ => trivial

/-! ## Starting -/

/-- The configuration that storage records: the base configuration with the changes of the log. It
is the one of the flag if nothing was recorded. -/
def recordedPeers (cfg : Config) (d : DurableState) : AddrMap :=
  let base := if d.snapshotPeers.isEmpty then (cfg.peerAddrs, cfg.httpAddrs)
    else (d.snapshotPeers, d.snapshotHTTP)
  (d.log.tail.foldl applyEntry base).1

/-- Recovery ends with the membership of what was loaded. -/
theorem peerAddrs_recover (n : RaftNode σ) (d : DurableState) :
    (n.recover d).peerAddrs =
      ((n.load d).log.tail.foldl applyEntry ((n.load d).basePeers, (n.load d).baseHTTP)).1 := by
  unfold RaftNode.recover
  dsimp only
  -- what restores the machine and ends the wait leaves the members alone
  obtain ⟨x, la, ci, hx⟩ := restoreLoaded_fields (n.load d)
  rw [hx]
  obtain ⟨j, hj⟩ := RaftNode.exists_joining ({ n.load d with
    machine := x, lastApplied := la, commitIndex := ci } : RaftNode σ).rebuildMembershipLocked
  rw [hj]
  rfl

/-- A node that is started has the members that its disk records. -/
theorem peerAddrs_newNode (cfg : Config) (st : Storage) (sn : Option (Snapshotter σ)) (x : σ) :
    (RaftNode.newNode cfg (some st) sn x).peerAddrs = recordedPeers cfg st.load := by
  unfold RaftNode.newNode
  dsimp only
  generalize st.load = d
  split
  · rw [peerAddrs_recover]
    unfold RaftNode.load recordedPeers
    cases d.log with
    | nil => cases d.snapshotPeers.isEmpty <;> rfl
    | cons head tail => cases d.snapshotPeers.isEmpty <;> rfl
  · next hstate =>
    -- the zero value records nothing
    simp only [RaftNode.hasState, Bool.or_eq_true, decide_eq_true_eq, Bool.not_eq_true',
      not_or, Bool.not_eq_false] at hstate
    obtain ⟨⟨⟨⟨_, _⟩, hlog⟩, _⟩, hpeers⟩ := hstate
    unfold recordedPeers
    rw [hpeers, List.isEmpty_iff.mp hlog]
    rfl

/-- The flag lists every member that storage records, with its address. -/
def Lists (cfg : Config) (storage : Option Storage) : Prop :=
  ∀ id addr, (recordedPeers cfg ((storage.map Storage.load).getD {})).get? id = some addr →
    (cfg.peerAddrs.get? id).getD "" = addr

/-- A node whose flag lists the recorded members dials them. -/
theorem dials_boot {storage : Option Storage} (h : Lists cfg storage) :
    Dials (RaftNode.boot M cfg storage) := by
  -- the members it starts with
  have hpeers : (RaftNode.boot M cfg storage).peerAddrs =
      recordedPeers cfg ((storage.map Storage.load).getD {}) := by
    obtain ⟨x, la, ci, hx⟩ := RaftNode.boot_eq M cfg storage
    rw [hx]
    cases storage with
    | none => rfl
    | some st => exact peerAddrs_newNode cfg st _ _
  refine ⟨cfg.peerAddrs, rfl, fun id addr hget => h id addr ?_⟩
  rw [← hpeers]
  exact hget

/-- A flag that is what the disk records lists it. -/
theorem lists_of_eq {storage : Option Storage}
    (h : recordedPeers cfg ((storage.map Storage.load).getD {}) = cfg.peerAddrs) :
    Lists cfg storage := by
  intro id addr hget
  rw [h] at hget
  rw [hget]
  rfl

/-- Every start of the node is with a flag that lists the members. -/
def Listed (n : RaftNode σ) : Life → Prop
  | .event _ => True
  | .restart cfg => Lists cfg n.storage
  | .crashDuring ev saves cfg =>
    Lists cfg (World.cutSaves n.storage (handle n ev).storage saves)

/-! ## The results -/

/-- `n1` alone. -/
def soleConfig : Config where
  id := "n1"
  peerAddrs := .single "n1" "a1"
  snapshotThreshold := 0

/-! `n1` is alone, adds `n2`, and is restarted as it was started. -/

/-- The restart is with the flag of the first start. -/
def addThenRestart : List Life :=
  [.event (.tick true), .event (.addServer "n2" "a2" ""), .restart soleConfig]

/-- **A member that cannot be dialled.** -/
theorem unknown_member : ∃ n, Lives idle (fun _ _ => True)
    (RaftNode.boot idle soleConfig (some {})) addThenRestart n ∧ ¬ Dials n := by
  refine ⟨addThenRestart.foldl (live idle) (RaftNode.boot idle soleConfig (some {})),
    StepPath.of_exec (fun _ _ _ => trivial) rfl, ?_⟩
  rintro ⟨addrs, ht, hall⟩
  -- the transport knows `n1` only
  have htransport : (addThenRestart.foldl (live idle)
      (RaftNode.boot idle soleConfig (some {}))).transport = some (.single "n1" "a1") := by
    decide +kernel
  obtain rfl : .single "n1" "a1" = addrs := Option.some.inj (htransport.symm.trans ht)
  have hmiss := hall "n2" "a2" (by decide +kernel)
  exact absurd hmiss (by decide)

/-- **The dial map follows the membership** in every run in which the flag of each start lists the
members that storage records. -/
theorem dials_members {storage : Option Storage} (hstart : Lists cfg storage)
    (hrun : Lives M Listed (RaftNode.boot M cfg storage) ls n) : Dials n := by
  refine hrun.invariant (fun m l h hok => ?_) (dials_boot hstart)
  cases l with
  | event ev => exact kept_dials.handle (accepts_dials m ev) h
  | restart cfg => exact dials_boot hok
  | crashDuring ev saves cfg => exact dials_boot hok

/-- A flag with both members. -/
def pairConfig : Config where
  id := "n1"
  peerAddrs := .ofList [("n1", "a1"), ("n2", "a2")]
  snapshotThreshold := 0

/-! The same with a flag that lists the new member. -/

/-- `n1` has added `n2`. -/
def pairNode : RaftNode Unit :=
  [Life.event (.tick true), .event (.addServer "n2" "a2" "")].foldl (live idle)
    (RaftNode.boot idle soleConfig (some {}))

theorem dials_members_sample :
    (live idle pairNode (.restart pairConfig)).peerAddrs = pairConfig.peerAddrs ∧
      Dials (live idle pairNode (.restart pairConfig)) := by
  have hstart : Lists soleConfig (some {}) := lists_of_eq rfl
  have hlists : Lists pairConfig pairNode.storage := lists_of_eq (by decide +kernel)
  have hrun : Lives idle Listed (RaftNode.boot idle soleConfig (some {}))
      [.event (.tick true), .event (.addServer "n2" "a2" ""), .restart pairConfig]
      (live idle pairNode (.restart pairConfig)) :=
    StepPath.cons trivial rfl (StepPath.cons trivial rfl
      (StepPath.cons hlists rfl (StepPath.nil _)))
  exact ⟨by decide +kernel, dials_members hstart hrun⟩

end Node
