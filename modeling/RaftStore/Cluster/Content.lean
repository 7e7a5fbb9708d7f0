import RaftStore.Cluster.Requests
import RaftStore.Cluster.Reads
import RaftStore.Node.Content

/-!
# What a cluster contains

`Clean` is `Node.Content` for a whole cluster: for every node, for every call between nodes that
carries entries or a snapshot, and for every store that a `Get` has returned. A step keeps it if the
command that the step hands to `Propose`, if any, is in `C` (`clean_step`). Nothing is assumed of
the network, of crashes, or of the configuration.
-/

namespace Cluster

open Raft Node

variable {σ : Type} {M : Machine σ} {C : Bytes → Prop} {P : σ → Prop} {S : Setup σ}
  {w w' : World σ} {act : Action} {id : String} {k : Nat} {n : RaftNode σ} {c : Call}

/-- What a request between nodes carries. -/
def Carries (M : Machine σ) (C : Bytes → Prop) (P : σ → Prop) : Rpc → Prop
  | .requestVote _ _ => True
  | .appendEntries req _ _ => ∀ e ∈ req.entries, EntryOk C e
  | .installSnapshot req _ => DataOk M P req.data

/-- **What a cluster contains.** -/
structure Clean (M : Machine σ) (C : Bytes → Prop) (P : σ → Prop) (w : World σ) : Prop where
  node : ∀ id, Content M C P (w.node id)
  calls : ∀ c ∈ w.calls, Carries M C P c.rpc
  answer : ∀ k store, w.answer k = some store → P store

/-- The command that the action hands to `Propose` is in `C`. -/
def Submits (S : Setup σ) (C : Bytes → Prop) (w : World σ) : Action → Prop
  | .propose _ cmd => C cmd
  | .stepPut k => ∀ p, w.puts[k]? = some p → C (S.encode p.key p.value)
  | .crashDuring act _ => Submits S C w act
  | _ => True

/-! ## Nodes and calls -/

/-- The part of `Clean` that sections of nodes change. -/
structure Carried (M : Machine σ) (C : Bytes → Prop) (P : σ → Prop) (w : World σ) : Prop where
  node : ∀ id, Content M C P (w.node id)
  calls : ∀ c ∈ w.calls, Carries M C P c.rpc

theorem Clean.carried (h : Clean M C P w) : Carried M C P w := ⟨h.node, h.calls⟩

theorem Carried.congr (h : Carried M C P w) (hnode : w'.node = w.node)
    (hcalls : w'.calls = w.calls) : Carried M C P w' :=
  ⟨hnode ▸ h.node, hcalls ▸ h.calls⟩

/-- A node with good content takes another's place. -/
theorem Carried.setNode (h : Carried M C P w) (hn : Content M C P n) :
    Carried M C P (w.setNode id n) := by
  refine ⟨fun j => ?_, h.calls⟩
  by_cases hj : j = id
  · subst hj
    simpa [World.setNode] using hn
  · simpa [World.setNode, hj] using h.node j

/-- A call is replaced. -/
theorem Carried.setCall (h : Carried M C P w) (hc : Carries M C P c.rpc) :
    Carried M C P (w.setCall k c) := by
  refine ⟨h.node, fun x hx => ?_⟩
  rcases List.mem_or_eq_of_mem_set hx with hold | rfl
  · exact h.calls x hold
  · exact hc

/-- A call is made. -/
theorem Carried.addCall (h : Carried M C P w) (hc : Carries M C P c.rpc) :
    Carried M C P (w.addCall c) := by
  refine ⟨h.node, fun x hx => ?_⟩
  rcases List.mem_append.mp hx with hold | hnew
  · exact h.calls x hold
  · rw [List.mem_singleton.mp hnew]
    exact hc

/-- The result of a heartbeat is neither in a node nor in a call. -/
theorem Carried.result (h : Carried M C P w) (read : Nat) (b : Bool) :
    Carried M C P (w.result read b) := by
  unfold World.result
  split
  · exact h
  · exact h.congr rfl rfl

/-- An event of one node. -/
theorem Carried.event (hM : MachineInv M C P) (h : Carried M C P w) (id : String) (ev : Event)
    (hev : Feeds M C P ev) : Carried M C P (w.setNode id (handle (w.node id) ev)) :=
  h.setNode ((h.node id).handle hM hev)

/-! ## Requests that are sent -/

/-- What `replicateTo` sends is taken from the log, or is the snapshot. -/
theorem carries_replicateToHead (hn : Content M C P n) (peer : String) :
    (∀ req, (n.replicateToHead peer).2 = some (.append req) → ∀ e ∈ req.entries, EntryOk C e) ∧
    (∀ req, (n.replicateToHead peer).2 = some (.install req) → DataOk M P req.data) := by
  -- entries are sent as they stand in the log
  have hlog : ∀ m : RaftNode σ, m.log = n.log → ∀ si, ∀ e ∈ m.log.slice si, EntryOk C e := by
    intro m hm si e he
    rw [hm] at he
    exact hn.log e (List.mem_of_mem_drop he)
  unfold RaftNode.replicateToHead
  split
  · exact ⟨fun _ h => (by cases h), fun _ h => (by cases h)⟩
  split
  -- the snapshot is sent as it was saved
  · refine ⟨fun _ h => (by cases h), fun req h => ?_⟩
    cases h
    exact hn.snapshot
  refine ⟨fun req h => ?_, fun req h => ?_⟩
  · obtain ⟨r, hr, hreq⟩ := Option.map_eq_some_iff.mp h
    cases hreq
    unfold RaftNode.makeAppendRequestLocked at hr
    split at hr
    · cases hr
    dsimp only at hr
    split at hr
    · cases hr
    cases hr
    refine hlog _ ?_ _
    split
    · rfl
    · rfl
  · obtain ⟨r, _, hreq⟩ := Option.map_eq_some_iff.mp h
    cases hreq

/-- A heartbeat of a read carries no entries. -/
theorem carries_heartbeat {term : Int} {req : AppendEntriesRequest}
    (h : n.sendConfirmHeartbeatHead term = some req) : ∀ e ∈ req.entries, EntryOk C e := by
  unfold RaftNode.sendConfirmHeartbeatHead at h
  split at h
  · cases h
  cases h
  intro e he
  cases he

/-- A goroutine sends what its node has. -/
theorem Carried.runGoroutine (hM : MachineInv M C P) (h : Carried M C P w) (g : Goroutine) :
    Carried M C P (w.runGoroutine id g) := by
  unfold World.runGoroutine
  cases g with
  | replicateTo peer =>
    have hn := h.event hM id (.replicate peer) trivial
    obtain ⟨hentries, hdata⟩ := carries_replicateToHead (h.node id) peer
    dsimp only
    simp only [handle] at hn
    -- the loop ends, or there is a call with entries or with a snapshot
    rcases hr : (w.node id).replicateToHead peer with ⟨m, _ | call⟩
    · rw [hr] at hn
      exact hn
    rw [hr] at hn hentries hdata
    cases call with
    | append req => exact hn.addCall (hentries req rfl)
    | install req => exact hn.addCall (hdata req rfl)
  | replicateToDone peer => exact h.event hM id (.replicateDone peer) trivial
  | sendRequestVote peer req =>
    dsimp only
    split
    · exact h
    · exact h.addCall trivial

/-! ## Calls that are answered -/

/-- The receiver takes in what the call carries. -/
theorem Carried.deliverCall (hM : MachineInv M C P) (h : Carried M C P w)
    (hc : Carries M C P c.rpc) : Carried M C P (w.deliverCall k c) := by
  unfold World.deliverCall
  cases hrpc : c.rpc with
  | requestVote req resp => exact (h.event hM _ (.requestVote req) trivial).setCall trivial
  | appendEntries req resp read =>
    rw [hrpc] at hc
    exact (h.event hM _ (.appendEntries req) hc).setCall hc
  | installSnapshot req resp =>
    rw [hrpc] at hc
    exact (h.event hM _ (.installSnapshot req) hc).setCall hc

/-- A reply carries no entries. -/
theorem Carried.replyCall (hM : MachineInv M C P) (h : Carried M C P w)
    (hc : Carries M C P c.rpc) (hreply : w.replyCall k c = some w') : Carried M C P w' := by
  have hw : Carried M C P (w.setCall k { c with waiting := false }) := h.setCall hc
  unfold World.replyCall at hreply
  dsimp only at hreply
  split at hreply
  · next req resp _ =>
    cases hreply
    exact hw.event hM c.src (.voteReply c.dst req resp) trivial
  · next req resp _ =>
    cases hreply
    exact hw.event hM c.src (.appendReply c.dst req resp) trivial
  · next req resp read _ =>
    cases hreply
    exact (hw.event hM c.src (.confirmReply req.term resp) trivial).result _ _
  · next req resp _ =>
    cases hreply
    exact hw.event hM c.src (.installReply c.dst req resp) trivial
  · cases hreply

/-- A call that is given up leaves content alone. -/
theorem Carried.giveUpCall (h : Carried M C P w) (hc : Carries M C P c.rpc) :
    Carried M C P (w.giveUpCall k c) := by
  have hw : Carried M C P (w.setCall k { c with waiting := false }) := h.setCall hc
  have hagain : Content M C P ((w.node c.src).replicateAgain c.dst false) := { h.node c.src with }
  unfold World.giveUpCall
  dsimp only
  split
  · exact hw
  · exact hw.result _ _
  · exact hw.setNode hagain
  · exact hw.setNode hagain

/-! ## Client calls -/

/-- A section of a read. -/
theorem Carried.runGet (hM : MachineInv M C P) (h : Carried M C P w) {g : GetOp σ}
    (hrun : w.runGet k g = some w') : Carried M C P w' := by
  have hpoll := h.event hM g.node .readIndex trivial
  cases getSection_of_runGet hrun with
  | polls => exact hpoll
  | polled => exact hpoll.congr rfl rfl
  | _ => exact h.congr rfl rfl

/-- A heartbeat of a read carries no entries. -/
theorem Carried.runBeat (h : Carried M C P w) {g : GetOp σ} {i : Nat}
    (hrun : w.runBeat k g i = some w') : Carried M C P w' := by
  obtain ⟨b, _, rfl⟩ := Option.map_eq_some_iff.mp hrun
  have hw : Carried M C P (w.setGet k { g with beats := g.beats.eraseIdx i }) := h.congr rfl rfl
  dsimp only
  split
  · exact hw.result _ _
  · next req hreq => exact hw.addCall (carries_heartbeat hreq)

/-- A section of a write puts the client's command into the log. -/
theorem Carried.runPut (hM : MachineInv M C P) (h : Carried M C P w) {p : PutOp}
    (hp : C (S.encode p.key p.value)) (hrun : w.runPut S k p = some w') : Carried M C P w' := by
  have hprop := h.event hM p.node (.propose (S.encode p.key p.value)) hp
  cases putSection_of_runPut hrun with
  | accepted => exact hprop.congr rfl rfl
  | refused => exact hprop.congr rfl rfl
  | _ => exact h.congr rfl rfl

/-! ## Crashes -/

/-- A message that is consumed leaves the others. -/
theorem Carried.consume (h : Carried M C P w) (inner : Action) :
    Carried M C P (consume w inner) := by
  unfold Cluster.consume
  split
  · split
    · next c hk => exact h.setCall (h.calls c (List.mem_of_getElem? hk))
    · exact h
  · exact h

/-- A process that crashes leaves its storage behind. -/
theorem Carried.crashed (h : Carried M C P w) {storage : Option Storage}
    (hst : ∀ s, storage = some s → ∀ d ∈ s.saved, DurableOk M C P d) :
    Carried M C P (w.crashed id storage) := by
  have hset : Carried M C P (w.setNode id { w.node id with storage := storage }) :=
    h.setNode { h.node id with saved := hst }
  -- calls of the node are no longer waited for
  refine ⟨hset.node, fun c hc => ?_⟩
  obtain ⟨x, hx, rfl⟩ := List.mem_map.mp hc
  have hrpc := h.calls x hx
  split
  · exact hrpc
  · exact hrpc

/-- Cutting off the last saves leaves some of them. -/
theorem durableOk_cutSaves {before after : Option Storage} {saves : Nat}
    (hafter : ∀ s, after = some s → ∀ d ∈ s.saved, DurableOk M C P d) :
    ∀ s, World.cutSaves before after saves = some s → ∀ d ∈ s.saved, DurableOk M C P d := by
  intro s hs d hd
  unfold World.cutSaves at hs
  -- what is kept is a part of what was saved
  split at hs
  · next a =>
    cases hs
    exact hafter a rfl d (List.mem_of_mem_drop hd)
  · exact hafter s hs d hd

/-! ## Steps -/

/-- Sections that run to their end. -/
theorem carried_whole (hM : MachineInv S.machine C P) (h : Carried S.machine C P w)
    (hsub : Submits S C w act) (hstep : step S w act = some w')
    (hwhole : ∀ inner saves, act ≠ .crashDuring inner saves) : Carried S.machine C P w' := by
  cases stepped_of_step hstep with
  | tick => exact h.event hM _ (.tick _) trivial
  -- the goroutine leaves the list before it runs
  | @go id k g =>
    have hw : Carried S.machine C P
        (w.setNode id { w.node id with goroutines := (w.node id).goroutines.eraseIdx k }) :=
      h.setNode { h.node id with }
    exact hw.runGoroutine hM g
  | deliver hk => exact h.deliverCall hM (h.calls _ (List.mem_of_getElem? hk))
  | reply hk _ _ hreply => exact h.replyCall hM (h.calls _ (List.mem_of_getElem? hk)) hreply
  | giveUp hk => exact h.giveUpCall (h.calls _ (List.mem_of_getElem? hk))
  | propose => exact h.event hM _ (.propose _) hsub
  | addServer => exact h.event hM _ (.addServer _ _ _) trivial
  | removeServer => exact h.event hM _ (.removeServer _) trivial
  | stepGet _ _ hrun => exact h.runGet hM hrun
  | beat _ _ hrun => exact h.runBeat hrun
  | stepPut hk _ hrun => exact h.runPut hM (hsub _ hk) hrun
  | @stop id => exact h.setNode { h.node id with }
  | @crash id => exact h.crashed (h.node id).saved
  | crashDuring => exact absurd rfl (hwhole _ _)
  -- a node starts from what it saved
  | @restart id =>
    exact (h.setNode (content_boot hM (S.config id) (h.node id).saved)).congr rfl rfl
  | _ => exact h.congr rfl rfl

/-- **A step carries only good content**, also one that is cut short by a crash. -/
theorem carried_step (hM : MachineInv S.machine C P) (h : Carried S.machine C P w)
    (hsub : Submits S C w act) (hstep : step S w act = some w') : Carried S.machine C P w' := by
  induction act generalizing w' with
  | crashDuring inner saves ih =>
    -- a crash in the middle of a section keeps a part of what the whole section saves
    cases stepped_of_step hstep with
    | @crashDuring _ _ id v hid hinner =>
      have hv := ih hsub hinner
      exact (h.consume inner).crashed (durableOk_cutSaves (hv.node id).saved)
  | _ => exact carried_whole hM h hsub hstep (fun _ _ => nofun)

/-- **Every step of the cluster.** -/
theorem clean_step (hM : MachineInv S.machine C P) (h : Clean S.machine C P w)
    (hsub : Submits S C w act) (hstep : step S w act = some w') : Clean S.machine C P w' := by
  obtain ⟨hnode, hcalls⟩ := carried_step hM h.carried hsub hstep
  refine ⟨hnode, hcalls, fun k store hans => ?_⟩
  obtain ⟨g', hg', hdone⟩ := answer_eq_some.mp hans
  have hgets := gets_step hstep
  rcases Nat.lt_or_ge k w.gets.length with hlt | hge
  · -- what a read returns is the state of its node
    obtain ⟨x, hx, hmove⟩ := hgets.old (List.getElem?_eq_getElem hlt)
    rw [hg', Option.some.injEq] at hx
    subst hx
    rcases hmove.done hdone with hold | ⟨_, _, rfl⟩
    · exact h.answer k store (answer_eq_some.mpr ⟨_, List.getElem?_eq_getElem hlt, hold⟩)
    · exact (h.node _).machine
  -- a read that was just sent has no answer
  · obtain ⟨_, hphase, _⟩ := hgets.new hg' hge
    rw [hphase] at hdone
    cases hdone

/-- At first nothing is carried. -/
theorem clean_init (hM : MachineInv S.machine C P) : Clean S.machine C P (World.init S) := by
  refine ⟨fun id => content_boot hM _ fun s hs d hd => ?_, fun c hc => (by cases hc),
    fun k store h => (by cases h)⟩
  cases hs
  cases hd

end Cluster
