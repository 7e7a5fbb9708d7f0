import RaftStore.Cluster.Reads
import RaftStore.Node.Event

/-!
# What a step brings to a node

A step of the cluster is an event of at most one of its nodes: whatever holds of a node for every
event holds of the nodes of a cluster as long as they stay up. A goroutine that runs is first taken
off the list of those that are ready, and `Stop` only sets a flag, so these two fields may change
besides. The events are traced to the calls they belong to: a request reaches a node through a call
that is delivered to it, a reply through a call of its own (`Hears`, `step_heard`). And the calls
themselves are followed: each goes on asking the same, has a reply only once it was delivered, and a
new one has none (`calls_step`).
-/

namespace Cluster

open Raft

variable {σ : Type} {S : Setup σ} {w w' : World σ} {act : Action} {id j : String} {k : Nat}
  {n' : RaftNode σ} {c c' : Call} {g : GetOp σ}

/-! ## Events -/

/-- The event may happen at `id` in this step. -/
def Hears (w : World σ) (act : Action) (id : String) : Event → Prop
  | .tick due => act = .tick id due
  | .requestVote req => ∃ k c, act = .deliver k ∧ w.calls[k]? = some c ∧ c.pending = true ∧
      c.dst = id ∧ ∃ resp, c.rpc = .requestVote req resp
  | .appendEntries req => ∃ k c, act = .deliver k ∧ w.calls[k]? = some c ∧ c.pending = true ∧
      c.dst = id ∧ ∃ resp read, c.rpc = .appendEntries req resp read
  | .installSnapshot req => ∃ k c, act = .deliver k ∧ w.calls[k]? = some c ∧ c.pending = true ∧
      c.dst = id ∧ ∃ resp, c.rpc = .installSnapshot req resp
  | .voteReply peer req resp => ∃ k c, act = .reply k ∧ w.calls[k]? = some c ∧ c.src = id ∧
      c.dst = peer ∧ c.rpc = .requestVote req (some resp)
  | .appendReply peer req resp => ∃ k c, act = .reply k ∧ w.calls[k]? = some c ∧ c.src = id ∧
      c.dst = peer ∧ c.rpc = .appendEntries req (some resp) none
  | .installReply peer req resp => ∃ k c, act = .reply k ∧ w.calls[k]? = some c ∧ c.src = id ∧
      c.dst = peer ∧ c.rpc = .installSnapshot req (some resp)
  | .confirmReply term resp => ∃ k c, act = .reply k ∧ w.calls[k]? = some c ∧ c.src = id ∧
      ∃ req read, c.rpc = .appendEntries req (some resp) (some read) ∧ req.term = term
  | .addServer target addr http => act = .addServer id target addr http
  | .removeServer target => act = .removeServer id target
  | _ => True

/-- An event that `id` may hear of, from a state with other goroutines; `Stop` sets its flag. -/
def Hearing (w : World σ) (act : Action) (id : String) (n' : RaftNode σ) : Prop :=
  ∃ gs stopped ev, (stopped = (w.node id).stopped ∨ act = .stop id) ∧ Hears w act id ev ∧
    n' = handle { w.node id with goroutines := gs, stopped := stopped } ev

theorem hearing_same (w : World σ) (act : Action) (id : String) : Hearing w act id (w.node id) :=
  ⟨(w.node id).goroutines, (w.node id).stopped, .crash, Or.inl rfl, trivial, rfl⟩

theorem hearing_event {ev : Event} (h : Hears w act id ev) :
    Hearing w act id (handle (w.node id) ev) :=
  ⟨_, _, ev, Or.inl rfl, h, rfl⟩

/-- The same nodes are up, and each has heard what it may. -/
structure Heard (act : Action) (w w' : World σ) : Prop where
  up_eq : w'.up = w.up
  node : ∀ id, Hearing w act id (w'.node id)

theorem heard_of_eq (hup : w'.up = w.up) (hnode : w'.node = w.node) : Heard act w w' :=
  ⟨hup, fun id => by rw [hnode]; exact hearing_same w act id⟩

/-- A step that touches one node, which has heard what it brings. -/
theorem heard_of_update (hup : w'.up = w.up) (hnode : w'.node = Function.update w.node id n')
    (h : Hearing w act id n') : Heard act w w' := by
  refine ⟨hup, fun j => ?_⟩
  rw [hnode]
  by_cases hj : j = id
  · subst hj
    simpa using h
  · simpa [hj] using hearing_same w act j

/-- An event of one node. -/
theorem heard_of_event (w : World σ) (id : String) (ev : Event) (hev : Hears w act id ev)
    (hup : w'.up = w.up) (hnode : w'.node = Function.update w.node id (handle (w.node id) ev)) :
    Heard act w w' :=
  heard_of_update hup hnode (hearing_event hev)

/-- A goroutine's section is heard by its own node. -/
theorem heard_runGoroutine (id : String) (gs : List Goroutine) (g : Goroutine) :
    Heard act w ((w.setNode id { w.node id with goroutines := gs }).runGoroutine id g) := by
  have hself : (w.setNode id { w.node id with goroutines := gs }).node id =
      { w.node id with goroutines := gs } := by simp [World.setNode]
  cases g with
  | replicateTo peer =>
    have hturn : Hearing w act id (handle { w.node id with goroutines := gs } (.replicate peer)) :=
      ⟨gs, (w.node id).stopped, .replicate peer, Or.inl rfl, trivial, rfl⟩
    unfold World.runGoroutine
    dsimp only
    rw [hself]
    simp only [handle] at hturn
    -- with or without a call, the node has taken the same section
    rcases hr : RaftNode.replicateToHead { w.node id with goroutines := gs } peer with ⟨m, _ | call⟩
    · rw [hr] at hturn
      exact heard_of_update rfl (Function.update_idem ..) hturn
    · rw [hr] at hturn
      cases call with
      | append req => exact heard_of_update rfl (Function.update_idem ..) hturn
      | install req => exact heard_of_update rfl (Function.update_idem ..) hturn
  | replicateToDone peer =>
    unfold World.runGoroutine
    rw [hself]
    exact heard_of_update rfl (Function.update_idem ..)
      ⟨gs, (w.node id).stopped, .replicateDone peer, Or.inl rfl, trivial, rfl⟩
  | sendRequestVote peer req =>
    have hturn : Hearing w act id { w.node id with goroutines := gs } :=
      ⟨gs, (w.node id).stopped, .crash, Or.inl rfl, trivial, rfl⟩
    simp only [World.runGoroutine]
    split
    · exact heard_of_update rfl rfl hturn
    · exact heard_of_update rfl rfl hturn

/-- The receiver hears the request of the call. -/
theorem heard_deliverCall (hk : w.calls[k]? = some c) (hpend : c.pending = true) :
    Heard (.deliver k) w (w.deliverCall k c) := by
  unfold World.deliverCall
  cases hrpc : c.rpc with
  | requestVote req resp =>
    exact heard_of_event w c.dst (.requestVote req) ⟨k, c, rfl, hk, hpend, rfl, resp, hrpc⟩ rfl rfl
  | appendEntries req resp read =>
    exact heard_of_event w c.dst (.appendEntries req)
      ⟨k, c, rfl, hk, hpend, rfl, resp, read, hrpc⟩ rfl rfl
  | installSnapshot req resp =>
    exact heard_of_event w c.dst (.installSnapshot req)
      ⟨k, c, rfl, hk, hpend, rfl, resp, hrpc⟩ rfl rfl

/-- The sender hears the reply of the call. -/
theorem heard_replyCall (hk : w.calls[k]? = some c) (h : w.replyCall k c = some w') :
    Heard (.reply k) w w' := by
  unfold World.replyCall at h
  split at h
  · next req resp hrpc =>
    cases h
    exact heard_of_event w c.src (.voteReply c.dst req resp)
      ⟨k, c, rfl, hk, rfl, rfl, hrpc⟩ rfl rfl
  · next req resp hrpc =>
    cases h
    exact heard_of_event w c.src (.appendReply c.dst req resp)
      ⟨k, c, rfl, hk, rfl, rfl, hrpc⟩ rfl rfl
  -- the result of a read's heartbeat is recorded besides
  · next req resp read hrpc =>
    cases h
    refine heard_of_event w c.src (.confirmReply req.term resp)
      ⟨k, c, rfl, hk, rfl, req, read, hrpc, rfl⟩ ?_ ?_
    · simp [World.setNode, World.setCall]
    · simp [World.setNode, World.setCall, handle]
  · next req resp hrpc =>
    cases h
    exact heard_of_event w c.src (.installReply c.dst req resp)
      ⟨k, c, rfl, hk, rfl, rfl, hrpc⟩ rfl rfl
  · cases h

/-- A call that is given up may end a loop, and is heard as nothing. -/
theorem heard_giveUpCall (w : World σ) (k : Nat) (c : Call) : Heard act w (w.giveUpCall k c) := by
  have hagain : Hearing w act c.src ((w.node c.src).replicateAgain c.dst false) :=
    ⟨_, (w.node c.src).stopped, .crash, Or.inl rfl, trivial, rfl⟩
  unfold World.giveUpCall
  dsimp only
  split
  · exact heard_of_eq rfl rfl
  · exact heard_of_eq (by simp [World.setCall]) (by simp [World.setCall])
  · exact heard_of_update rfl rfl hagain
  · exact heard_of_update rfl rfl hagain

/-- A section of a read is heard as a wait for the term, or touches no node. -/
theorem heard_runGet (h : w.runGet k g = some w') : Heard act w w' := by
  cases getSection_of_runGet h with
  | polls => exact heard_of_event w g.node .readIndex trivial rfl rfl
  | polled => exact heard_of_event w g.node .readIndex trivial rfl rfl
  | _ => exact heard_of_eq rfl rfl

/-- A heartbeat of a read touches no node. -/
theorem heard_runBeat {i : Nat} (h : w.runBeat k g i = some w') : Heard act w w' := by
  obtain ⟨b, _, rfl⟩ := Option.map_eq_some_iff.mp h
  dsimp only
  split
  · exact heard_of_eq (by simp [World.setGet]) (by simp [World.setGet])
  · exact heard_of_eq rfl rfl

/-- A section of a write is heard as a proposal, or touches no node. -/
theorem heard_runPut {p : PutOp} (h : w.runPut S k p = some w') : Heard act w w' := by
  have hprop : ∀ v : World σ, v.up = w.up → v.node = Function.update w.node p.node
      ((w.node p.node).propose (S.encode p.key p.value)).1 → Heard act w v :=
    fun v => heard_of_event w p.node (.propose (S.encode p.key p.value)) trivial
  cases putSection_of_runPut h with
  | accepted => exact hprop _ rfl rfl
  | refused => exact hprop _ rfl rfl
  | _ => exact heard_of_eq rfl rfl

theorem Heard.hearing (h : Heard act w w') (hup : w'.up j = true) :
    w.up j = true ∧ Hearing w act j (w'.node j) :=
  ⟨by rw [← h.up_eq]; exact hup, h.node j⟩

/-- Of a crash the others hear nothing. -/
theorem hearing_crashed {v : World σ} {storage : Option Storage} (hnode : v.node = w.node)
    (hv : v.up = w.up) (hup : (v.crashed id storage).up j = true) :
    w.up j = true ∧ Hearing w act j ((v.crashed id storage).node j) := by
  have hj : j ≠ id := by
    rintro rfl
    simp [World.crashed] at hup
  refine ⟨?_, ?_⟩
  · simpa [World.crashed, hj, hv] using hup
  · simpa [World.crashed, hj, hnode] using hearing_same w act j

/-- The action starts or ends a process. -/
def Action.ofProcess : Action → Bool
  | .crash _ | .crashDuring _ _ | .restart _ => true
  | _ => false

/-- **What the nodes hear in a step** that starts and ends no process. -/
theorem heard_step (hstep : step S w act = some w') (hact : act.ofProcess = false) :
    Heard act w w' := by
  cases stepped_of_step hstep with
  | @tick id due => exact heard_of_event w id (.tick due) rfl rfl rfl
  | go => exact heard_runGoroutine _ _ _
  | deliver hk hpend => exact heard_deliverCall hk hpend
  | reply hk _ _ hreply => exact heard_replyCall hk hreply
  | giveUp => exact heard_giveUpCall w _ _
  | @propose id cmd => exact heard_of_event w id (.propose cmd) trivial rfl rfl
  | @addServer id target addr http =>
    exact heard_of_event w id (.addServer target addr http) rfl rfl rfl
  | @removeServer id target => exact heard_of_event w id (.removeServer target) rfl rfl rfl
  | stepGet _ _ hrun => exact heard_runGet hrun
  | beat _ _ hrun => exact heard_runBeat hrun
  | stepPut _ _ hrun => exact heard_runPut hrun
  | @stop id => exact heard_of_update rfl rfl ⟨_, true, .crash, Or.inr rfl, trivial, rfl⟩
  | crash => cases hact
  | crashDuring => cases hact
  | restart => cases hact
  -- starting and ending a request of a client
  | _ => exact heard_of_eq rfl rfl

/-- **What a node hears in a step**, if it was up and still is. -/
theorem step_heard (hstep : step S w act = some w') (hup : w'.up j = true)
    (hact : act ≠ .restart j) : w.up j = true ∧ Hearing w act j (w'.node j) := by
  cases hproc : act.ofProcess with
  | false => exact (heard_step hstep hproc).hearing hup
  | true =>
    cases stepped_of_step hstep with
    | crash => exact hearing_crashed rfl rfl hup
    | @crashDuring inner =>
      obtain ⟨calls, hcons⟩ := consume_eq w inner
      exact hearing_crashed (by rw [hcons]) (by rw [hcons]) hup
    | @restart id =>
      -- another node is started
      have hj : j ≠ id := fun h => hact (by rw [h])
      refine ⟨by simpa [hj] using hup, ?_⟩
      simpa [hj] using hearing_same w _ j
    | _ => cases hproc

/-! ## Nodes that a step leaves alone -/

/-- The node that an action may change. -/
def touched (w : World σ) : Action → Option String
  | .tick id _ | .go id _ | .propose id _ | .addServer id _ _ _ | .removeServer id _ => some id
  | .deliver k => w.calls[k]?.map (·.dst)
  | .reply k | .giveUp k => w.calls[k]?.map (·.src)
  | .stepGet k => w.gets[k]?.map (·.node)
  | .stepPut k => w.puts[k]?.map (·.node)
  | .stop id | .crash id | .restart id => some id
  | .crashDuring a _ => actor w a
  | _ => none

/-- A goroutine touches its own node only. -/
theorem node_runGoroutine_of_ne (hj : j ≠ id) (g : Goroutine) :
    (w.runGoroutine id g).node j = w.node j := by
  unfold World.runGoroutine
  cases g with
  | replicateTo peer =>
    dsimp only
    split
    · exact Function.update_of_ne hj ..
    · exact Function.update_of_ne hj ..
    · exact Function.update_of_ne hj ..
  | replicateToDone peer => exact Function.update_of_ne hj ..
  | sendRequestVote peer req =>
    dsimp only
    split <;> rfl

/-- A reply touches its receiver only. -/
theorem node_replyCall_of_ne (hj : j ≠ c.src) (h : w.replyCall k c = some w') :
    w'.node j = w.node j := by
  unfold World.replyCall at h
  dsimp only at h
  split at h
  · cases h
    exact Function.update_of_ne hj ..
  · cases h
    exact Function.update_of_ne hj ..
  · cases h
    rw [node_result]
    exact Function.update_of_ne hj ..
  · cases h
    exact Function.update_of_ne hj ..
  · cases h

/-- A call that is given up touches its sender only. -/
theorem node_giveUpCall_of_ne (hj : j ≠ c.src) : (w.giveUpCall k c).node j = w.node j := by
  unfold World.giveUpCall
  dsimp only
  split
  · rfl
  · rw [node_result]
    rfl
  · exact Function.update_of_ne hj ..
  · exact Function.update_of_ne hj ..

/-- A request touches its receiver only. -/
theorem node_deliverCall_of_ne (hj : j ≠ c.dst) : (w.deliverCall k c).node j = w.node j := by
  unfold World.deliverCall
  cases c.rpc with
  | requestVote req resp => exact Function.update_of_ne hj ..
  | appendEntries req resp read => exact Function.update_of_ne hj ..
  | installSnapshot req resp => exact Function.update_of_ne hj ..

/-- **A step changes one node at most.** -/
theorem node_of_untouched (hstep : step S w act = some w') (h : touched w act ≠ some j) :
    w'.node j = w.node j := by
  have hset : ∀ {id : String} {n : RaftNode σ}, some id ≠ some j →
      (w.setNode id n).node j = w.node j :=
    fun hne => Function.update_of_ne (fun heq => hne (by rw [heq])) ..
  cases stepped_of_step hstep with
  | tick => exact hset h
  | go =>
    have hj : j ≠ _ := fun heq => h (by rw [heq]; rfl)
    rw [node_runGoroutine_of_ne hj]
    exact hset h
  | deliver hk =>
    simp only [touched, hk, Option.map_some] at h
    exact node_deliverCall_of_ne (fun heq => h (by rw [heq]))
  | reply hk _ _ hreply =>
    simp only [touched, hk, Option.map_some] at h
    exact node_replyCall_of_ne (fun heq => h (by rw [heq])) hreply
  | giveUp hk =>
    simp only [touched, hk, Option.map_some] at h
    exact node_giveUpCall_of_ne (fun heq => h (by rw [heq]))
  | propose => exact hset h
  | addServer => exact hset h
  | removeServer => exact hset h
  -- reads and writes touch the node that they were sent to
  | stepGet hk _ hrun =>
    simp only [touched, hk, Option.map_some] at h
    cases getSection_of_runGet hrun with
    | polls => exact hset h
    | polled => exact hset h
    | _ => rfl
  | beat _ _ hrun =>
    obtain ⟨b, _, rfl⟩ := Option.map_eq_some_iff.mp hrun
    dsimp only
    split
    · rw [node_result]
      rfl
    · rfl
  | stepPut hk _ hrun =>
    simp only [touched, hk, Option.map_some] at h
    cases putSection_of_runPut hrun with
    | accepted => exact hset h
    | refused => exact hset h
    | _ => rfl
  | stop => exact hset h
  | crash => exact Function.update_of_ne (fun heq => h (by rw [heq]; rfl)) ..
  -- a crash touches the node that it happens to
  | @crashDuring inner saves id v hid =>
    obtain ⟨calls, hcons⟩ := consume_eq w inner
    show Function.update (consume w inner).node id _ j = _
    rw [Function.update_of_ne (fun heq => h (by rw [heq]; exact hid)), hcons]
  | restart => exact Function.update_of_ne (fun heq => h (by rw [heq]; rfl)) ..
  | _ => rfl

/-- It starts or ends no process but that one. -/
theorem up_of_untouched (hstep : step S w act = some w') (h : touched w act ≠ some j) :
    w'.up j = w.up j := by
  cases hproc : act.ofProcess with
  | false => rw [(heard_step hstep hproc).up_eq]
  | true =>
    cases stepped_of_step hstep with
    | crash => exact Function.update_of_ne (fun heq => h (by rw [heq]; rfl)) ..
    | @crashDuring inner saves id v hid =>
      obtain ⟨calls, hcons⟩ := consume_eq w inner
      show Function.update (consume w inner).up id _ j = _
      rw [Function.update_of_ne (fun heq => h (by rw [heq]; exact hid)), hcons]
    | restart => exact Function.update_of_ne (fun heq => h (by rw [heq]; rfl)) ..
    | _ => cases hproc

/-! ## Calls -/

/-- What a call asks, without the reply. -/
def Rpc.request : Rpc → Rpc
  | .requestVote req _ => .requestVote req none
  | .appendEntries req _ read => .appendEntries req none read
  | .installSnapshot req _ => .installSnapshot req none

/-- The receiver has replied. -/
def Rpc.answered : Rpc → Bool
  | .requestVote _ resp => resp.isSome
  | .appendEntries _ resp _ => resp.isSome
  | .installSnapshot _ resp => resp.isSome

/-- The caller of `k` gets a reply or an error, or a process starts or ends. -/
def EndsWait (act : Action) (k : Nat) : Prop :=
  act = .reply k ∨ act = .giveUp k ∨ act.ofProcess = true

/-- Call number `k` asks the same of the same node, and has a new reply only if it is delivered. -/
structure CallKept (act : Action) (k : Nat) (c c' : Call) : Prop where
  src_eq : c'.src = c.src
  dst_eq : c'.dst = c.dst
  request_eq : c'.rpc.request = c.rpc.request
  pending : c'.pending = true → c.pending = true
  rpc_eq : act ≠ .deliver k → c'.rpc = c.rpc
  waiting_eq : ¬ EndsWait act k → c'.waiting = c.waiting

theorem CallKept.refl (act : Action) (k : Nat) (c : Call) : CallKept act k c c :=
  ⟨rfl, rfl, rfl, fun h => h, fun _ => rfl, fun _ => rfl⟩

/-- An answer that is there was there before, or has just been given. -/
theorem CallKept.answered (h : CallKept act k c c') (hans : c'.rpc.answered = true) :
    c.rpc.answered = true ∨ act = .deliver k := by
  by_cases hact : act = .deliver k
  · exact Or.inr hact
  · exact Or.inl (h.rpc_eq hact ▸ hans)

/-- The term that the reply carries. -/
def Rpc.replied : Rpc → Option Int
  | .requestVote _ resp => resp.map (·.term)
  | .appendEntries _ resp _ => resp.map (·.term)
  | .installSnapshot _ resp => resp.map (·.term)

/-- What is not answered has no reply. -/
theorem replied_of_unanswered {rpc : Rpc} (h : rpc.answered = false) : rpc.replied = none := by
  cases rpc with
  | requestVote req resp => simpa [Rpc.answered, Rpc.replied] using h
  | appendEntries req resp read => simpa [Rpc.answered, Rpc.replied] using h
  | installSnapshot req resp => simpa [Rpc.answered, Rpc.replied] using h

/-- A call that was just sent: it has no reply, and a heartbeat of a read comes from its node. -/
structure CallNew (w : World σ) (c : Call) : Prop where
  answered : c.rpc.answered = false
  read : ∀ r, c.rpc.read = some r → ∃ g, w.gets[r]? = some g ∧ c.src = g.node

theorem callNew_plain (hans : c.rpc.answered = false) (hread : c.rpc.read = none) : CallNew w c :=
  ⟨hans, fun r hr => by rw [hread] at hr; cases hr⟩

/-- Every call is kept, and what is added is new. -/
structure CallsStep (act : Action) (w w' : World σ) : Prop where
  old : ∀ {k : Nat} {c : Call}, w.calls[k]? = some c →
    ∃ c', w'.calls[k]? = some c' ∧ CallKept act k c c'
  new : ∀ {k : Nat} {c' : Call}, w'.calls[k]? = some c' → w.calls.length ≤ k → CallNew w c'

/-- A call that was there before the step, or a new one. -/
theorem CallsStep.cases (h : CallsStep act w w') (hk : w'.calls[k]? = some c') :
    (∃ c, w.calls[k]? = some c ∧ CallKept act k c c') ∨ w.calls.length ≤ k ∧ CallNew w c' := by
  rcases Nat.lt_or_ge k w.calls.length with hlt | hge
  · obtain ⟨x, hx, hkept⟩ := h.old (List.getElem?_eq_getElem hlt)
    rw [hk, Option.some.injEq] at hx
    exact Or.inl ⟨_, List.getElem?_eq_getElem hlt, hx ▸ hkept⟩
  · exact Or.inr ⟨hge, h.new hk hge⟩

/-- Every call is changed in the same way. -/
theorem CallsStep.of_map {f : Call → Call} (hkept : ∀ k c, CallKept act k c (f c))
    (hcalls : w'.calls = w.calls.map f) : CallsStep act w w' := by
  refine ⟨fun {k c} hk => ⟨f c, ?_, hkept k c⟩, fun {k c'} hk hle => ?_⟩
  · rw [hcalls, List.getElem?_map, hk]
    rfl
  · have hlt := (List.getElem?_eq_some_iff.mp hk).1
    rw [hcalls, List.length_map] at hlt
    omega

theorem CallsStep.of_eq (hcalls : w'.calls = w.calls) : CallsStep act w w' :=
  CallsStep.of_map (f := fun c => c) (CallKept.refl act) (by rw [hcalls, List.map_id'])

/-- One call changes. -/
theorem CallsStep.of_set (hk : w.calls[k]? = some c) (hkept : CallKept act k c c')
    (hcalls : w'.calls = w.calls.set k c') : CallsStep act w w' := by
  refine ⟨fun {i x} hi => ?_, fun {i x} hi hle => ?_⟩
  · rw [hcalls]
    -- the call that is changed, and the others
    by_cases hik : i = k
    · subst hik
      rw [hk, Option.some.injEq] at hi
      exact ⟨c', List.getElem?_set_self (List.getElem?_eq_some_iff.mp hk).1, hi ▸ hkept⟩
    · exact ⟨x, by rw [List.getElem?_set_ne (Ne.symm hik), hi], CallKept.refl act i x⟩
  -- there is no new one
  · have hlt := (List.getElem?_eq_some_iff.mp hi).1
    rw [hcalls, List.length_set] at hlt
    omega

/-- A call is sent. -/
theorem CallsStep.of_append (hcalls : w'.calls = w.calls ++ [c]) (hnew : CallNew w c) :
    CallsStep act w w' := by
  refine ⟨fun {i x} hi => ⟨x, ?_, CallKept.refl act i x⟩, fun {i x} hi hle => ?_⟩
  · rw [hcalls, List.getElem?_append_left (List.getElem?_eq_some_iff.mp hi).1, hi]
  · rw [hcalls, List.getElem?_append_right hle] at hi
    rw [List.mem_singleton.mp (List.mem_of_getElem? hi)]
    exact hnew

theorem calls_result (w : World σ) (read : Nat) (b : Bool) : (w.result read b).calls = w.calls := by
  unfold World.result
  split <;> rfl

/-- A goroutine makes one call at most. -/
theorem calls_runGoroutine {v : World σ} (hv : v.calls = w.calls) (id : String) (g : Goroutine) :
    CallsStep act w (v.runGoroutine id g) := by
  unfold World.runGoroutine
  cases g with
  | replicateTo peer =>
    dsimp only
    split
    · exact CallsStep.of_eq hv
    · exact CallsStep.of_append (congrArg (· ++ [_]) hv) (callNew_plain rfl rfl)
    · exact CallsStep.of_append (congrArg (· ++ [_]) hv) (callNew_plain rfl rfl)
  | replicateToDone peer => exact CallsStep.of_eq hv
  | sendRequestVote peer req =>
    dsimp only
    split
    · exact CallsStep.of_eq hv
    · exact CallsStep.of_append (congrArg (· ++ [_]) hv) (callNew_plain rfl rfl)

/-- A delivery answers its call, once. -/
theorem calls_deliverCall (hk : w.calls[k]? = some c) :
    CallsStep (.deliver k) w (w.deliverCall k c) := by
  have hkept : ∀ rpc : Rpc, rpc.request = c.rpc.request →
      CallKept (.deliver k) k c { c with pending := false, rpc := rpc } :=
    fun rpc hreq => ⟨rfl, rfl, hreq, nofun, fun hact => absurd rfl hact, fun _ => rfl⟩
  unfold World.deliverCall
  cases hrpc : c.rpc with
  | requestVote req resp => exact CallsStep.of_set hk (hkept _ (by rw [hrpc]; rfl)) rfl
  | appendEntries req resp read => exact CallsStep.of_set hk (hkept _ (by rw [hrpc]; rfl)) rfl
  | installSnapshot req resp => exact CallsStep.of_set hk (hkept _ (by rw [hrpc]; rfl)) rfl

/-- The caller does not wait any more. -/
theorem callKept_done (h : EndsWait act k) (c : Call) :
    CallKept act k c { c with waiting := false } :=
  ⟨rfl, rfl, rfl, fun h => h, fun _ => rfl, fun hnot => absurd h hnot⟩

/-- A reply ends its call. -/
theorem calls_replyCall (hk : w.calls[k]? = some c) (h : w.replyCall k c = some w') :
    CallsStep (.reply k) w w' := by
  unfold World.replyCall at h
  dsimp only at h
  split at h
  · cases h
    exact CallsStep.of_set hk (callKept_done (Or.inl rfl) c) rfl
  · cases h
    exact CallsStep.of_set hk (callKept_done (Or.inl rfl) c) rfl
  · cases h
    exact CallsStep.of_set hk (callKept_done (Or.inl rfl) c) (calls_result _ _ _)
  · cases h
    exact CallsStep.of_set hk (callKept_done (Or.inl rfl) c) rfl
  · cases h

/-- Giving up ends the call. -/
theorem calls_giveUpCall (hk : w.calls[k]? = some c) :
    CallsStep (.giveUp k) w (w.giveUpCall k c) := by
  unfold World.giveUpCall
  dsimp only
  split
  · exact CallsStep.of_set hk (callKept_done (Or.inr (Or.inl rfl)) c) rfl
  · exact CallsStep.of_set hk (callKept_done (Or.inr (Or.inl rfl)) c) (calls_result _ _ _)
  · exact CallsStep.of_set hk (callKept_done (Or.inr (Or.inl rfl)) c) rfl
  · exact CallsStep.of_set hk (callKept_done (Or.inr (Or.inl rfl)) c) rfl

theorem calls_runGet (h : w.runGet k g = some w') : w'.calls = w.calls := by
  cases getSection_of_runGet h with
  | _ => rfl

/-- A heartbeat of a read makes its call. -/
theorem calls_runBeat {i : Nat} (hk : w.gets[k]? = some g)
    (h : w.runBeat k g i = some w') : CallsStep act w w' := by
  obtain ⟨b, _, rfl⟩ := Option.map_eq_some_iff.mp h
  dsimp only
  split
  · exact CallsStep.of_eq (calls_result _ _ _)
  · refine CallsStep.of_append rfl ⟨rfl, fun r hr => ⟨g, ?_, rfl⟩⟩
    exact (Option.some.inj hr) ▸ hk

theorem calls_runPut {p : PutOp} (h : w.runPut S k p = some w') : w'.calls = w.calls := by
  cases putSection_of_runPut h with
  | _ => rfl

/-- The calls of a process that crashes are not waited for, and the one it was handling is lost. -/
theorem calls_crashed (w : World σ) (inner : Action) (id : String) (storage : Option Storage)
    (hact : act.ofProcess = true) :
    CallsStep act w ((consume w inner).crashed id storage) := by
  -- nobody waits for the calls of the node any more
  have hflags : ∀ k c, CallKept act k c
      (if c.src = id then { c with waiting := false } else c) := by
    intro k c
    split
    · exact callKept_done (Or.inr (Or.inr hact)) c
    · exact CallKept.refl act k c
  -- the message that the section was about is gone
  have hlost : CallsStep act w (consume w inner) := by
    unfold consume
    split
    · next k =>
      split
      · next c hk =>
        have hgone : CallKept act k c { c with pending := false } :=
          ⟨rfl, rfl, rfl, nofun, fun _ => rfl, fun _ => rfl⟩
        exact CallsStep.of_set hk hgone rfl
      · exact CallsStep.of_eq rfl
    · exact CallsStep.of_eq rfl
  have hmap : CallsStep act (consume w inner) ((consume w inner).crashed id storage) :=
    CallsStep.of_map hflags rfl
  -- both together
  refine ⟨fun {k c} hk => ?_, fun {k c'} hk hle => ?_⟩
  · obtain ⟨c₁, hk₁, h₁⟩ := hlost.old hk
    obtain ⟨c₂, hk₂, h₂⟩ := hmap.old hk₁
    exact ⟨c₂, hk₂, h₂.src_eq.trans h₁.src_eq, h₂.dst_eq.trans h₁.dst_eq,
      h₂.request_eq.trans h₁.request_eq, fun h => h₁.pending (h₂.pending h),
      fun h => (h₂.rpc_eq h).trans (h₁.rpc_eq h),
        fun h => (h₂.waiting_eq h).trans (h₁.waiting_eq h)⟩
  · have hlt := (List.getElem?_eq_some_iff.mp hk).1
    have hsame : ((consume w inner).crashed id storage).calls.length = w.calls.length := by
      show ((consume w inner).calls.map _).length = _
      rw [List.length_map]
      unfold consume
      split
      · split
        · exact List.length_set
        · rfl
      · rfl
    omega

/-- **What a step does to the calls.** -/
theorem calls_step (hstep : step S w act = some w') : CallsStep act w w' := by
  cases stepped_of_step hstep with
  | go =>
    refine calls_runGoroutine ?_ _ _
    rfl
  | deliver hk => exact calls_deliverCall hk
  | reply hk _ _ hreply => exact calls_replyCall hk hreply
  | giveUp hk => exact calls_giveUpCall hk
  | stepGet _ _ hrun => exact CallsStep.of_eq (calls_runGet hrun)
  | beat hk _ hrun => exact calls_runBeat hk hrun
  | stepPut _ _ hrun => exact CallsStep.of_eq (calls_runPut hrun)
  | @crash id => exact calls_crashed w (.crash id) id _ rfl
  | @crashDuring inner => exact calls_crashed w inner _ _ rfl
  -- the other actions leave the calls alone
  | _ => exact CallsStep.of_eq rfl

/-! ## Terms of replies -/

/-- A vote is answered with the voter's term. -/
theorem term_handleRequestVote (n : RaftNode σ) (req : RequestVoteRequest) :
    (n.handleRequestVote req).2.term = (n.handleRequestVote req).1.currentTerm := by
  rcases n.handleRequestVote_cases req with ⟨_, heq⟩ | ⟨m, _, hterm, ⟨_, _, heq⟩ | heq⟩
  · rw [heq]
  · rw [heq]
    exact hterm.symm
  · rw [heq]
    exact hterm.symm

/-- A snapshot is answered with the receiver's term. -/
theorem term_handleInstallSnapshot (n : RaftNode σ) (req : InstallSnapshotRequest) :
    (n.handleInstallSnapshot req).2.term = (n.handleInstallSnapshot req).1.currentTerm := by
  rcases n.handleInstallSnapshot_cases req with ⟨_, heq⟩ | ⟨hle, _, heq⟩ | ⟨hle, _, heq⟩
  · rw [heq]
  · rw [heq]
    exact (n.hearLeader_fields (not_lt.mpr hle) req.leaderID).1.symm
  · rw [heq, ((n.hearLeader req.term req.leaderID).installed req).currentTerm_eq]
    exact (n.hearLeader_fields (not_lt.mpr hle) req.leaderID).1.symm

/-- A reply carries the term that its sender is in. -/
theorem replied_deliver (hstep : step S w (.deliver k) = some w') (hk : w'.calls[k]? = some c') :
    c'.rpc.replied = some (w'.node c'.dst).currentTerm := by
  cases stepped_of_step hstep with
  | @deliver _ c hc =>
    have hlt := (List.getElem?_eq_some_iff.mp hc).1
    unfold World.deliverCall at hk ⊢
    cases hrpc : c.rpc with
    | requestVote req resp =>
      simp only [hrpc, World.setCall, List.getElem?_set_self hlt, World.setNode,
        Option.some.injEq] at hk
      subst hk
      simp [Rpc.replied, World.setCall, World.setNode, term_handleRequestVote]
    | appendEntries req resp read =>
      simp only [hrpc, World.setCall, List.getElem?_set_self hlt, World.setNode,
        Option.some.injEq] at hk
      subst hk
      simp [Rpc.replied, World.setCall, World.setNode, term_handleAppendEntries]
    | installSnapshot req resp =>
      simp only [hrpc, World.setCall, List.getElem?_set_self hlt, World.setNode,
        Option.some.injEq] at hk
      subst hk
      simp [Rpc.replied, World.setCall, World.setNode, term_handleInstallSnapshot]

end Cluster
