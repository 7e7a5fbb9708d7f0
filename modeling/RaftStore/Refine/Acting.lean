import RaftStore.Refine.Restart
import RaftStore.Cluster.Steps

/-!
# Critical sections in the cluster

A step of the cluster that runs code is one critical section of one node (`Acted`): the other
nodes are framed, and what the section adds to the world, messages and client calls, has to
be on record. This module lifts the sections of a node to the cluster and adds those that
belong to no node alone: goroutines, requests, replies, and the calls of clients.
-/

namespace Refine

open Raft Consensus Cluster

variable {σ : Type} {X : Mode σ} {a a' a'' : Chron} {id : String} {n n' : RaftNode σ}
  {K : Nat → Prop}
  {w w' w'' : World σ} {k : Nat} {c : Call} {g : GetOp σ} {p : PutOp}

/-! ## One critical section -/

theorem WorldRel.node_rel (h : WorldRel X a w) (hup : w.up id = true) :
    NodeRel X a id (w.node id) := by
  have := h.nodes id
  rwa [revived_of_up hup] at this

/-- A request whose entry, while it waits for it, stands in its node's log. -/
def PutLogged (X : Mode σ) (a : Chron) (p : PutOp) : Prop :=
  PutRel X a p ∧ ∀ i t, p.phase = .waitApplied i → p.proposed = some (i, t) →
    (a.log p.node)[i.toNat - 1]? =
      some { term := t, index := i, command := X.setup.encode p.key p.value }

/-- A critical section of node `id`. -/
structure Acted (X : Mode σ) (id : String) (K : Nat → Prop) (a a' : Chron) (w w' : World σ) :
    Prop where
  up : w.up id = true
  reached : Reached X id K a a' (w.node id) (w'.node id)
  rel : WorldRel X a' w'
  up_eq : w'.up = w.up
  others : ∀ j, j ≠ id → w'.node j = w.node j
  puts : ∀ p ∈ w'.puts, p ∈ w.puts ∨ PutLogged X a' p

/-- Two sections in a row, of which the first leaves the requests of clients alone. -/
theorem Acted.trans (h : Acted X id K a a' w w') (h' : Acted X id K a' a'' w' w'')
    (hputs : w'.puts = w.puts) : Acted X id K a a'' w w'' :=
  ⟨h.up, h.reached.trans h'.reached, h'.rel, h'.up_eq.trans h.up_eq,
    fun j hj => (h'.others j hj).trans (h.others j hj), by rw [← hputs]; exact h'.puts⟩

/-- A section of one node, seen from the cluster: the other nodes are framed, and new
messages and client calls have to be on record. -/
theorem WorldRel.lift (h : WorldRel X a w) (hup : w.up id = true)
    (hr : Reached X id K a a' (w.node id) n') (hnode : w'.node = Function.update w.node id n')
    (hup' : w'.up = w.up) (hcalls : ∀ c ∈ w'.calls, c ∈ w.calls ∨ CallRel X a' c)
    (hputs : ∀ p ∈ w'.puts, p ∈ w.puts ∨ PutLogged X a' p)
    (hgets : ∀ g ∈ w'.gets, g ∈ w.gets ∨ GetRel g) : Acted X id K a a' w w' := by
  have hself : w'.node id = n' := by rw [hnode, Function.update_self]
  refine ⟨hup, hself ▸ hr, ⟨hr.good, ?_, ?_, ?_, fun g hg => ?_⟩, hup',
    fun j hj => ?_, hputs⟩
  -- the node itself, and the others, for which the chronicle has only grown
  · intro j
    by_cases hj : j = id
    · subst hj
      rw [revived_of_up (hup' ▸ hup), hself]
      exact hr.rel
    · rw [revived_congr (w := w) (congrFun hup' j) (by rw [hnode, Function.update_of_ne hj])]
      exact (h.nodes j).frame h.good hr.good hr.later hj
  -- calls, writes and reads: old ones, and those that the section made
  · intro c hc
    rcases hcalls c hc with hold | hnew
    · exact (h.calls c hold).mono h.good hr.later.toExtends
    · exact hnew
  · intro p hp
    rcases hputs p hp with hold | hnew
    · exact (h.puts p hold).mono hr.later.toExtends
    · exact hnew.1
  · exact (hgets g hg).elim (h.gets g) (fun h => h)
  · rw [hnode, Function.update_of_ne hj]

/-- The common case: only the node changes. -/
theorem WorldRel.lift_node (h : WorldRel X a w) (hup : w.up id = true)
    (hr : Reached X id K a a' (w.node id) n') : Acted X id K a a' w (w.setNode id n') :=
  h.lift hup hr rfl rfl (fun _ => Or.inl) (fun _ => Or.inl) (fun _ => Or.inl)

/-- A world that differs in what the relation does not depend on. -/
theorem WorldRel.same (h : WorldRel X a w) (hnode : w'.node = w.node) (hup : w'.up = w.up)
    (hcalls : ∀ c ∈ w'.calls, c ∈ w.calls ∨ CallRel X a c)
    (hputs : ∀ p ∈ w'.puts, p ∈ w.puts ∨ PutRel X a p)
    (hgets : ∀ g ∈ w'.gets, g ∈ w.gets ∨ GetRel g) : WorldRel X a w' := by
  refine ⟨h.good, ?_, ?_, ?_, ?_⟩
  · intro j
    rw [revived_congr (congrFun hup j) (congrFun hnode j)]
    exact h.nodes j
  · intro c hc
    exact (hcalls c hc).elim (h.calls c) (fun h => h)
  · intro p hp
    exact (hputs p hp).elim (h.puts p) (fun h => h)
  · intro g hg
    exact (hgets g hg).elim (h.gets g) (fun h => h)

/-- The same, as a section that leaves its node alone. -/
theorem WorldRel.acted_same (h : WorldRel X a w) (hup : w.up id = true) (hnode : w'.node = w.node)
    (hup' : w'.up = w.up) (hcalls : ∀ c ∈ w'.calls, c ∈ w.calls ∨ CallRel X a c)
    (hputs : ∀ p ∈ w'.puts, p ∈ w.puts ∨ PutLogged X a p)
    (hgets : ∀ g ∈ w'.gets, g ∈ w.gets ∨ GetRel g) : Acted X id K a a w w' :=
  ⟨hup, by rw [hnode]; exact (h.node_rel hup).reach_self h.good,
    h.same hnode hup' hcalls (fun p hp => (hputs p hp).imp (fun h => h) And.left) hgets, hup',
    fun _ _ => by rw [hnode], hputs⟩

/-! ## The parts of the world a result or a call changes -/

theorem result_eq (w : World σ) (read : Nat) (b : Bool) :
    ∃ gets, w.result read b = { w with gets := gets } ∧
      ((∀ g ∈ w.gets, GetRel g) → ∀ g ∈ gets, GetRel g) := by
  unfold World.result
  -- the read has gone, or it has one more result
  split
  · exact ⟨w.gets, rfl, fun h => h⟩
  · next g hg =>
    refine ⟨_, rfl, fun h g' hg' => ?_⟩
    rcases List.mem_or_eq_of_mem_set hg' with hold | rfl
    · exact h g' hold
    · exact h g (List.mem_of_getElem? hg)

theorem WorldRel.result (h : WorldRel X a w) (read : Nat) (b : Bool) :
    WorldRel X a (w.result read b) := by
  obtain ⟨gets, heq, hgets⟩ := result_eq w read b
  rw [heq]
  exact h.same rfl rfl (fun _ => Or.inl) (fun _ => Or.inl) (fun g hg => Or.inr (hgets h.gets g hg))

theorem Acted.result (h : Acted X id K a a' w w') (read : Nat) (b : Bool) :
    Acted X id K a a' w (w'.result read b) := by
  have hrel := h.rel.result read b
  obtain ⟨gets, heq, _⟩ := result_eq w' read b
  rw [heq] at hrel ⊢
  exact ⟨h.up, h.reached, hrel, h.up_eq, h.others, h.puts⟩

theorem mem_addCall {c c' : Call} (h : c' ∈ (w.addCall c).calls) : c' ∈ w.calls ∨ c' = c := by
  rcases List.mem_append.mp h with hold | hnew
  · exact Or.inl hold
  · exact Or.inr (List.mem_singleton.mp hnew)

theorem mem_setCall {c c' : Call} (h : c' ∈ (w.setCall k c).calls) :
    c' ∈ w.calls ∨ c' = c :=
  List.mem_or_eq_of_mem_set h

theorem mem_setPut {p p' : PutOp} (h : p' ∈ (w.setPut k p).puts) :
    p' ∈ w.puts ∨ p' = p :=
  List.mem_or_eq_of_mem_set h

section NewCalls

variable {src dst : String} (hne : src ≠ dst)

include hne

theorem CallRel.vote {req : RequestVoteRequest} (h : VoteReq X a src dst req) :
    CallRel X a { src := src, dst := dst, rpc := .requestVote req none } :=
  ⟨hne, h, by intro r hr; cases hr⟩

theorem CallRel.append {req : AppendEntriesRequest} (h : AppendReq X a src req)
    (read : Option Nat) :
    CallRel X a { src := src, dst := dst, rpc := .appendEntries req none read } :=
  ⟨hne, h, by intro r hr; cases hr⟩

theorem CallRel.install {req : InstallSnapshotRequest} (h : InstallReq X a src req) :
    CallRel X a { src := src, dst := dst, rpc := .installSnapshot req none } :=
  ⟨hne, h, by intro r hr; cases hr⟩

end NewCalls

/-- A new call by a section of its sender. -/
theorem WorldRel.lift_call (h : WorldRel X a w) (hup : w.up id = true)
    (hr : Reached X id K a a' (w.node id) n') (hc : CallRel X a' c) :
    Acted X id K a a' w ((w.setNode id n').addCall c) := by
  refine h.lift hup hr rfl rfl ?_ (fun _ => Or.inl) (fun _ => Or.inl)
  intro c' hc'
  rcases mem_addCall hc' with hold | rfl
  · exact Or.inl hold
  · exact Or.inr hc

theorem WorldRel.acted_call (h : WorldRel X a w) (hup : w.up id = true)
    (hc : CallRel X a c) : Acted X id K a a w (w.addCall c) := by
  refine h.acted_same hup rfl rfl ?_ (fun _ => Or.inl) (fun _ => Or.inl)
  intro c' hc'
  rcases mem_addCall hc' with hold | rfl
  · exact Or.inl hold
  · exact Or.inr hc

/-! ## Goroutines -/

/-- **A goroutine runs up to its RPC.** -/
theorem WorldRel.runGoroutine (h : WorldRel X a w) (hup : w.up id = true) {g : Goroutine}
    (hg : GoroutineRel X a id g) : ∃ a', Acted X id K a a' w (w.runGoroutine id g) := by
  have hn := h.node_rel hup
  cases g with
  | replicateTo peer =>
    obtain ⟨hr, happ, hins⟩ := hn.replicateToHead h.good peer
    unfold World.runGoroutine
    dsimp only
    -- a section that sends nothing, and one that makes a call
    cases hcall : ((w.node id).replicateToHead peer).2 with
    | none => exact ⟨a, h.lift_node hup (hr.trans (hr.rel.replicateAgain h.good hg false))⟩
    | some call =>
      cases call with
      | append req => exact ⟨a, h.lift_call hup hr (CallRel.append hg.symm (happ req hcall) none)⟩
      | install req => exact ⟨a, h.lift_call hup hr (CallRel.install hg.symm (hins req hcall))⟩
  | replicateToDone peer => exact ⟨a, h.lift_node hup (hn.replicateToDone h.good peer)⟩
  | sendRequestVote peer req =>
    unfold World.runGoroutine
    dsimp only
    split
    · exact ⟨a, h.acted_same hup rfl rfl (fun _ => Or.inl) (fun _ => Or.inl) (fun _ => Or.inl)⟩
    · exact ⟨a, h.acted_call hup (CallRel.vote hg.1.symm hg.2)⟩

theorem WorldRel.go (h : WorldRel X a w) (hup : w.up id = true) {g : Goroutine}
    (hk : (w.node id).goroutines[k]? = some g) : ∃ a', Acted X id K a a' w
      ((w.setNode id { w.node id with goroutines := (w.node id).goroutines.eraseIdx k }
        ).runGoroutine id g) := by
  have hn := h.node_rel hup
  -- the goroutine has left the list
  have hr : Reached X id K a a (w.node id)
      { w.node id with goroutines := (w.node id).goroutines.eraseIdx k } :=
    hn.reach h.good (Later.refl id a) { hn.toLive with
      threads := fun g' hg' => hn.threads g' (List.mem_of_mem_eraseIdx hg') } rfl rfl
      (fun _ => le_refl _) kept_log
  have hacted := h.lift_node hup hr
  have hup' := hacted.up_eq ▸ hup
  obtain ⟨a', hrun⟩ := hacted.rel.runGoroutine (K := K) hup'
    (hn.threads g (List.mem_of_getElem? hk))
  exact ⟨a', hacted.trans hrun rfl⟩

/-! ## Requests and replies -/

/-- A section of a node that also updates a call. -/
theorem WorldRel.lift_setCall (h : WorldRel X a w) (hup : w.up id = true)
    (hr : Reached X id K a a' (w.node id) n') (hc : CallRel X a' c) :
    Acted X id K a a' w ((w.setNode id n').setCall k c) := by
  refine h.lift hup hr rfl rfl ?_ (fun _ => Or.inl) (fun _ => Or.inl)
  intro c' hc'
  rcases mem_setCall hc' with hold | rfl
  · exact Or.inl hold
  · exact Or.inr hc

/-- **A request reaches its receiver.** What the reply says is on record. -/
theorem WorldRel.deliverCall (h : WorldRel X a w) (hv : X.Valid)
    (hk : w.calls[k]? = some c) (hup : w.up c.dst = true)
    (hadm : X.strict → X.compacting → KeepsLogs w (.deliver k)) :
    ∃ a', Acted X c.dst (fun j => Undisturbed w c.dst j (.deliver k)) a a' w
      (w.deliverCall k c) := by
  have hn := h.node_rel hup
  obtain ⟨hne, hrpc⟩ := h.calls c (List.mem_of_getElem? hk)
  unfold World.deliverCall
  cases hc : c.rpc with
  | requestVote req resp =>
    rw [hc] at hrpc
    -- a reply is recorded with what it proves about the new history
    obtain ⟨a', hr, hvote⟩ := hn.handleRequestVote h.good hrpc.1
    refine ⟨a', h.lift_setCall hup hr ⟨hne, hrpc.1.mono hr.later.toExtends, ?_⟩⟩
    intro r hr'
    cases hr'
    exact hvote
  | appendEntries req resp read =>
    rw [hc] at hrpc
    -- what the request carries agrees with what the node holds
    have hK : ∀ j, Undisturbed w c.dst j (.deliver k) → AppendAgrees (w.node c.dst) req j := by
      intro j hj
      have := hj c hk rfl
      rwa [hc] at this
    obtain ⟨a', hr, hack⟩ := hn.handleAppendEntries h.good hv hrpc.1 hne hK
    refine ⟨a', h.lift_setCall hup hr ⟨hne, hrpc.1.mono h.good hr.later.toExtends, ?_⟩⟩
    intro r hr'
    cases hr'
    exact hack
  | installSnapshot req resp =>
    rw [hc] at hrpc
    -- the snapshot loses nothing of the log
    have hkeep : X.strict → InstallKeeps (w.node c.dst) req := fun hs =>
      hadm hs hrpc.1.1 c req resp hk hc
    have hK : ∀ j, Undisturbed w c.dst j (.deliver k) → InstallCovers (w.node c.dst) req j := by
      intro j hj
      have := hj c hk rfl
      rwa [hc] at this
    obtain ⟨a', hr, hack⟩ := hn.handleInstallSnapshot h.good hv hrpc.1 hne hkeep hK
    refine ⟨a', h.lift_setCall hup hr ⟨hne, hrpc.1.mono h.good hr.later.toExtends, ?_⟩⟩
    intro r hr'
    cases hr'
    exact hack

/-- A call whose caller no longer waits says what it said before. -/
theorem CallRel.settle {c c' : Call} (h : CallRel X a c) (hsrc : c'.src = c.src)
    (hdst : c'.dst = c.dst) (hrpc : c'.rpc = c.rpc) : CallRel X a c' := by
  unfold CallRel at h ⊢
  rw [hsrc, hdst, hrpc]
  exact h

theorem WorldRel.acted_settle (h : WorldRel X a w)
    (hk : w.calls[k]? = some c) (hup : w.up c.src = true) :
    Acted X c.src K a a w (w.setCall k { c with waiting := false }) := by
  refine h.acted_same hup rfl rfl (fun c' hc' => ?_) (fun _ => Or.inl) (fun _ => Or.inl)
  rcases mem_setCall hc' with hold | rfl
  · exact Or.inl hold
  · exact Or.inr ((h.calls c (List.mem_of_getElem? hk)).settle rfl rfl rfl)

/-- **A reply reaches the caller.** -/
theorem WorldRel.replyCall (h : WorldRel X a w) (hv : X.Valid)
    (hk : w.calls[k]? = some c) (hup : w.up c.src = true) (hstep : w.replyCall k c = some w') :
    ∃ a', Acted X c.src K a a' w w' := by
  obtain ⟨hne, hrpc⟩ := h.calls c (List.mem_of_getElem? hk)
  have hstart := h.acted_settle (K := K) hk hup
  have hmark := hstart.rel
  have hn : NodeRel X a c.src (w.node c.src) := hmark.node_rel hup
  unfold World.replyCall at hstep
  split at hstep
  -- a vote, entries, a read's heartbeat, a snapshot
  · next req resp hc =>
    rw [hc] at hrpc
    cases hstep
    obtain ⟨a', hr⟩ := hn.sendRequestVoteReply h.good hv hrpc.1 (hrpc.2 resp rfl)
    exact ⟨a', hstart.trans (hmark.lift_node hup hr) rfl⟩
  · next req resp hc =>
    rw [hc] at hrpc
    cases hstep
    obtain ⟨a', hr⟩ := hn.replicateToAppended h.good hv hne.symm hrpc.1 (hrpc.2 resp rfl)
    exact ⟨a', hstart.trans (hmark.lift_node hup hr) rfl⟩
  · next req resp read hc =>
    cases hstep
    obtain ⟨a', hr⟩ := hn.sendConfirmHeartbeatReply h.good req.term resp
    exact ⟨a', hstart.trans ((hmark.lift_node hup hr).result _ _) rfl⟩
  · next req resp hc =>
    rw [hc] at hrpc
    cases hstep
    obtain ⟨a', hr⟩ := hn.replicateToInstalled h.good hv hne.symm (hrpc.2 resp rfl)
    exact ⟨a', hstart.trans (hmark.lift_node hup hr) rfl⟩
  · cases hstep

/-- The caller gives up. -/
theorem WorldRel.giveUpCall (h : WorldRel X a w)
    (hk : w.calls[k]? = some c) (hup : w.up c.src = true) :
    Acted X c.src K a a w (w.giveUpCall k c) := by
  have hne := (h.calls c (List.mem_of_getElem? hk)).1
  have hstart := h.acted_settle (K := K) hk hup
  -- the loop ends with its call
  have hagain : Acted X c.src K a a w ((w.setCall k { c with waiting := false }).setNode c.src
      ((w.node c.src).replicateAgain c.dst false)) :=
    hstart.trans (hstart.rel.lift_node hup ((h.node_rel hup).replicateAgain h.good hne.symm false))
      rfl
  unfold World.giveUpCall
  dsimp only
  split
  · exact hstart
  · exact hstart.result _ _
  · exact hagain
  · exact hagain

/-! ## Client calls -/

theorem WorldRel.acted_setGet (h : WorldRel X a w) (hup : w.up id = true) (k : Nat)
    (hg : GetRel g) : Acted X id K a a w (w.setGet k g) := by
  refine h.acted_same hup rfl rfl (fun _ => Or.inl) (fun _ => Or.inl) (fun g' hg' => ?_)
  rcases List.mem_or_eq_of_mem_set hg' with hold | rfl
  · exact Or.inl hold
  · exact Or.inr hg

theorem Acted.setGet (h : Acted X id K a a' w w') (k : Nat) (hg : GetRel g) :
    Acted X id K a a' w (w'.setGet k g) := by
  refine ⟨h.up, h.reached, ?_, h.up_eq, h.others, h.puts⟩
  refine h.rel.same rfl rfl (fun _ => Or.inl) (fun _ => Or.inl) (fun g' hg' => ?_)
  rcases List.mem_or_eq_of_mem_set hg' with hold | rfl
  · exact Or.inl hold
  · exact Or.inr hg

/-- **A section of a `Get`.** It changes its node only by starting replication. -/
theorem WorldRel.runGet (h : WorldRel X a w) (hk : w.gets[k]? = some g)
    (hup : w.up g.node = true) (hstep : w.runGet k g = some w') : Acted X g.node K a a w w' := by
  have hn := h.node_rel hup
  have hg := h.gets g (List.mem_of_getElem? hk)
  -- the first phase may start replication, and nothing else
  have hpoll : Acted X g.node K a a w
      (w.setNode g.node (w.node g.node).waitCurrentTermPoll.1) := by
    refine h.lift_node hup ?_
    unfold RaftNode.waitCurrentTermPoll
    split
    · exact hn.reach_self h.good
    split
    · exact hn.reach_self h.good
    · exact hn.broadcast h.good
  cases getSection_of_runGet hstep with
  | polls => exact hpoll
  | polled => exact hpoll.setGet k hg
  | asks =>
    refine h.acted_setGet hup k (fun b hb => ?_)
    -- the peers asked do not include the node itself
    obtain ⟨p, hp, rfl⟩ := List.mem_map.mp hb
    rw [List.mem_filter, decide_eq_true_eq] at hp
    exact hp.2.trans_eq hn.id_eq
  | waits => exact h.acted_same hup rfl rfl (fun _ => Or.inl) (fun _ => Or.inl) (fun _ => Or.inl)
  | _ => exact h.acted_setGet hup k hg

/-- **A heartbeat of a `Get`**, up to its RPC. -/
theorem WorldRel.runBeat (h : WorldRel X a w) {k i : Nat} (hk : w.gets[k]? = some g)
    (hup : w.up g.node = true) (hstep : w.runBeat k g i = some w') :
    Acted X g.node K a a w w' := by
  obtain ⟨b, hb, rfl⟩ := Option.map_eq_some_iff.mp hstep
  have hg := h.gets g (List.mem_of_getElem? hk)
  have hstart : Acted X g.node K a a w (w.setGet k { g with beats := g.beats.eraseIdx i }) :=
    h.acted_setGet hup k (fun b' hb' => hg b' (List.mem_of_mem_eraseIdx hb'))
  dsimp only
  split
  · exact hstart.result k false
  -- the heartbeat is sent only while the node still leads in that term
  · next req hreq =>
    unfold RaftNode.sendConfirmHeartbeatHead at hreq
    split at hreq
    · cases hreq
    next hstill =>
    push Not at hstill
    cases hreq
    have hne := (hg b (List.mem_of_getElem? hb)).symm
    have happ := (h.node_rel hup).toLive.confirmReq h.good hstill.1
    exact hstart.trans (hstart.rel.acted_call hup (CallRel.append hne happ _)) rfl

theorem WorldRel.acted_setPut (h : WorldRel X a w) (hup : w.up id = true) (k : Nat)
    (hp : PutLogged X a p) : Acted X id K a a w (w.setPut k p) := by
  refine h.acted_same hup rfl rfl (fun _ => Or.inl) (fun p' hp' => ?_) (fun _ => Or.inl)
  rcases mem_setPut hp' with hold | rfl
  · exact Or.inl hold
  · exact Or.inr hp

theorem Acted.setPut (h : Acted X id K a a' w w') (k : Nat) (hp : PutLogged X a' p) :
    Acted X id K a a' w (w'.setPut k p) := by
  have hput : ∀ p' ∈ (w'.setPut k p).puts, p' ∈ w'.puts ∨ PutLogged X a' p' := by
    intro p' hp'
    rcases mem_setPut hp' with hold | rfl
    · exact Or.inl hold
    · exact Or.inr hp
  refine ⟨h.up, h.reached, h.rel.same rfl rfl (fun _ => Or.inl)
    (fun p' hp' => (hput p' hp').imp (fun h => h) And.left) (fun _ => Or.inl), h.up_eq, h.others,
    fun p' hp' => ?_⟩
  exact (hput p' hp').elim (h.puts p') Or.inr

/-- A request that moves to a phase in which it does not wait. -/
theorem PutRel.goto (h : PutRel X a p) {ph : PutPhase}
    (hph : ∀ i, ph ≠ .waitApplied i) : PutLogged X a { p with phase := ph } :=
  ⟨⟨h.1, fun i hi => absurd hi (hph i)⟩, fun i _ hi => absurd hi (hph i)⟩

theorem PutLogged.fresh (node : String) (key value : Bytes) (origin : Option Nat) :
    PutLogged X a { node := node, key := key, value := value, origin := origin } := by
  refine ⟨⟨?_, ?_⟩, ?_⟩
  · intro i t hit
    cases hit
  · intro i hi
    cases hi
  · intro i t hi
    cases hi

/-- **A section of a `PUT` request.** -/
theorem WorldRel.runPut (h : WorldRel X a w) (hv : X.Valid)
    (hk : w.puts[k]? = some p) (hup : w.up p.node = true)
    (hstep : w.runPut X.setup k p = some w') : ∃ a', Acted X p.node K a a' w w' := by
  have hp := h.puts p (List.mem_of_getElem? hk)
  -- most phases only move the request on
  have hgoto : ∀ ph : PutPhase, (∀ i, ph ≠ .waitApplied i) →
      ∃ a', Acted X p.node K a a' w (w.setPut k { p with phase := ph }) :=
    fun ph hph => ⟨a, h.acted_setPut hup k (hp.goto hph)⟩
  obtain ⟨a', hr, hok⟩ := (h.node_rel hup).propose (K := K) h.good hv (X.setup.encode p.key p.value)
  have hact := h.lift_node (K := K) hup hr
  have hp' := hp.mono hr.later.toExtends
  cases putSection_of_runPut hstep with
  | begins => exact hgoto _ (by simp)
  -- the entry that was proposed is in the history
  | @accepted i t _ hres =>
    obtain ⟨hpos, hreign, hlog⟩ := hok i t hres
    refine ⟨a', hact.setPut _ ⟨⟨?_, ?_⟩, ?_⟩⟩
    · intro i' t' hit
      cases hit
      exact ⟨hpos, hreign⟩
    · intro i' hi'
      cases hi'
      exact ⟨t, rfl⟩
    · intro i' t' hi' hit
      cases hi'
      cases hit
      exact hlog
  | refused _ hph =>
    refine ⟨a', hact.setPut _ (hp'.goto ?_)⟩
    rcases hph with rfl | ⟨e, rfl⟩
    · intro i hi
      cases hi
    · intro i hi
      cases hi
  | waits =>
    exact ⟨a, h.acted_same hup rfl rfl (fun _ => Or.inl) (fun _ => Or.inl) (fun _ => Or.inl)⟩
  | applied => exact hgoto _ (by simp)
  | asks _ hph =>
    refine hgoto _ ?_
    rcases hph with rfl | ⟨id, rfl⟩ | ⟨id, addr, rfl⟩
    all_goals
      intro i hi
      cases hi
  | fails => exact hgoto _ (by simp)
  | unrouted => exact hgoto _ (by simp)
  | forwards =>
    -- the forwarded request starts from nothing
    refine ⟨a, h.acted_same hup rfl rfl (fun _ => Or.inl) (fun p' hp' => ?_) (fun _ => Or.inl)⟩
    rcases List.mem_append.mp hp' with hold | hnew
    · rcases mem_setPut hold with hold | rfl
      · exact Or.inl hold
      · exact Or.inr (hp.goto (by simp))
    · rw [List.mem_singleton.mp hnew]
      exact Or.inr (PutLogged.fresh _ _ _ _)

end Refine
