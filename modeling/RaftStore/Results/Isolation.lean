import RaftStore.Cluster.Faults
import RaftStore.Cluster.Requests
import RaftStore.Node.Capped
import RaftStore.Results.Fixed
import RaftStore.Refine.Reading

/-!
# An isolated node

What a node can still do once `Faults.Isolate` has cut it off, in a cluster of at least two. It
stays up, may still take itself for the leader, and clients may still reach it. The calls that had
passed before the cut and their replies still arrive.

* No `Get` that begins at it after the cut ever returns a value (`isolated_reads_nothing`): its
  heartbeats are refused, so nobody confirms that it leads.
* It commits and applies nothing above what had been logged or sent before the cut, and acknowledges
  no `PUT` that it accepts from then on (`isolated_commits_nothing`). Entries that others had sent
  to it before the cut must have arrived or be lost: they may carry a later commit index.
-/

namespace Cluster

open Raft Refine Node

variable {σ : Type} {S : Setup σ} {members : AddrMap} {c c' : Chaos σ} {x : ChaosAction}
  {xs xs' : List ChaosAction} {id : String} {N G : Nat} {L : Int} {w : World σ}

/-! ## The cut -/

/-- The cut is not undone. The cluster's `Restart` heals the node that it starts. -/
def Apart (id : String) : ChaosAction → Prop
  | .act (.restart j) => j ≠ id
  | .fault (.heal j) => j ≠ id
  | .fault .healAll => False
  | _ => True

/-- Nobody changes the membership, and the cut lasts. -/
def Lasting (id : String) (c : Chaos σ) (x : ChaosAction) : Prop :=
  Unaltered NoChange c x ∧ Apart id x

/-- No node of a larger cluster is a majority by itself. -/
theorem Reached.crowded (h : Reached S w) (hS : Fixed S members) (hmany : 2 ≤ members.keys.length)
    (hup : w.up id = true) : Crowded (w.node id) := by
  obtain ⟨a, hw⟩ := h.rel hS
  have hids := (hw.node_rel hup).toLive.peerIDs_members hw.good (fun hj => hj)
  refine ⟨?_, ?_⟩
  · rw [hids]
    exact members.keys_nodup
  · unfold RaftNode.majority
    rw [hids]
    show 1 < members.keys.length / 2 + 1
    omega

/-- **What is true of the calls during the cut**, which came when there were `N` calls: none of the
later calls of `id` has passed, so none of them has a reply, and nothing new has passed to `id`. -/
structure CutOff (S : Setup σ) (id : String) (N : Nat) (c : Chaos σ) : Prop where
  reached : Reached S c.world
  isolated : c.faults.isolated id = true
  before : N ≤ c.world.calls.length
  known : c.Known
  unsent : ∀ k ∈ c.passed, ∀ call, c.world.calls[k]? = some call → call.src = id → k < N
  silent : ∀ (k : Nat) call, N ≤ k → c.world.calls[k]? = some call → call.src = id →
    call.rpc.answered = false

theorem CutOff.step (h : CutOff S id N c) (hok : Lasting id c x)
    (hstep : chaosStep S c x = some c') : CutOff S id N c' := by
  have hknown := h.known.step hstep
  cases chaosStepped_of_step hstep with
  | @act a w' hpass hw =>
    have hcalls := calls_step hw
    -- calls from before the cut, and those after it
    refine ⟨h.reached.step hok.1 hw, h.isolated, h.before.trans (length_calls_step hw), hknown, ?_,
      ?_⟩
    · intro k hk call' hcall' hsrc
      rcases hcalls.cases hcall' with ⟨call, hcall, hkept⟩ | ⟨hge, _⟩
      · exact h.unsent k hk call hcall (hkept.src_eq ▸ hsrc)
      · exact absurd (h.known k hk) (not_lt.mpr hge)
    · intro k call' hN hcall' hsrc
      rcases hcalls.cases hcall' with ⟨call, hcall, hkept⟩ | ⟨_, hnew⟩
      · have hsrc' : call.src = id := hkept.src_eq ▸ hsrc
        by_contra hans
        rw [Bool.not_eq_false] at hans
        rcases hkept.answered hans with hold | rfl
        · rw [h.silent k call hN hcall hsrc'] at hold
          cases hold
        · -- a reply would mean that the call has passed
          exact absurd (h.unsent k (hpass k rfl) call hcall hsrc') (not_lt.mpr hN)
      · exact hnew.answered
  | @passes k call hk hallow =>
    refine ⟨h.reached, h.isolated, h.before, hknown, ?_, h.silent⟩
    intro j hj call' hcall' hsrc
    rcases List.mem_cons.mp hj with rfl | hj
    · rw [hk, Option.some.injEq] at hcall'
      subst hcall'
      -- the controller lets nothing of it pass
      rw [Faults.allow_eq_false h.isolated (Or.inl hsrc)] at hallow
      cases hallow
    · exact h.unsent j hj call' hcall' hsrc
  | refused => exact ⟨h.reached, h.isolated, h.before, hknown, h.unsent, h.silent⟩
  | fault op =>
    refine ⟨h.reached, ?_, h.before, hknown, h.unsent, h.silent⟩
    cases op with
    -- isolating again changes nothing, healing is excluded
    | isolate j =>
      show Function.update c.faults.isolated j true id = true
      by_cases hj : id = j
      · rw [hj, Function.update_self]
      · rw [Function.update_of_ne hj, h.isolated]
    | heal j =>
      show Function.update c.faults.isolated j false id = true
      rw [Function.update_of_ne (Ne.symm hok.2), h.isolated]
    | disconnect a b => exact h.isolated
    | reconnect a b => exact h.isolated
    | healAll => exact hok.2.elim

/-- The cut begins. -/
theorem cutOff_start (hrun : ChaosRun S (Unaltered NoChange) (Chaos.init S) xs c)
    (hiso : c.faults.isolated id = true) : CutOff S id c.world.calls.length c := by
  have hknown : c.Known :=
    hrun.invariant (fun _ _ _ h _ hstep => h.step hstep) (Chaos.known_init S)
  refine ⟨Chaos.run_world hrun, hiso, le_rfl, hknown, fun k hk _ _ _ => hknown k hk, ?_⟩
  intro k call hN hcall
  exact absurd (List.getElem?_eq_some_iff.mp hcall).1 (not_lt.mpr hN)

/-! ## Reads -/

/-- The read waits for confirmation, or it has failed. -/
inductive Unconfirmed (g : GetOp σ) : Prop
  | begins (hphase : g.phase = .waitCurrentTerm ∨ g.phase = .capture ∨
        ∃ i t, g.phase = .confirm i t)
      (hres : ∀ b ∈ g.results, b = false)
  | collects {i : Int} {pending majority : Nat} (hphase : g.phase = .collect i 1 pending majority)
      (hmaj : 1 < majority) (hres : ∀ b ∈ g.results, b = false)
  | ended (hphase : (∃ e, g.phase = .failed e) ∨ g.phase = .lost)

/-- The phases that such a read can be in. -/
theorem Unconfirmed.phase {g : GetOp σ} (h : Unconfirmed g) : (∀ i, g.phase ≠ .waitApplied i) ∧
    g.phase ≠ .checkState ∧ g.phase ≠ .read ∧ ∀ store, g.phase ≠ .done store := by
  cases h with
  | begins hphase => rcases hphase with hphase | hphase | ⟨_, _, hphase⟩ <;> simp [hphase]
  | collects hphase => simp [hphase]
  | ended hphase => rcases hphase with ⟨_, hphase⟩ | hphase <;> simp [hphase]

/-- As long as it runs, nobody has confirmed anything. -/
theorem Unconfirmed.results {g : GetOp σ} (h : Unconfirmed g) (hrun : g.phase.running = true) :
    ∀ b ∈ g.results, b = false := by
  cases h with
  | begins _ hres => exact hres
  | collects _ _ hres => exact hres
  | ended hphase =>
    rcases hphase with ⟨_, hphase⟩ | hphase <;> simp [hphase, GetPhase.running] at hrun

theorem Unconfirmed.collect {g : GetOp σ} (h : Unconfirmed g) {i : Int}
    {acks pending majority : Nat}
    (hphase : g.phase = .collect i acks pending majority) : acks = 1 ∧ 1 < majority := by
  cases h with
  -- the other phases do not collect
  | begins hphase' => rcases hphase' with h' | h' | ⟨_, _, h'⟩ <;> simp [hphase] at h'
  | collects hphase' hmaj =>
    rw [hphase] at hphase'
    cases hphase'
    exact ⟨rfl, hmaj⟩
  | ended hphase' => rcases hphase' with ⟨_, h'⟩ | h' <;> simp [hphase] at h'

/-- The phase stays, and only refusals come in. -/
theorem Unconfirmed.same {g g' : GetOp σ} (h : Unconfirmed g) (hphase : g'.phase = g.phase)
    (hres : (∀ b ∈ g.results, b = false) → ∀ b ∈ g'.results, b = false) : Unconfirmed g' := by
  cases h with
  | begins h' hr => exact .begins (by rw [hphase]; exact h') (hres hr)
  | collects h' hmaj hr => exact .collects (hphase.trans h') hmaj (hres hr)
  | ended h' => exact .ended (by rw [hphase]; exact h')

/-- **One move of a read** at a node that is no majority and gets no replies. -/
theorem Unconfirmed.move {g g' : GetOp σ} {act : Action} {w' : World σ} {r : Nat}
    (h : Unconfirmed g)
    (hmove : ReadStep act w w' r g g') (hmaj : w.up g.node = true → 1 < (w.node g.node).majority)
    (hno : ∀ (j : Nat) call, w.calls[j]? = some call → call.rpc.read = some r →
      call.rpc.replyTerm = none) : Unconfirmed g' := by
  obtain ⟨happlied, hcheck, hread, _⟩ := h.phase
  cases hmove with
  | stays => exact h
  | fails e => exact .ended (Or.inl ⟨e, rfl⟩)
  | crashes =>
    cases hrun : g.phase.running with
    | true => exact .ended (Or.inr (by simp))
    | false => exact h.same (by simp) (fun hres => hres)
  | ready hphase =>
    exact .begins (Or.inr (Or.inl rfl)) (h.results (by rw [hphase]; rfl))
  | captures _ hphase =>
    exact .begins (Or.inr (Or.inr ⟨_, _, rfl⟩)) (h.results (by rw [hphase]; rfl))
  -- alone it would be a majority, but the node has more peers
  | alone _ hup hle => exact absurd hle (not_le.mpr (hmaj hup))
  | asks hphase hup => exact .collects rfl (hmaj hup) (h.results (by rw [hphase]; rfl))
  | confirmed hphase hres hle =>
    -- the only acknowledgement is its own
    obtain ⟨rfl, hlt⟩ := h.collect hphase
    have hall := h.results (by rw [hphase]; rfl)
    rw [hres] at hall
    rw [hall _ List.mem_cons_self] at hle
    exact absurd hle (not_le.mpr hlt)
  | collects hphase hres =>
    obtain ⟨rfl, hlt⟩ := h.collect hphase
    have hall := h.results (by rw [hphase]; rfl)
    rw [hres] at hall
    rw [hall _ List.mem_cons_self]
    exact .collects rfl hlt (fun b hb => hall b (List.mem_cons_of_mem _ hb))
  | disproved => exact .ended (Or.inl ⟨_, rfl⟩)
  | applied hphase => exact absurd hphase (happlied _)
  | checks hphase => exact absurd hphase hcheck
  | reads hphase => exact absurd hphase hread
  | unsent =>
    refine h.same rfl (fun hres b hb => ?_)
    rcases List.mem_append.mp hb with hb | hb
    · exact hres b hb
    · exact List.mem_singleton.mp hb
  | sent => exact h.same rfl (fun hres => hres)
  | answered ok hj hread' _ _ hok =>
    refine h.same rfl (fun hres b hb => ?_)
    rcases List.mem_append.mp hb with hb | hb
    · exact hres b hb
    · rw [List.mem_singleton.mp hb]
      by_contra htrue
      -- a positive result needs a reply
      obtain ⟨t, ht, _⟩ := hok (by simpa using htrue)
      rw [hno _ _ hj hread'] at ht
      cases ht

/-- **What is true of the reads during the cut**, which came when there were `G` reads. -/
structure ReadsCut (id : String) (N G : Nat) (w : World σ) : Prop where
  known : ReadsKnown w
  beats : ∀ (k : Nat) call r, w.calls[k]? = some call → call.rpc.read = some r → G ≤ r →
    N ≤ k ∧ ∃ g, w.gets[r]? = some g ∧ call.src = g.node
  reads : ∀ (r : Nat) g, G ≤ r → w.gets[r]? = some g → g.node = id → Unconfirmed g

theorem read_request (rpc : Rpc) : rpc.request.read = rpc.read := by
  cases rpc <;> rfl

theorem replyTerm_of_silent {rpc : Rpc} (h : rpc.answered = false) : rpc.replyTerm = none := by
  cases rpc with
  | requestVote req resp => rfl
  | appendEntries req resp read =>
    cases resp with
    | none => rfl
    | some r => cases h
  | installSnapshot req resp => rfl

theorem node_of_readStep {act : Action} {w' : World σ} {r : Nat} {g g' : GetOp σ}
    (h : ReadStep act w w' r g g') : g'.node = g.node := by
  cases h <;> rfl

theorem ReadsCut.step (h : ReadsCut id N G c.world) (hcut : CutOff S id N c) (hS : Fixed S members)
    (hmany : 2 ≤ members.keys.length) (hstep : chaosStep S c x = some c') :
    ReadsCut id N G c'.world := by
  cases chaosStepped_of_step hstep with
  | @act a w' hpass hw =>
    have hcalls := calls_step hw
    have hgets := gets_step hw
    refine ⟨h.known.step hgets, ?_, ?_⟩
    · intro k call' r hcall' hread hG
      -- a heartbeat keeps its sender, and so does the read that it is for
      have hsame : ∀ g, c.world.gets[r]? = some g → ∃ g', w'.gets[r]? = some g' ∧
          g'.node = g.node := by
        intro g hg
        obtain ⟨g', hg', hmove⟩ := hgets.old hg
        exact ⟨g', hg', node_of_readStep hmove⟩
      rcases hcalls.cases hcall' with ⟨call, hcall, hkept⟩ | ⟨hge, hnew⟩
      · have hread' : call.rpc.read = some r := by
          rw [← read_request, ← hkept.request_eq, read_request]
          exact hread
        obtain ⟨hN, g, hg, hsrc⟩ := h.beats k call r hcall hread' hG
        obtain ⟨g', hg', hnode⟩ := hsame g hg
        exact ⟨hN, g', hg', by rw [hkept.src_eq, hsrc, hnode]⟩
      · obtain ⟨g, hg, hsrc⟩ := hnew.read r hread
        obtain ⟨g', hg', hnode⟩ := hsame g hg
        exact ⟨hcut.before.trans hge, g', hg', by rw [hsrc, hnode]⟩
    · intro r g' hG hg' hid
      rcases Nat.lt_or_ge r c.world.gets.length with hlt | hge
      · obtain ⟨y, hy, hmove⟩ := hgets.old (List.getElem?_eq_getElem hlt)
        rw [hg', Option.some.injEq] at hy
        subst hy
        have hnode : c.world.gets[r].node = id := by rw [← node_of_readStep hmove, hid]
        refine (h.reads r _ hG (List.getElem?_eq_getElem hlt) hnode).move hmove (fun hup => ?_) ?_
        -- its majority is more than itself
        · exact (hcut.reached.crowded hS hmany hup).majority
        · intro j call hcall hread
          -- the heartbeats of the read were sent after the cut
          obtain ⟨hN, g, hg, hsrc⟩ := h.beats j call r hcall hread hG
          rw [List.getElem?_eq_getElem hlt, Option.some.injEq] at hg
          refine replyTerm_of_silent (hcut.silent j call hN hcall ?_)
          rw [hsrc, ← hg, hnode]
      · obtain ⟨_, hphase, _, hres, _⟩ := hgets.new hg' hge
        refine .begins (Or.inl hphase) ?_
        rw [hres]
        intro b hb
        cases hb
  | passes => exact h
  | refused => exact h
  | fault => exact h

/-- **Reads at an isolated node.** A `Get` that begins at a node that has been cut off never returns
a value. -/
theorem isolated_reads_nothing (hS : Fixed S members) (hmany : 2 ≤ members.keys.length)
    (hbefore : ChaosRun S (Unaltered NoChange) (Chaos.init S) xs c)
    (hiso : c.faults.isolated id = true) (hcut : ChaosRun S (Lasting id) c xs' c') {r : Nat}
    {g : GetOp σ} (hr : c.world.gets.length ≤ r) (hg : c'.world.gets[r]? = some g)
    (hid : g.node = id) (store : σ) : g.phase ≠ .done store := by
  -- no read before the cut has heartbeats of later ones
  have hknown : ReadsKnown c.world := by
    obtain ⟨acts, hrun⟩ := Chaos.run_world hbefore
    have hinit : ReadsKnown (World.init S) := by
      intro call hcall
      cases hcall
    exact hrun.invariant (fun _ _ _ h _ hstep => h.step (gets_step hstep)) hinit
  have hinit : ReadsCut id c.world.calls.length c.world.gets.length c.world := by
    refine ⟨hknown, ?_, ?_⟩
    · intro k call r' hcall hread hle
      exact absurd (hknown call (List.mem_of_getElem? hcall) r' hread) (not_lt.mpr hle)
    · intro r' g' hle hg'
      exact absurd (List.getElem?_eq_some_iff.mp hg').1 (not_lt.mpr hle)
  have hpres : ∀ v y v', CutOff S id c.world.calls.length v ∧
      ReadsCut id c.world.calls.length c.world.gets.length v.world → Lasting id v y →
      chaosStep S v y = some v' → CutOff S id c.world.calls.length v' ∧
        ReadsCut id c.world.calls.length c.world.gets.length v'.world :=
    fun v y v' hv hok hstep => ⟨hv.1.step hok hstep, hv.2.step hv.1 hS hmany hstep⟩
  have hinv := hcut.invariant hpres ⟨cutOff_start hbefore hiso, hinit⟩
  exact (hinv.2.reads r g hr hg hid).phase.2.2.2 store

/-! `n1` has been elected and has committed its first entry when it is cut off. Then a write and a
read come in. -/

def electedThenCut : List ChaosAction :=
  [.act (.tick "n1" true), .act (.go "n1" 0), .send 0, .act (.deliver 0), .act (.reply 0),
    .act (.go "n1" 1), .send 1, .act (.deliver 1), .act (.reply 1), .fault (.isolate "n1")]

def writeAndReadAlone : List ChaosAction :=
  [.act (.startPut "n1" [0x6b] [0x76]), .act (.stepPut 0), .act (.stepPut 0), .act (.startGet "n1"),
    .act (.stepGet 0), .act (.stepGet 0), .act (.stepGet 0), .act (.beat 0 0), .send 2,
    .act (.giveUp 2), .act (.stepGet 0)]

def sampleCut : Chaos Unit := (Chaos.init sample).after sample electedThenCut

def sampleAlone : Chaos Unit := sampleCut.after sample writeAndReadAlone

theorem electedThenCut_run :
    ChaosRun sample (Unaltered NoChange) (Chaos.init sample) electedThenCut sampleCut :=
  Chaos.run_after (by simp [electedThenCut, Unaltered, NoChange]) (by decide +kernel)

theorem writeAndReadAlone_run :
    ChaosRun sample (Lasting "n1") sampleCut writeAndReadAlone sampleAlone :=
  Chaos.run_after (by simp [writeAndReadAlone, Lasting, Unaltered, NoChange, Apart])
    (by decide +kernel)

theorem isolated_reads_nothing_sample :
    ((sampleCut.world.node "n1").state = .leader ∧ sampleAlone.refused = [2]) ∧
      ∃ g, sampleAlone.world.gets[0]? = some g ∧ g.phase ≠ .done () := by
  have hnode : sampleAlone.world.gets[0]?.map (fun g => g.node) = some "n1" := by decide +kernel
  obtain ⟨g, hg, hid⟩ := Option.map_eq_some_iff.mp hnode
  exact ⟨by decide +kernel, g, hg,
    isolated_reads_nothing sample_fixed (by decide) electedThenCut_run
    (by decide +kernel) writeAndReadAlone_run (by decide +kernel) hg hid ()⟩

/-! ## Writes -/

/-- The last index that a request is about. -/
def Rpc.upTo : Rpc → Int
  | .requestVote _ _ => 0
  | .appendEntries req _ _ => req.prevLogIndex + req.entries.length
  | .installSnapshot req _ => req.lastIncludedIndex

/-- The request carries entries or a snapshot. -/
def Rpc.brings : Rpc → Bool
  | .requestVote _ _ => false
  | _ => true

theorem upTo_request (rpc : Rpc) : rpc.request.upTo = rpc.upTo := by
  cases rpc <;> rfl

theorem brings_request (rpc : Rpc) : rpc.request.brings = rpc.brings := by
  cases rpc <;> rfl

/-- Nothing above `L` is known, committed or applied at the node, none of its `N` first calls is
about more, and nothing that has passed to it is still on its way. -/
structure Severed (id : String) (L : Int) (N : Nat) (c : Chaos σ) : Prop where
  node : c.world.up id = true → Capped L (c.world.node id)
  outgoing : ∀ (k : Nat) call, k < N → c.world.calls[k]? = some call → call.src = id →
    call.rpc.upTo ≤ L
  incoming : ∀ k ∈ c.passed, ∀ call, c.world.calls[k]? = some call → call.dst = id →
    call.rpc.brings = true → call.pending = false

/-- What reaches the node confirms nothing above `L`. -/
theorem Severed.noNews (h : Severed id L N c) (hcut : CutOff S id N c) {a : Action}
    (hpass : ∀ k, a.delivers = some k → k ∈ c.passed) (hok : NoChange c.world a) {ev : Event}
    (hev : Hears c.world a id ev) : NoNews L ev := by
  -- a reply belongs to a call from before the cut
  have hreply : ∀ (k : Nat) call, c.world.calls[k]? = some call → call.src = id →
      call.rpc.answered = true → call.rpc.upTo ≤ L := by
    intro k call hcall hsrc hans
    refine h.outgoing k call ?_ hcall hsrc
    by_contra hN
    rw [hcut.silent k call (not_lt.mp hN) hcall hsrc] at hans
    cases hans
  cases ev with
  | appendEntries req =>
    obtain ⟨k, call, rfl, hcall, hpend, hdst, resp, read, hrpc⟩ := hev
    -- no request has passed to it since
    rw [h.incoming k (hpass k rfl) call hcall hdst (by rw [hrpc]; rfl)] at hpend
    cases hpend
  | installSnapshot req =>
    obtain ⟨k, call, rfl, hcall, hpend, hdst, resp, hrpc⟩ := hev
    rw [h.incoming k (hpass k rfl) call hcall hdst (by rw [hrpc]; rfl)] at hpend
    cases hpend
  | appendReply peer req resp =>
    obtain ⟨k, call, _, hcall, hsrc, _, hrpc⟩ := hev
    have hle := hreply k call hcall hsrc (by rw [hrpc]; rfl)
    rw [hrpc] at hle
    exact hle
  | installReply peer req resp =>
    obtain ⟨k, call, _, hcall, hsrc, _, hrpc⟩ := hev
    have hle := hreply k call hcall hsrc (by rw [hrpc]; rfl)
    rw [hrpc] at hle
    exact hle
  | addServer target addr http =>
    cases hev
    exact hok.elim
  | removeServer target =>
    cases hev
    exact hok.elim
  | _ => trivial

theorem Severed.step (h : Severed id L N c) (hcut : CutOff S id N c) (hS : Fixed S members)
    (hmany : 2 ≤ members.keys.length) (hok : Lasting id c x) (hstep : chaosStep S c x = some c') :
    Severed id L N c' := by
  cases chaosStepped_of_step hstep with
  | @act a w' hpass hw =>
    have hcalls := calls_step hw
    refine ⟨fun hup => ?_, ?_, ?_⟩
    -- it was not started anew, so it has handled one event
    · have hact : a ≠ .restart id := by
        rintro rfl
        exact hok.2 rfl
      obtain ⟨hup₀, gs, stopped, ev, _, hev, heq⟩ := step_heard hw hup hact
      have hn := h.node hup₀
      have hcrowd := hcut.reached.crowded hS hmany hup₀
      have hn' : Capped L { c.world.node id with goroutines := gs, stopped := stopped } :=
        { hn with }
      show Capped L (w'.node id)
      rw [heq]
      exact hn'.handle (hcrowd.congr rfl) (h.noNews hcut hpass hok.1 hev)
    · intro k call' hN hcall' hsrc
      rcases hcalls.cases hcall' with ⟨call, hcall, hkept⟩ | ⟨hge, _⟩
      · rw [← upTo_request, hkept.request_eq, upTo_request]
        exact h.outgoing k call hN hcall (hkept.src_eq ▸ hsrc)
      -- the calls of this step come after the cut
      · have := hcut.before
        omega
    · intro k hk call' hcall' hdst hbrings
      rcases hcalls.cases hcall' with ⟨call, hcall, hkept⟩ | ⟨hge, _⟩
      · rw [← brings_request, hkept.request_eq, brings_request] at hbrings
        by_contra hpend
        rw [Bool.not_eq_false] at hpend
        have hold := hkept.pending hpend
        rw [h.incoming k hk call hcall (hkept.dst_eq ▸ hdst) hbrings] at hold
        cases hold
      · exact absurd (hcut.known k hk) (not_lt.mpr hge)
  | @passes k call hk hallow =>
    refine ⟨h.node, h.outgoing, ?_⟩
    intro j hj call' hcall' hdst
    rcases List.mem_cons.mp hj with rfl | hj
    · rw [hk, Option.some.injEq] at hcall'
      subst hcall'
      rw [Faults.allow_eq_false hcut.isolated (Or.inr hdst)] at hallow
      cases hallow
    · exact h.incoming j hj call' hcall' hdst
  | refused => exact ⟨h.node, h.outgoing, h.incoming⟩
  | fault => exact ⟨h.node, h.outgoing, h.incoming⟩

/-- Whatever the node has acknowledged since `w₀` was logged up to `L`. -/
def Acknowledges (id : String) (L : Int) (w₀ w : World σ) : Prop :=
  ∀ (k : Nat) p, w.puts[k]? = some p → p.node = id → p.phase = .ok →
    w₀.puts[k]? = some p ∨ ∃ i t, p.proposed = some (i, t) ∧ i ≤ L

theorem Acknowledges.step {w₀ w' : World σ} {act : Action} (h : Acknowledges id L w₀ w)
    (hreach : Reached S w) (hS : Fixed S members)
    (happlied : w.up id = true → (w.node id).lastApplied ≤ L)
    (hstep : Cluster.step S w act = some w') :
    Acknowledges id L w₀ w' := by
  intro k p' hk hid hok
  rcases (puts_step hstep).cases hk with ⟨p, hp, hmove⟩ | ⟨_, hnew⟩
  · cases hmove with
    | stays => exact h k _ hp hid hok
    | succeeds hphase hup hle =>
      obtain ⟨a, hrel⟩ := hreach.rel hS
      obtain ⟨t, hprop⟩ := (hrel.puts p (List.mem_of_getElem? hp)).2 _ hphase
      have hp' : p.node = id := hid
      rw [hp'] at hup hle
      exact Or.inr ⟨_, t, hprop, hle.trans (happlied hup)⟩
    | asks _ hph =>
      rcases hph with rfl | ⟨_, rfl⟩ | ⟨_, _, rfl⟩ <;> cases hok
    | ends _ hph =>
      rcases hph with rfl | ⟨_, rfl⟩ <;> cases hok
    | _ => cases hok
  · cases hnew <;> cases hok

/-- **Writes at an isolated node.** As long as the node is cut off it commits and applies nothing
above what had been logged and sent, and acknowledges no write with a later index. -/
theorem isolated_commits_nothing (hS : Fixed S members) (hmany : 2 ≤ members.keys.length)
    (hbefore : ChaosRun S (Unaltered NoChange) (Chaos.init S) xs c)
    (hiso : c.faults.isolated id = true) (hsev : Severed id L c.world.calls.length c)
    (hcut : ChaosRun S (Lasting id) c xs' c') :
    (c'.world.up id = true →
      (c'.world.node id).commitIndex ≤ L ∧ (c'.world.node id).lastApplied ≤ L) ∧
    Acknowledges id L c.world c'.world := by
  have hpres : ∀ v y v', (CutOff S id c.world.calls.length v ∧ Severed id L c.world.calls.length v ∧
      Acknowledges id L c.world v.world) → Lasting id v y → chaosStep S v y = some v' →
      CutOff S id c.world.calls.length v' ∧ Severed id L c.world.calls.length v' ∧
        Acknowledges id L c.world v'.world := by
    rintro v y v' ⟨hv, hs, hack⟩ hok hstep
    refine ⟨hv.step hok hstep, hs.step hv hS hmany hok hstep, ?_⟩
    cases chaosStepped_of_step hstep with
    | act _ hw => exact hack.step hv.reached hS (fun hup => (hs.node hup).applied) hw
    | passes => exact hack
    | refused => exact hack
    | fault => exact hack
  obtain ⟨_, hs, hack⟩ := hcut.invariant hpres
    ⟨cutOff_start hbefore hiso, hsev, fun k p hk _ _ => Or.inl hk⟩
  exact ⟨fun hup => ⟨(hs.node hup).commit, (hs.node hup).applied⟩, hack⟩

/-- The one entry that `n2` has confirmed is all that `n1` knows of. -/
theorem sampleCut_severed : Severed "n1" 1 sampleCut.world.calls.length sampleCut := by
  have hmatch : (sampleCut.world.node "n1").matchIndex =
      Function.update (Function.update (fun _ => 0) "n1" 1) "n2" 1 := by rfl
  have hout : ∀ call ∈ sampleCut.world.calls, call.rpc.upTo ≤ 1 := by decide +kernel
  have hin : ∀ call ∈ sampleCut.world.calls, call.dst ≠ "n1" := by decide +kernel
  refine ⟨fun _ => ⟨by decide, fun p _ => ?_, by decide +kernel, by decide +kernel⟩,
    fun k call _ hcall _ => hout call (List.mem_of_getElem? hcall),
    fun k _ call hcall hdst _ => absurd hdst (hin call (List.mem_of_getElem? hcall))⟩
  rw [hmatch, Function.update_apply, Function.update_apply]
  split_ifs <;> decide

theorem isolated_commits_nothing_sample :
    (sampleAlone.world.puts[0]?.map (fun p => (p.proposed, p.phase)) =
      some (some (2, 1), .waitApplied 2)) ∧
    (sampleAlone.world.up "n1" = true → (sampleAlone.world.node "n1").commitIndex ≤ 1 ∧
      (sampleAlone.world.node "n1").lastApplied ≤ 1) ∧
    Acknowledges "n1" 1 sampleCut.world sampleAlone.world :=
  ⟨by decide +kernel, isolated_commits_nothing sample_fixed (by decide) electedThenCut_run
    (by decide +kernel) sampleCut_severed writeAndReadAlone_run⟩

end Cluster
