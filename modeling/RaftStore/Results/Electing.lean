import Mathlib.Data.Finset.Max
import Mathlib.Data.Prod.Lex
import RaftStore.Node.Campaign
import RaftStore.Node.OneRound
import RaftStore.Results.Working

/-!
# A leader can always be elected

From every state in which a majority works, some steps of that majority lead to a leader that is
able to replicate to all of it (`Leading`). Three stages:

* somebody does not lead: of two leaders the one of the earlier term steps down when it hears from
  the other (`exists_nonleader`);
* nobody leads: a node that does not lead campaigns until its term is later than all others, and
  asks for votes, though it need not win (`nobody_leads`);
* the node with the best log campaigns, and all others vote for it (`elects`).
-/

namespace Cluster

open Raft Refine Consensus Node

variable {σ : Type} {S : Setup σ} {members : AddrMap} {Q : Finset String} {w v : World σ}
  {c p q : String} {req : RequestVoteRequest}

/-! ## Asking for a vote -/

/-- The node once the goroutine number `i` runs. -/
def taken (n : RaftNode σ) (i : Nat) : RaftNode σ :=
  { n with goroutines := n.goroutines.eraseIdx i }

/-- `c` has asked `p` for its vote, and `p` has decided. -/
structure Asked (w : World σ) (c p : String) (req : RequestVoteRequest) (v : World σ) : Prop where
  voter : v.node p = ((w.node p).handleRequestVote req).1
  asker : ∃ i, (w.node c).goroutines[i]? = some (.sendRequestVote p req) ∧
    v.node c = taken (w.node c) i
  others : ∀ j, j ≠ c → j ≠ p → v.node j = w.node j
  up_eq : v.up = w.up
  call : v.calls[w.calls.length]? = some
    { src := c, dst := p, rpc := .requestVote req (some ((w.node p).handleRequestVote req).2)
      pending := false }

theorem asks (hc : c ∈ Q) (hp : p ∈ Q) (hne : p ≠ c) (hup : w.up c = true) (hup' : w.up p = true)
    (htr : (w.node c).transport.isSome = true)
    (hgo : .sendRequestVote p req ∈ (w.node c).goroutines) : Can S Q w (Asked w c p req) := by
  obtain ⟨i, hi⟩ := List.mem_iff_getElem?.mp hgo
  have htr' : (w.node c).transport.isNone = false := by simpa using htr
  -- the goroutine runs up to its RPC, and the request arrives
  let call : Call := { src := c, dst := p, rpc := .requestVote req none }
  have hstep : step S w (.go c i) = some ((w.setNode c (taken (w.node c) i)).addCall call) := by
    simp [step, hup, hi, World.runGoroutine, World.setNode, htr', taken, call]
  have hcall : ((w.setNode c (taken (w.node c) i)).addCall call).calls[w.calls.length]? =
      some call := by
    simp [World.addCall, World.setNode]
  have hdeliver : step S ((w.setNode c (taken (w.node c) i)).addCall call)
      (.deliver w.calls.length) = some
        (((w.setNode c (taken (w.node c) i)).addCall call).deliverCall w.calls.length call) := by
    simp only [step, hcall, Option.bind_some]
    simp [World.addCall, World.setNode, hup', call]
  refine Leads.cons (smooth_go hc i) hstep ?_
  refine Leads.cons (smooth_deliver hcall hc hp (by simp [call])) hdeliver (Leads.here ?_)
  refine ⟨?_, ⟨i, hi, ?_⟩, fun j hj hj' => ?_, rfl, ?_⟩
  · simp [World.deliverCall, World.addCall, World.setNode, World.setCall, call, hne]
  · simp [World.deliverCall, World.addCall, World.setNode, World.setCall, call, hne.symm]
  · simp [World.deliverCall, World.addCall, World.setNode, World.setCall, call, hj, hj']
  · simp [World.deliverCall, World.addCall, World.setNode, World.setCall, call, hne]

/-- `c` has got the reply as well. -/
structure Heeded (w : World σ) (c p : String) (req : RequestVoteRequest) (v : World σ) : Prop where
  voter : v.node p = ((w.node p).handleRequestVote req).1
  asker : ∃ i, (w.node c).goroutines[i]? = some (.sendRequestVote p req) ∧
    v.node c = (taken (w.node c) i).sendRequestVoteReply p req ((w.node p).handleRequestVote req).2
  others : ∀ j, j ≠ c → j ≠ p → v.node j = w.node j

theorem heeds (hc : c ∈ Q) (hp : p ∈ Q) (hne : p ≠ c) (hup : w.up c = true) (hup' : w.up p = true)
    (htr : (w.node c).transport.isSome = true)
    (hgo : .sendRequestVote p req ∈ (w.node c).goroutines) : Can S Q w (Heeded w c p req) := by
  refine (asks (S := S) hc hp hne hup hup' htr hgo).bind (fun v hv => ?_)
  obtain ⟨i, hi, hnode⟩ := hv.asker
  have hupv : v.up c = true := by rw [hv.up_eq]; exact hup
  -- the reply comes back
  let resp := ((w.node p).handleRequestVote req).2
  let call : Call := { src := c, dst := p, rpc := .requestVote req (some resp), pending := false }
  have hreply : step S v (.reply w.calls.length) = some
      ((v.setCall w.calls.length { call with waiting := false }).setNode c
        ((v.node c).sendRequestVoteReply p req resp)) := by
    simp [step, hv.call, hupv, World.replyCall, call, resp]
  refine Leads.cons (smooth_reply hv.call hc hp) hreply
    (Leads.here ⟨?_, ⟨i, hi, ?_⟩, fun j hj hj' => ?_⟩)
  · simpa [World.setNode, World.setCall, hne] using hv.voter
  · simp [World.setNode, World.setCall, hnode, resp]
  · simpa [World.setNode, World.setCall, hj] using hv.others j hj hj'

/-! ## One round of replication -/

/-- A round of the `replicateTo` of `l` for `f` at place `i` is over. -/
structure Rounded (w : World σ) (l f : String) (i : Nat) (v : World σ) : Prop where
  sender : v.node l = (Node.round (taken (w.node l) i) (w.node f) f).1
  peer : v.node f = (Node.round (taken (w.node l) i) (w.node f) f).2
  others : ∀ j, j ≠ l → j ≠ f → v.node j = w.node j
  puts_eq : v.puts = w.puts

/-- The request is delivered and answered. -/
structure Exchanged (u : World σ) (l f : String) (nl nf : RaftNode σ) (v : World σ) : Prop where
  sender : v.node l = nl
  peer : v.node f = nf
  others : ∀ j, j ≠ l → j ≠ f → v.node j = u.node j
  puts_eq : v.puts = u.puts

variable {l f : String} {u : World σ} {k i : Nat}

/-- A call of `l` to `f` that asks `rpc`; `pending` until it is delivered. -/
def callTo (l f : String) (rpc : Rpc) (pending : Bool) : Call :=
  { src := l, dst := f, rpc := rpc, pending := pending }

theorem exchanges {r s : Rpc} {m : RaftNode σ} {g : RaftNode σ → RaftNode σ} (hl : l ∈ Q)
    (hf : f ∈ Q) (hne : f ≠ l) (hup : u.up l = true) (hup' : u.up f = true)
    (hk : u.calls[k]? = some (callTo l f r true))
    (hkeeps : ∀ req resp, r = .installSnapshot req resp → InstallKeeps (u.node f) req)
    (hdeliver : u.deliverCall k (callTo l f r true) =
      (u.setNode f m).setCall k (callTo l f s false))
    (hreply : ∀ v : World σ, v.replyCall k (callTo l f s false) = some
      ((v.setCall k { callTo l f s false with waiting := false }).setNode l (g (v.node l)))) :
    Can S Q u (Exchanged u l f (g (u.node l)) m) := by
  have hlt := (List.getElem?_eq_some_iff.mp hk).1
  -- the request, then the reply
  have hstep : step S u (.deliver k) = some (u.deliverCall k (callTo l f r true)) := by
    simp [step, hk, callTo, hup']
  refine Leads.cons (smooth_deliver hk hl hf hkeeps) hstep ?_
  rw [hdeliver]
  have hcall : ((u.setNode f m).setCall k (callTo l f s false)).calls[k]? =
      some (callTo l f s false) := by
    simp [World.setCall, World.setNode, hlt]
  have hanswer : step S ((u.setNode f m).setCall k (callTo l f s false)) (.reply k) =
      ((u.setNode f m).setCall k (callTo l f s false)).replyCall k (callTo l f s false) := by
    simp only [step, hcall, Option.bind_some]
    exact if_pos (by simp [callTo, World.setCall, World.setNode, hup])
  rw [hreply] at hanswer
  refine Leads.cons (smooth_reply hcall hl hf) hanswer
    (Leads.here ⟨?_, ?_, fun j hj hj' => ?_, rfl⟩)
  · simp [World.setCall, World.setNode, hne.symm]
  · simp [World.setCall, World.setNode, hne]
  · simp [World.setCall, World.setNode, hj, hj']

/-- A round that sends a request is over when the request is answered. -/
theorem Exchanged.rounded {rpc : Rpc} {m nl nf : RaftNode σ} {v : World σ}
    (h : Exchanged (((w.setNode l (taken (w.node l) i)).setNode l m).addCall
      (callTo l f rpc true)) l f nl nf v)
    (hround : Node.round (taken (w.node l) i) (w.node f) f = (nl, nf)) : Rounded w l f i v := by
  refine ⟨?_, ?_, fun j hj hj' => ?_, h.puts_eq⟩
  · rw [h.sender, hround]
  · rw [h.peer, hround]
  · rw [h.others j hj hj']
    simp [World.addCall, World.setNode, hj]

/-- **A round of the loop**, if a snapshot that it sends keeps the receiver's log. -/
theorem rounds (hl : l ∈ Q) (hf : f ∈ Q) (hne : f ≠ l) (hup : w.up l = true) (hup' : w.up f = true)
    (hi : (w.node l).goroutines[i]? = some (.replicateTo f))
    (hkeeps : ∀ m req, (taken (w.node l) i).replicateToHead f = (m, some (.install req)) →
      InstallKeeps (w.node f) req) : Can S Q w (Rounded w l f i) := by
  have hgo : step S w (.go l i) =
      some ((w.setNode l (taken (w.node l) i)).runGoroutine l (.replicateTo f)) := by
    simp only [step, hup, if_true, hi, Option.map_some]
    rfl
  have hself : (w.setNode l (taken (w.node l) i)).node l = taken (w.node l) i := by
    simp [World.setNode]
  refine Leads.cons (smooth_go hl i) hgo ?_
  unfold World.runGoroutine
  dsimp only
  rw [hself]
  rcases hhead : (taken (w.node l) i).replicateToHead f with ⟨m, _ | req | req⟩
  · -- it returns without a call
    refine Leads.here ⟨?_, ?_, fun j hj _ => ?_, rfl⟩
    · simp [World.setNode, Node.round, hhead]
    · simp [World.setNode, Node.round, hhead, hne]
    · simp [World.setNode, hj]
  -- entries
  · let u : World σ := ((w.setNode l (taken (w.node l) i)).setNode l m).addCall
      (callTo l f (.appendEntries req none none) true)
    have hk : u.calls[w.calls.length]? = some (callTo l f (.appendEntries req none none) true) := by
      simp [u, World.addCall, World.setNode]
    have hnode : u.node f = w.node f := by simp [u, World.addCall, World.setNode, hne]
    refine (exchanges (u := u) (m := ((w.node f).handleAppendEntries req).1)
      (s := .appendEntries req (some ((w.node f).handleAppendEntries req).2) none)
      (g := fun n => n.replicateToAppended f req ((w.node f).handleAppendEntries req).2)
      hl hf hne hup hup' hk (by simp) ?_ (fun v => rfl)).imp ?_
    · rw [← hnode]
      rfl
    · exact fun v hv => hv.rounded (by simp [u, World.addCall, World.setNode, Node.round, hhead])
  -- a snapshot
  · let u : World σ := ((w.setNode l (taken (w.node l) i)).setNode l m).addCall
      (callTo l f (.installSnapshot req none) true)
    have hk : u.calls[w.calls.length]? = some (callTo l f (.installSnapshot req none) true) := by
      simp [u, World.addCall, World.setNode]
    have hnode : u.node f = w.node f := by simp [u, World.addCall, World.setNode, hne]
    refine (exchanges (u := u) (m := ((w.node f).handleInstallSnapshot req).1)
      (s := .installSnapshot req (some ((w.node f).handleInstallSnapshot req).2))
      (g := fun n => n.replicateToInstalled f req ((w.node f).handleInstallSnapshot req).2)
      hl hf hne hup hup' hk ?_ ?_ (fun v => rfl)).imp ?_
    · intro req' resp hrpc
      obtain rfl := (Rpc.installSnapshot.inj hrpc).1
      rw [hnode]
      exact hkeeps m req hhead
    · rw [← hnode]
      rfl
    · exact fun v hv => hv.rounded (by simp [u, World.addCall, World.setNode, Node.round, hhead])

/-! ## Somebody does not lead -/

/-- Of two leaders the one of the earlier term steps down. -/
theorem deposes (hw : Working S Q w) (hc : Quorate S members Q) (hl : l ∈ Q) (hf : f ∈ Q)
    (hlead : (w.node l).state = .leader)
    (hterm : (w.node l).currentTerm < (w.node f).currentTerm) :
    Can S Q w (fun v => Working S Q v ∧ (v.node l).state = .follower) := by
  -- the peer is in a later term
  have hne : f ≠ l := by
    rintro rfl
    omega
  have hsound := hw.sound hc hl
  have hpres : Presides w l f (w.node l).currentTerm :=
    { up := (hw.willing l hl).up
      running := (hw.willing l hl).running
      leader := hlead
      term_eq := rfl
      transport := hsound.equipped.transport
      peer := by rw [hsound.peerIDs_eq]; exact hc.subset f hf
      other := by rw [hsound.id_eq]; exact hne }
  -- the loop is running, or is started
  obtain ⟨own, v, _, hown, hgo, hlead', hterm'⟩ := hpres.restarts (S := S) hsound.equipped.tended
  have hstart : Can S Q w (fun u => Working S Q u ∧ u = v) :=
    Can.working ⟨own, v, hown.mono (fun _ _ hok => smooth_of_forLoops hl hok), rfl⟩ hw
  refine hstart.bind ?_
  rintro u ⟨hu, rfl⟩
  have hpeer : u.node f = w.node f := node_of_forLoops hown hne
  have hsound' := hu.sound hc hl
  have hlater : (u.node l).currentTerm < (u.node f).currentTerm := by
    rw [hterm', hpeer]
    exact hterm
  have hnext : 0 < (u.node l).next f := hsound'.positioned hlead' f (hc.subset f hf)
  obtain ⟨i, hi⟩ := List.mem_iff_getElem?.mp hgo
  -- a snapshot of an earlier term is not installed
  have hkeeps : ∀ m req, (taken (u.node l) i).replicateToHead f = (m, some (.install req)) →
      InstallKeeps (u.node f) req := by
    intro m req hhead hle
    rcases head_cases (l := taken (u.node l) i) hlead' hsound'.contiguous hsound'.base_nonneg
        hnext with
      ⟨_, heq⟩ | ⟨_, req', heq, _⟩
    · rw [heq] at hhead
      cases hhead
      exact absurd hlater (not_lt.mpr hle)
    · rw [heq] at hhead
      cases hhead
  refine ((rounds (S := S) hl hf hne (hu.willing l hl).up (hu.willing f hf).up hi hkeeps).working
    hu).imp ?_
  rintro v ⟨hv, hround⟩
  refine ⟨hv, ?_⟩
  rw [hround.sender]
  exact round_deposed (l := taken (u.node l) i) hlead' hsound'.contiguous hsound'.base_nonneg hnext
    hlater

theorem exists_nonleader (hw : Working S Q w) (hc : Quorate S members Q)
    (htwo : 1 < members.keys.length) :
    Can S Q w (fun v => Working S Q v ∧ ∃ q ∈ Q, (v.node q).state ≠ .leader) := by
  -- two leaders of a quorum have different terms
  by_cases hsome : ∃ q ∈ Q, (w.node q).state ≠ .leader
  · exact Leads.here ⟨hw, hsome⟩
  push Not at hsome
  obtain ⟨a, ha, b, hb, hab⟩ :=
    Finset.one_lt_card.mp (show 1 < Q.card by have := hc.majority; omega)
  have hdiff : (w.node a).currentTerm ≠ (w.node b).currentTerm :=
    fun heq => hab (hw.one_leader hc ha hb (hsome a ha) (hsome b hb) heq)
  have hdown : ∀ l ∈ Q, ∀ f ∈ Q, (w.node l).currentTerm < (w.node f).currentTerm →
      Can S Q w (fun v => Working S Q v ∧ ∃ q ∈ Q, (v.node q).state ≠ .leader) := by
    intro l hl f hf hlt
    refine (deposes hw hc hl hf (hsome l hl) hlt).imp ?_
    rintro v ⟨hv, hstate⟩
    exact ⟨hv, l, hl, by rw [hstate]; decide⟩
  rcases lt_or_gt_of_ne hdiff with hlt | hgt
  · exact hdown a ha b hb hlt
  · exact hdown b hb a ha hgt

/-! ## Nobody leads -/

/-- A node that does not lead campaigns. -/
theorem campaigns (hw : Working S Q w) (hc : Quorate S members Q) (hq : q ∈ Q)
    (hs : (w.node q).state ≠ .leader) (htwo : 1 < members.keys.length) :
    Can S Q w (fun v => Working S Q v ∧ Campaigned (w.node q) (v.node q) ∧
      ∀ j, j ≠ q → v.node j = w.node j) := by
  have hwill := hw.willing q hq
  have hsound := hw.sound hc hq
  have hstep : step S w (.tick q true) = some (w.setNode q ((w.node q).tick true)) := by
    simp [step, hwill.up, hwill.running]
  -- alone it would lead at once
  have hmaj : 1 < (w.node q).majority := by
    unfold RaftNode.majority
    rw [hsound.peerIDs_eq]
    omega
  refine Leads.cons (smooth_tick hq true) hstep
    (Leads.here ⟨hw.step (smooth_tick hq true) hstep, ?_, ?_⟩)
  · simpa [World.setNode] using campaigned hs hwill.joined hsound.voter hmaj
  · intro j hj
    simp [World.setNode, hj]

/-- `q` is a candidate whose term is later than `N`, and is about to ask everyone. -/
structure Outbids (members : AddrMap) (N : Int) (q : String) (req : RequestVoteRequest)
    (v : World σ) :
    Prop where
  state_eq : (v.node q).state = .candidate
  term_eq : (v.node q).currentTerm = req.term
  later : N < req.term
  asks : ∀ p ∈ members.keys, p ≠ q → .sendRequestVote p req ∈ (v.node q).goroutines

/-- It campaigns again and again until its term is late enough. -/
theorem outbids (hw : Working S Q w) (hc : Quorate S members Q) (hq : q ∈ Q)
    (hs : (w.node q).state ≠ .leader) (htwo : 1 < members.keys.length) (N : Int) :
    Can S Q w (fun v => Working S Q v ∧ (∃ req, Outbids members N q req v) ∧
      ∀ j, j ≠ q → v.node j = w.node j) := by
  -- how many campaigns are still to come
  obtain ⟨k, hk⟩ : ∃ k : Nat, N < (w.node q).currentTerm + 1 + k :=
    ⟨(N - (w.node q).currentTerm).toNat, by omega⟩
  induction k generalizing w with
  | zero =>
    have hsound := hw.sound hc hq
    refine (campaigns hw hc hq hs htwo).imp ?_
    rintro v ⟨hv, hcamp, hothers⟩
    refine ⟨hv, ⟨bid (w.node q), hcamp.state_eq, hcamp.term_eq, ?_, fun p hp hne => ?_⟩, hothers⟩
    · show N < (w.node q).currentTerm + 1
      omega
    · refine hcamp.asks p ?_ ?_
      · rw [hsound.peerIDs_eq]
        exact hp
      · rw [hsound.id_eq]
        exact hne
  | succ k ih =>
    refine (campaigns hw hc hq hs htwo).bind ?_
    rintro v ⟨hv, hcamp, hothers⟩
    have hs' : (v.node q).state ≠ .leader := by rw [hcamp.state_eq]; decide
    have hk' : N < (v.node q).currentTerm + 1 + k := by
      rw [hcamp.term_eq]
      push_cast at hk
      omega
    refine (ih hv hs' hk').imp ?_
    rintro u ⟨hu, hbid, hsame⟩
    exact ⟨hu, hbid, fun j hj => (hsame j hj).trans (hothers j hj)⟩

/-- A node of the majority that does not lead, in term `T`. -/
def Idles (T : Int) (p : String) (v : World σ) : Prop :=
  (v.node p).state ≠ .leader ∧ (v.node p).currentTerm = T

/-- While `q` asks the others: whoever was asked idles, and the others are in earlier terms. -/
structure Asking (S : Setup σ) (Q : Finset String) (q : String) (req : RequestVoteRequest)
    (v : World σ) : Prop where
  working : Working S Q v
  asker : Idles req.term q v
  rest : ∀ p ∈ Q, p ≠ q → Idles req.term p v ∨
    ((v.node p).currentTerm < req.term ∧ .sendRequestVote p req ∈ (v.node q).goroutines)

theorem Asking.one (h : Asking S Q q req v) (hc : Quorate S members Q) (hq : q ∈ Q) (hp : p ∈ Q)
    (hne : p ≠ q) : Can S Q v (fun u => Asking S Q q req u ∧ Idles req.term p u ∧
      ∀ j, Idles req.term j v → Idles req.term j u) := by
  -- the peer was asked before, or its goroutine waits
  rcases h.rest p hp hne with hdone | ⟨hlt, hgo⟩
  · exact Leads.here ⟨h, hdone, fun _ hj => hj⟩
  have htr := (h.working.sound hc hq).equipped.transport
  refine ((asks (S := S) hq hp hne (h.working.willing q hq).up (h.working.willing p hp).up htr
    hgo).working h.working).imp ?_
  rintro u ⟨hu, hasked⟩
  obtain ⟨i, hi, hnode⟩ := hasked.asker
  have hpoll := polled hlt
  have hp' : Idles req.term p u := by
    unfold Idles
    rw [hasked.voter, hpoll.state_eq, hpoll.term_eq]
    exact ⟨by decide, rfl⟩
  -- everyone else is as before, the asker's goroutine apart
  have hkeep : ∀ j, Idles req.term j v → Idles req.term j u := by
    intro j hj
    by_cases hjp : j = p
    · rw [hjp]
      exact hp'
    by_cases hjq : j = q
    · subst hjq
      unfold Idles
      rw [hnode]
      exact hj
    · unfold Idles
      rw [hasked.others j hjq hjp]
      exact hj
  refine ⟨⟨hu, hkeep q h.asker, fun j hj hjq => ?_⟩, hp', hkeep⟩
  rcases h.rest j hj hjq with hdone | ⟨hjlt, hjgo⟩
  · exact Or.inl (hkeep j hdone)
  by_cases hjp : j = p
  · rw [hjp]
    exact Or.inl hp'
  · right
    rw [hasked.others j hjq hjp, hnode]
    refine ⟨hjlt, mem_eraseIdx_of_ne hi hjgo ?_⟩
    exact fun heq => hjp (Goroutine.sendRequestVote.inj heq).1

/-- **Nobody of the majority leads**, and all are in one term. -/
theorem nobody_leads (hw : Working S Q w) (hc : Quorate S members Q) (hq : q ∈ Q)
    (hs : (w.node q).state ≠ .leader) (htwo : 1 < members.keys.length) :
    Can S Q w (fun v => Working S Q v ∧ ∃ T, ∀ p ∈ Q, Idles T p v) := by
  -- a term that nobody has yet
  obtain ⟨N, hN⟩ : ∃ N, ∀ p ∈ Q, (w.node p).currentTerm ≤ N := by
    obtain ⟨p, _, hmax⟩ := Q.exists_max_image (fun p => (w.node p).currentTerm) ⟨q, hq⟩
    exact ⟨_, hmax⟩
  refine (outbids hw hc hq hs htwo N).bind ?_
  rintro v ⟨hv, ⟨req, hbid⟩, hothers⟩
  have hasking : Asking S Q q req v := by
    refine ⟨hv, ⟨by rw [hbid.state_eq]; decide, hbid.term_eq⟩, fun p hp hne => Or.inr ⟨?_, ?_⟩⟩
    · rw [hothers p hne]
      exact (hN p hp).trans_lt hbid.later
    · exact hbid.asks p (hc.subset p hp) hne
  -- one peer after the other
  have hone : ∀ p ∈ (Q.erase q).toList, ∀ u, Asking S Q q req u →
      Can S Q u (fun t => Asking S Q q req t ∧ Idles req.term p t ∧
        ∀ j, Idles req.term j u → Idles req.term j t) := by
    intro p hp u hu
    simp only [Finset.mem_toList, Finset.mem_erase] at hp
    exact hu.one hc hq hp.2 hp.1
  refine (Leads.each (P := Idles req.term) _ hone hasking).imp ?_
  rintro u ⟨hu, _, hidle⟩
  refine ⟨hu.working, req.term, fun p hp => ?_⟩
  by_cases hpq : p = q
  · rw [hpq]
    exact hu.asker
  · exact hidle p (by simp [hp, hpq])

/-! ## The best log wins -/

/-- A log that is no better is outdated or equal. -/
theorem upToDate_of_le {n : RaftNode σ} {i t : Int}
    (h : toLex (n.log.lastLogTermLocked, n.log.lastLogIndexLocked) ≤ toLex (t, i)) :
    n.isLogUpToDateLocked i t = true := by
  unfold RaftNode.isLogUpToDateLocked
  -- a later term, or the same term and no shorter
  rcases Prod.Lex.toLex_le_toLex.mp h with hlt | ⟨heq, hle⟩
  · rw [if_pos (ne_of_gt hlt)]
    simpa using hlt
  · have heq' : n.log.lastLogTermLocked = t := heq
    rw [if_neg (not_not.mpr heq'.symm)]
    simpa using hle

/-- The votes are not enough yet. -/
structure Awaits (members : AddrMap) (c : String) (v : World σ) : Prop where
  state_eq : (v.node c).state = .candidate
  own : c ∈ (v.node c).votesReceived
  few : (v.node c).votesReceived.card < members.keys.length / 2 + 1

/-- The election is won, and nothing was replicated since. -/
structure Won (members : AddrMap) (c : String) (T : Int) (v : World σ) : Prop where
  state_eq : (v.node c).state = .leader
  next_eq : ∃ L, (v.node c).log.termAtLocked L = some T ∧ (v.node c).log.lastLogIndexLocked = L ∧
    ∀ p ∈ members.keys, p ≠ c → (v.node c).next p = L
  loops : ∀ p ∈ members.keys, p ≠ c → .replicateTo p ∈ (v.node c).goroutines

/-- `p` has voted for `c`, if `c` still counts. -/
def Voted (c : String) (T : Int) (p : String) (v : World σ) : Prop :=
  (v.node p).currentTerm = T ∧ ((v.node c).state = .leader ∨ p ∈ (v.node c).votesReceived)

/-- All that `p` holds is of earlier terms. -/
def Outdated (T : Int) (p : String) (v : World σ) : Prop :=
  ∀ i t, (v.node p).log.termAtLocked i = some t → t < T

/-- While the others vote for `c`. -/
structure Voting (S : Setup σ) (members : AddrMap) (Q : Finset String) (c : String)
    (req : RequestVoteRequest) (v : World σ) : Prop where
  working : Working S Q v
  term_eq : (v.node c).currentTerm = req.term
  role : Awaits members c v ∨ Won members c req.term v
  rest : ∀ p ∈ Q, p ≠ c → Voted c req.term p v ∨
    ((v.node p).currentTerm < req.term ∧
      (v.node p).isLogUpToDateLocked req.lastLogIndex req.lastLogTerm = true ∧
      .sendRequestVote p req ∈ (v.node c).goroutines)
  old : ∀ p ∈ Q, p ≠ c → Outdated req.term p v

/-- What `c` is after one more vote. -/
structure Tallied (members : AddrMap) (c p : String) (T : Int) (n : RaftNode σ) (v : World σ) :
    Prop where
  term_eq : (v.node c).currentTerm = T
  role : Awaits members c v ∨ Won members c T v
  counted : (v.node c).state = .leader ∨ p ∈ (v.node c).votesReceived
  kept : ∀ j, n.state = .leader ∨ j ∈ n.votesReceived →
    (v.node c).state = .leader ∨ j ∈ (v.node c).votesReceived
  mem : ∀ j, j ≠ p → ∀ req, .sendRequestVote j req ∈ n.goroutines →
    .sendRequestVote j req ∈ (v.node c).goroutines

theorem Voting.tallied {u : World σ} (h : Voting S members Q c req v) (hc : Quorate S members Q)
    (hcQ : c ∈ Q) (hlt : (v.node p).currentTerm < req.term)
    (hup : (v.node p).isLogUpToDateLocked req.lastLogIndex req.lastLogTerm = true)
    (hu : Working S Q u) (hheed : Heeded v c p req u) :
    Tallied members c p req.term (v.node c) u := by
  have hsound := h.working.sound hc hcQ
  have hsound' := hu.sound hc hcQ
  have hpoll := polled hlt
  obtain ⟨i, hi, hnode⟩ := hheed.asker
  -- the goroutine that asked is gone, no other
  have hrest : ∀ g, g ≠ .sendRequestVote p req → g ∈ (v.node c).goroutines →
      g ∈ (taken (v.node c) i).goroutines := fun g hg hmem => mem_eraseIdx_of_ne hi hmem hg
  have hasks : ∀ j, j ≠ p → ∀ req', .sendRequestVote j req' ∈ (v.node c).goroutines →
      .sendRequestVote j req' ∈ (taken (v.node c) i).goroutines :=
    fun j hj req' => hrest _ (fun heq => hj (Goroutine.sendRequestVote.inj heq).1)
  rcases h.role with hwait | hwon
  · have hcount : Counted (taken (v.node c) i) p (u.node c) := by
      rw [hnode]
      exact counted hwait.state_eq h.term_eq hpoll.resp_term (hpoll.granted hup)
    -- the vote that elects it
    rcases hcount with ⟨m, hm, hel⟩ | ⟨hn, hfew⟩
    · have hids : m.peerIDs = members.keys := by rw [hm]; exact hsound.peerIDs_eq
      have hid : m.id = c := by rw [hm]; exact hsound.id_eq
      have hterm : m.currentTerm = req.term := by rw [hm]; exact h.term_eq
      have hcont : m.log.Contiguous := by rw [hm]; exact hsound.contiguous
      obtain ⟨e, hidx, he, hlog⟩ := hel.log
      obtain ⟨hlast, hown⟩ := newest hcont hidx hlog
      refine ⟨hel.term_eq.trans hterm, Or.inr ⟨hel.state_eq, ⟨_, ?_, hlast, fun p hp hne => ?_⟩,
        fun p hp hne => ?_⟩, Or.inl hel.state_eq, fun _ _ => Or.inl hel.state_eq, ?_⟩
      · rw [hown, he, hterm]
      · exact hel.next_eq p (by rw [hids]; exact hp) (by rw [hid]; exact hne)
      · refine hel.loops hsound'.equipped.transport p ?_ ?_
        · rw [hsound'.peerIDs_eq]
          exact hp
        · rw [hsound'.id_eq]
          exact hne
      · intro j hj req' hmem
        refine hel.mem _ ?_
        rw [hm]
        exact hasks j hj req' hmem
    -- one vote more
    · have hmaj : (taken (v.node c) i).majority = members.keys.length / 2 + 1 := by
        show (v.node c).peerIDs.length / 2 + 1 = _
        rw [hsound.peerIDs_eq]
      have hvotes : (u.node c).votesReceived = insert p (v.node c).votesReceived := by rw [hn]; rfl
      have hstate : (u.node c).state = (v.node c).state := by rw [hn]; rfl
      refine ⟨?_, Or.inl ⟨hstate.trans hwait.state_eq, ?_, ?_⟩, Or.inr ?_, fun j hj => ?_, ?_⟩
      · rw [hn]
        exact h.term_eq
      · rw [hvotes]
        exact Finset.mem_insert_of_mem hwait.own
      · rw [hvotes, ← hmaj]
        exact hfew
      · rw [hvotes]
        exact Finset.mem_insert_self _ _
      · rw [hstate, hvotes]
        exact hj.imp_right Finset.mem_insert_of_mem
      · intro j hj req' hmem
        rw [hn]
        exact hasks j hj req' hmem
  · -- votes that come after the election is won
    have hsame : u.node c = taken (v.node c) i := by
      rw [hnode]
      refine uncounted hwon.state_eq ?_
      show _ ≤ (v.node c).currentTerm
      rw [hpoll.resp_term, h.term_eq]
    refine ⟨?_, Or.inr ⟨?_, ?_, fun p hp hne => ?_⟩, Or.inl ?_, fun j hj => ?_, ?_⟩
    all_goals rw [hsame]
    · exact h.term_eq
    · exact hwon.state_eq
    · exact hwon.next_eq
    · exact hrest _ (by simp) (hwon.loops p hp hne)
    · exact hwon.state_eq
    · exact hj
    · exact hasks

theorem Voting.one (h : Voting S members Q c req v) (hc : Quorate S members Q) (hcQ : c ∈ Q)
    (hp : p ∈ Q) (hne : p ≠ c) : Can S Q v (fun u => Voting S members Q c req u ∧
      Voted c req.term p u ∧ ∀ j, Voted c req.term j v → Voted c req.term j u) := by
  rcases h.rest p hp hne with hdone | ⟨hlt, hup, hgo⟩
  · exact Leads.here ⟨h, hdone, fun _ hj => hj⟩
  have htr := (h.working.sound hc hcQ).equipped.transport
  refine ((heeds (S := S) hcQ hp hne (h.working.willing c hcQ).up (h.working.willing p hp).up htr
    hgo).working h.working).imp ?_
  rintro u ⟨hu, hheed⟩
  have htally := h.tallied hc hcQ hlt hup hu hheed
  have hpoll := polled hlt
  have hp' : Voted c req.term p u := ⟨by rw [hheed.voter, hpoll.term_eq], htally.counted⟩
  -- nobody loses a vote
  have hkeep : ∀ j, Voted c req.term j v → Voted c req.term j u := by
    rintro j ⟨hterm, hvote⟩
    refine ⟨?_, htally.kept j hvote⟩
    by_cases hjp : j = p
    · rw [hjp]
      exact hp'.1
    by_cases hjc : j = c
    · rw [hjc]
      exact htally.term_eq
    · rw [hheed.others j hjc hjp]
      exact hterm
  refine ⟨⟨hu, htally.term_eq, htally.role, fun j hj hjc => ?_, fun j hj hjc => ?_⟩, hp', hkeep⟩
  · rcases h.rest j hj hjc with hdone | ⟨hjlt, hjup, hjgo⟩
    · exact Or.inl (hkeep j hdone)
    by_cases hjp : j = p
    · rw [hjp]
      exact Or.inl hp'
    · right
      rw [hheed.others j hjc hjp]
      exact ⟨hjlt, hjup, htally.mem j hjp req hjgo⟩
  · unfold Outdated
    by_cases hjp : j = p
    · rw [hjp, hheed.voter, hpoll.log_eq]
      exact h.old p hp hne
    · rw [hheed.others j hjc hjp]
      exact h.old j hj hjc

/-- A leader that is able to replicate to all of the majority: a goroutine for each is ready, and
will start with the last entry, the first of the leader's term. -/
structure Leading (S : Setup σ) (Q : Finset String) (c : String) (v : World σ) : Prop where
  working : Working S Q v
  mem : c ∈ Q
  leader : (v.node c).state = .leader
  term_le : ∀ p ∈ Q, (v.node p).currentTerm ≤ (v.node c).currentTerm
  loops : ∀ p ∈ Q, p ≠ c → .replicateTo p ∈ (v.node c).goroutines
  next_eq : ∀ p ∈ Q, p ≠ c → (v.node c).next p = (v.node c).log.lastLogIndexLocked ∧
    (v.node c).log.termAtLocked (v.node c).log.lastLogIndexLocked = some (v.node c).currentTerm
  old : ∀ p ∈ Q, p ≠ c → Outdated (v.node c).currentTerm p v

/-- When all have voted, the election is won. -/
theorem Voting.leading (h : Voting S members Q c req v) (hc : Quorate S members Q) (hcQ : c ∈ Q)
    (hall : ∀ p ∈ Q, p ≠ c → Voted c req.term p v) : Leading S Q c v := by
  have hwon : Won members c req.term v := by
    rcases h.role with hwait | hwon
    swap
    · exact hwon
    -- a candidate would have the votes of a majority
    have hsub : Q ⊆ (v.node c).votesReceived := by
      intro p hp
      by_cases hpc : p = c
      · rw [hpc]
        exact hwait.own
      · refine (hall p hp hpc).2.resolve_left ?_
        rw [hwait.state_eq]
        decide
    have hcard := Finset.card_le_card hsub
    have hfew := hwait.few
    have hmaj := hc.majority
    omega
  -- everybody who voted is in the term
  have hterm : ∀ p ∈ Q, (v.node p).currentTerm ≤ (v.node c).currentTerm := by
    intro p hp
    by_cases hpc : p = c
    · rw [hpc]
    · rw [(hall p hp hpc).1, h.term_eq]
  obtain ⟨L, hown, hlast, hnext⟩ := hwon.next_eq
  refine ⟨h.working, hcQ, hwon.state_eq, hterm,
    fun p hp hne => hwon.loops p (hc.subset p hp) hne, fun p hp hne => ⟨?_, ?_⟩, fun p hp hne => ?_⟩
  · rw [hlast]
    exact hnext p (hc.subset p hp) hne
  · rw [hlast, h.term_eq]
    exact hown
  · rw [h.term_eq]
    exact h.old p hp hne

/-- **The node with the best log is elected.** -/
theorem elects {T : Int} (hw : Working S Q w) (hc : Quorate S members Q)
    (htwo : 1 < members.keys.length) (hidle : ∀ p ∈ Q, Idles T p w) :
    Can S Q w (fun v => ∃ c, Leading S Q c v) := by
  have hne : Q.Nonempty := by
    rw [← Finset.card_pos]
    have hmaj := hc.majority
    omega
  -- the candidate with the most recent log
  obtain ⟨c, hcQ, hbest⟩ := Q.exists_max_image
    (fun p => toLex ((w.node p).log.lastLogTermLocked, (w.node p).log.lastLogIndexLocked)) hne
  refine (campaigns hw hc hcQ (hidle c hcQ).1 htwo).bind ?_
  rintro v ⟨hv, hcamp, hothers⟩
  -- the others are where they were, with older logs
  have hsound := hw.sound hc hcQ
  have hbid : (bid (w.node c)).term = T + 1 := by rw [← (hidle c hcQ).2]; rfl
  have hvoting : Voting S members Q c (bid (w.node c)) v := by
    refine ⟨hv, hcamp.term_eq, Or.inl ⟨hcamp.state_eq, ?_, ?_⟩, fun p hp hpc => Or.inr ⟨?_, ?_, ?_⟩,
      fun p hp hpc => ?_⟩
    · rw [hcamp.votes_eq, hsound.id_eq]
      exact Finset.mem_singleton_self c
    · rw [hcamp.votes_eq, Finset.card_singleton]
      omega
    · rw [hothers p hpc, (hidle p hp).2, hbid]
      omega
    · rw [hothers p hpc]
      exact upToDate_of_le (hbest p hp)
    · refine hcamp.asks p ?_ ?_
      · rw [hsound.peerIDs_eq]
        exact hc.subset p hp
      · rw [hsound.id_eq]
        exact hpc
    · intro i t ht
      rw [hothers p hpc] at ht
      have hterm := (hw.sound hc hp).terms i t ht
      rw [(hidle p hp).2] at hterm
      rw [hbid]
      omega
  -- vote by vote
  have hone : ∀ p ∈ (Q.erase c).toList, ∀ u, Voting S members Q c (bid (w.node c)) u →
      Can S Q u (fun t => Voting S members Q c (bid (w.node c)) t ∧
        Voted c (bid (w.node c)).term p t ∧
        ∀ j, Voted c (bid (w.node c)).term j u → Voted c (bid (w.node c)).term j t) := by
    intro p hp u hu
    simp only [Finset.mem_toList, Finset.mem_erase] at hp
    exact hu.one hc hcQ hp.2 hp.1
  refine (Leads.each (P := Voted c (bid (w.node c)).term) _ hone hvoting).imp ?_
  rintro u ⟨hu, _, hvoted⟩
  exact ⟨c, hu.leading hc hcQ (fun p hp hpc => hvoted p (by simp [hp, hpc]))⟩

/-! ## A cluster of one -/

/-- A single member elects itself. -/
theorem leads_alone (hw : Working S Q w) (hc : Quorate S members Q)
    (hone : members.keys.length ≤ 1) : Can S Q w (fun v => ∃ c, Leading S Q c v) := by
  -- a majority of one is the one member
  have hcard : Q.card ≤ 1 := by
    have hsub : Q ⊆ members.keys.toFinset := fun q hq => List.mem_toFinset.mpr (hc.subset q hq)
    exact (Finset.card_le_card hsub).trans ((List.toFinset_card_le _).trans hone)
  obtain ⟨c, hcQ⟩ : Q.Nonempty := by
    rw [← Finset.card_pos]
    have hmaj := hc.majority
    omega
  have honly : ∀ p ∈ Q, p = c := fun p hp => Finset.card_le_one.mp hcard p hp c hcQ
  have hlead : ∀ v, Working S Q v → (v.node c).state = .leader → Leading S Q c v := by
    intro v hv hs
    exact ⟨hv, hcQ, hs, fun p hp => by rw [honly p hp], fun p hp hpc => absurd (honly p hp) hpc,
      fun p hp hpc => absurd (honly p hp) hpc, fun p hp hpc => absurd (honly p hp) hpc⟩
  by_cases hs : (w.node c).state = .leader
  · exact Leads.here ⟨c, hlead w hw hs⟩
  have hwill := hw.willing c hcQ
  have hsound := hw.sound hc hcQ
  -- it elects itself on a tick
  have hstep : step S w (.tick c true) = some (w.setNode c ((w.node c).tick true)) := by
    simp [step, hwill.up, hwill.running]
  have hmaj : (w.node c).majority ≤ 1 := by
    unfold RaftNode.majority
    rw [hsound.peerIDs_eq]
    omega
  refine Leads.cons (smooth_tick hcQ true) hstep (Leads.here ⟨c, hlead _ ?_ ?_⟩)
  · exact hw.step (smooth_tick hcQ true) hstep
  · simpa [World.setNode] using acclaimed hs hwill.joined hsound.voter hmaj

/-- **A leader can always be elected.** -/
theorem leads (hw : Working S Q w) (hc : Quorate S members Q) :
    Can S Q w (fun v => ∃ c, Leading S Q c v) := by
  -- depose, let everyone follow, and elect
  rcases Nat.lt_or_ge 1 members.keys.length with htwo | hone
  swap
  · exact leads_alone hw hc hone
  refine (exists_nonleader hw hc htwo).bind ?_
  rintro v ⟨hv, q, hq, hs⟩
  refine (nobody_leads hv hc hq hs htwo).bind ?_
  rintro u ⟨hu, T, hidle⟩
  exact elects hu hc htwo hidle

end Cluster
