import RaftStore.Results.Timeouts
import RaftStore.Refine.Reading

/-!
# A leader that is heard stays

As long as every node hears from the leader again before its shortest election timeout is over,
nobody opens an election, no term goes beyond the leader's, and the leader leads on
(`heard_leader_stays`). Messages may be lost, duplicated by retries and delayed, other nodes may
crash and come back, clients may come and go.

The argument does not use the clock but in one place. In a step in which nobody opens an election
(`Calm`), no term above the leader's comes up: not in a node, not on a disk, not in a message
(`Reigns`). A leader is deposed by a later term only: by election safety no other leader of its own
term can send to it.
-/

namespace Cluster

open Raft Refine Node

variable {σ : Type} {S : Setup σ} {members : AddrMap} {w w' : World σ} {act : Action} {l : String}
  {t : Int} {T : String → Timeouts} {c c' : Timed σ} {x : TimedAction} {xs : List TimedAction}

/-! ## Terms in messages -/

/-- The term of the request. -/
def Rpc.asked : Rpc → Int
  | .requestVote req _ => req.term
  | .appendEntries req _ _ => req.term
  | .installSnapshot req _ => req.term

/-- Whoever sends a request has reached its term. -/
theorem asked_le {X : Mode σ} {a : Chron} (hw : WorldRel X a w) {call : Call}
    (hc : call ∈ w.calls) :
    call.rpc.asked ≤ a.term call.src := by
  have hrel := (hw.calls call hc).2
  cases hrpc : call.rpc with
  | requestVote req resp =>
    rw [hrpc] at hrel
    obtain ⟨_, _, _, hbid, _⟩ := hrel.1
    exact (hw.good.inv.ballots.bid_le hbid).2
  | appendEntries req resp read =>
    rw [hrpc] at hrel
    obtain ⟨⟨Q, hwon⟩, _⟩ := hrel.1
    exact (hw.good.inv.won_le hwon).2
  | installSnapshot req resp =>
    rw [hrpc] at hrel
    obtain ⟨_, ⟨Q, hwon⟩, _⟩ := hrel.1
    exact (hw.good.inv.won_le hwon).2

/-- The term on record is that of the node, or of the one that a restart brings up. -/
theorem term_le_of_nodes {X : Mode σ} {a : Chron} (hw : WorldRel X a w) (ht : 0 ≤ t)
    (hnodes : ∀ p, TermLe t (w.node p)) (p : String) : a.term p ≤ t := by
  obtain ⟨b, hst⟩ := (hw.nodes p).stored
  rw [hst.term_eq]
  unfold World.revived
  split
  · exact (hnodes p).term
  · exact (termLe_boot _ _ ht (hnodes p).saved).term

/-! ## The reign -/

/-- **A leader with no later term in sight.** -/
structure Reigns (S : Setup σ) (l : String) (t : Int) (w : World σ) : Prop where
  reached : Reached S w
  up : w.up l = true
  leads : (w.node l).state = .leader
  term_eq : (w.node l).currentTerm = t
  nodes : ∀ p, TermLe t (w.node p)
  replies : ∀ call ∈ w.calls, ∀ T, call.rpc.replied = some T → T ≤ t

theorem Reigns.nonneg (h : Reigns S l t w) (hS : Fixed S members) : 0 ≤ t := by
  obtain ⟨a, hw⟩ := h.reached.rel hS
  obtain ⟨b, hst⟩ := (hw.node_rel h.up).stored
  have hterm := hst.term_eq
  rw [h.term_eq] at hterm
  rw [← hterm]
  exact hw.good.inv.ballots.term_nonneg l

/-- No message brings a later term. -/
theorem Reigns.upTo (h : Reigns S l t w) (hS : Fixed S members) {p : String} {ev : Event}
    (hev : Hears w act p ev) : UpTo t ev := by
  obtain ⟨a, hw⟩ := h.reached.rel hS
  have hasked : ∀ {k : Nat} {call : Call}, w.calls[k]? = some call → call.rpc.asked ≤ t :=
    fun hk => (asked_le hw (List.mem_of_getElem? hk)).trans
      (term_le_of_nodes hw (h.nonneg hS) h.nodes _)
  have hreply : ∀ {k : Nat} {call : Call}, w.calls[k]? = some call → ∀ T,
      call.rpc.replied = some T → T ≤ t := fun hk => h.replies _ (List.mem_of_getElem? hk)
  intro T hT
  cases ev with
  | requestVote req =>
    obtain ⟨k, call, _, hk, _, _, resp, hrpc⟩ := hev
    have hle := hasked hk
    rw [hrpc] at hle
    exact Option.some.inj hT ▸ hle
  | appendEntries req =>
    obtain ⟨k, call, _, hk, _, _, resp, read, hrpc⟩ := hev
    have hle := hasked hk
    rw [hrpc] at hle
    exact Option.some.inj hT ▸ hle
  | installSnapshot req =>
    obtain ⟨k, call, _, hk, _, _, resp, hrpc⟩ := hev
    have hle := hasked hk
    rw [hrpc] at hle
    exact Option.some.inj hT ▸ hle
  | voteReply peer req resp =>
    obtain ⟨k, call, _, hk, _, _, hrpc⟩ := hev
    exact hreply hk T (by rw [hrpc]; exact hT)
  | appendReply peer req resp =>
    obtain ⟨k, call, _, hk, _, _, hrpc⟩ := hev
    exact hreply hk T (by rw [hrpc]; exact hT)
  | installReply peer req resp =>
    obtain ⟨k, call, _, hk, _, _, hrpc⟩ := hev
    exact hreply hk T (by rw [hrpc]; exact hT)
  | confirmReply term resp =>
    obtain ⟨k, call, _, hk, _, req, read, hrpc, _⟩ := hev
    exact hreply hk T (by rw [hrpc]; exact hT)
  | _ => cases hT

/-- Only the leader of a term sends in it, and not to itself. -/
theorem Reigns.unrivalled (h : Reigns S l t w) (hS : Fixed S members) {ev : Event}
    (hev : Hears w act l ev) (hld : fromLeader ev = true) : carriedTerm ev ≠ some t := by
  obtain ⟨a, hw⟩ := h.reached.rel hS
  obtain ⟨Q, hwon⟩ := ((hw.node_rel h.up).leader h.leads).won
  rw [h.term_eq] at hwon
  -- the sender has won the term of the request
  have hrival : ∀ {k : Nat} {call : Call} {T : Int}, w.calls[k]? = some call → call.dst = l →
      (∃ Q, a.won T call.src Q) → some T ≠ some t := by
    rintro k call T hk hdst ⟨Q', hwon'⟩ hT
    cases hT
    have hsrc := (hw.good.inv.ballots.won_unique hwon' hwon).1
    exact (hw.calls call (List.mem_of_getElem? hk)).1 (hsrc.trans hdst.symm)
  cases ev with
  | appendEntries req =>
    obtain ⟨k, call, _, hk, _, hdst, resp, read, hrpc⟩ := hev
    have hrel := (hw.calls call (List.mem_of_getElem? hk)).2
    rw [hrpc] at hrel
    exact hrival hk hdst hrel.1.1
  | installSnapshot req =>
    obtain ⟨k, call, _, hk, _, hdst, resp, hrpc⟩ := hev
    have hrel := (hw.calls call (List.mem_of_getElem? hk)).2
    rw [hrpc] at hrel
    exact hrival hk hdst hrel.1.2.1
  | _ => cases hld

/-! ## Steps -/

/-- Nobody opens an election in this step. -/
def Peaceful (w : World σ) (act : Action) : Prop :=
  ∀ p, act.ticks = some (p, true) → (w.node p).state = .leader

/-- The process that the action ends. -/
def kills (w : World σ) : Action → Option String
  | .crash id => some id
  | .crashDuring a _ => actor w a
  | _ => none

theorem Reigns.heard_nodes (h : Reigns S l t w) (hS : Fixed S members) (hheard : Heard act w w')
    (hcalm : Peaceful w act) (p : String) : TermLe t (w'.node p) := by
  obtain ⟨gs, stopped, ev, _, hev, heq⟩ := hheard.node p
  have hn : TermLe t { w.node p with goroutines := gs, stopped := stopped } :=
    ⟨(h.nodes p).term, (h.nodes p).saved⟩
  rw [heq]
  refine hn.handle (h.upTo hS hev) ?_
  rintro rfl
  obtain rfl : act = .tick p true := hev
  exact hcalm p rfl

theorem saved_cutSaves {before after : Option Storage} {saves : Nat} {d : DurableState}
    (hd : d ∈ ((World.cutSaves before after saves).map (·.saved)).getD []) :
    d ∈ (after.map (·.saved)).getD [] := by
  unfold World.cutSaves at hd
  split at hd
  · exact List.mem_of_mem_drop hd
  · exact hd

/-- A process that ends leaves what it has saved. -/
theorem termLe_crashed {v : World σ} {id : String} {storage : Option Storage}
    (hnodes : ∀ p, TermLe t (v.node p))
    (hst : ∀ d ∈ (storage.map (·.saved)).getD [], d.currentTerm ≤ t) (p : String) :
    TermLe t ((v.crashed id storage).node p) := by
  show TermLe t (Function.update v.node id { v.node id with storage := storage } p)
  by_cases hp : p = id
  · subst hp
    rw [Function.update_self]
    exact ⟨(hnodes p).term, hst⟩
  · rw [Function.update_of_ne hp]
    exact hnodes p

theorem Reigns.step_nodes (h : Reigns S l t w) (hS : Fixed S members) (hcalm : Peaceful w act)
    (hstep : step S w act = some w') (p : String) : TermLe t (w'.node p) := by
  cases hproc : act.ofProcess with
  | false => exact h.heard_nodes hS (heard_step hstep hproc) hcalm p
  | true =>
    cases stepped_of_step hstep with
    | crash => exact termLe_crashed h.nodes (h.nodes _).saved p
    | @crashDuring inner saves id v hid hv =>
      -- the section that is cut short is one of a node that runs
      have hinner : inner.ofProcess = false := by
        cases inner with
        | crash => cases hid
        | crashDuring => cases hid
        | restart => cases hid
        | _ => rfl
      have hnodes : ∀ q, TermLe t (v.node q) := h.heard_nodes hS (heard_step hv hinner) hcalm
      obtain ⟨calls, hcons⟩ := consume_eq w inner
      refine termLe_crashed (v := consume w inner) ?_ ?_ p
      · rw [hcons]
        exact h.nodes
      · exact fun d hd => (hnodes id).saved d (saved_cutSaves hd)
    | @restart id =>
      show TermLe t (Function.update w.node id _ p)
      by_cases hp : p = id
      · subst hp
        rw [Function.update_self]
        exact termLe_boot _ _ (h.nonneg hS) (h.nodes p).saved
      · rw [Function.update_of_ne hp]
        exact h.nodes p
    | _ => cases hproc

theorem Reigns.step_replies (h : Reigns S l t w) (hstep : step S w act = some w')
    (hnodes : ∀ p, TermLe t (w'.node p)) :
    ∀ call ∈ w'.calls, ∀ T, call.rpc.replied = some T → T ≤ t := by
  intro call' hmem T hT
  obtain ⟨k, hk⟩ := List.getElem?_of_mem hmem
  rcases (calls_step hstep).cases hk with ⟨call, hcall, hkept⟩ | ⟨_, hnew⟩
  · by_cases hact : act = .deliver k
    · subst hact
      rw [replied_deliver hstep hk, Option.some.injEq] at hT
      exact hT ▸ (hnodes call'.dst).term
    · rw [hkept.rpc_eq hact] at hT
      exact h.replies call (List.mem_of_getElem? hcall) T hT
  · rw [replied_of_unanswered hnew.answered] at hT
    cases hT

theorem up_of_not_killed {p : String} (hstep : step S w act = some w') (hup : w.up p = true)
    (hkill : kills w act ≠ some p) : w'.up p = true := by
  cases hproc : act.ofProcess with
  | false => rw [(heard_step hstep hproc).up_eq, hup]
  | true =>
    cases stepped_of_step hstep with
    | @crash id =>
      have hne : p ≠ id := fun h => hkill (by rw [h]; rfl)
      simpa [World.crashed, hne] using hup
    | @crashDuring inner saves id v hid hv =>
      have hne : p ≠ id := fun h => hkill (by rw [h]; exact hid)
      obtain ⟨calls, hcons⟩ := consume_eq w inner
      simpa [World.crashed, hne, hcons] using hup
    | @restart id =>
      show Function.update w.up id true p = true
      by_cases hp : p = id
      · rw [hp, Function.update_self]
      · rw [Function.update_of_ne hp, hup]
    | _ => cases hproc

/-- **A step without an election leaves the leader in place.** -/
theorem Reigns.step (h : Reigns S l t w) (hS : Fixed S members) (hok : NoChange w act)
    (hcalm : Peaceful w act) (hkill : kills w act ≠ some l)
    (hstep : Cluster.step S w act = some w') :
    Reigns S l t w' := by
  have hup := up_of_not_killed hstep h.up hkill
  have hact : act ≠ .restart l := by
    rintro rfl
    cases stepped_of_step hstep with
    | restart hdown => rw [h.up] at hdown; cases hdown
  obtain ⟨_, gs, stopped, ev, _, hev, heq⟩ := step_heard hstep hup hact
  have hnodes := h.step_nodes hS hcalm hstep
  have hrole :=
    (handle_role { w.node l with goroutines := gs, stopped := stopped } ev).leads h.leads
    (by rw [show RaftNode.currentTerm _ = t from h.term_eq]; exact h.upTo hS hev)
    (fun hld => by
      rw [show RaftNode.currentTerm _ = t from h.term_eq]
      exact h.unrivalled hS hev hld)
  rw [← heq] at hrole
  exact ⟨h.reached.step hok hstep, hup, hrole.1, hrole.2.trans h.term_eq, hnodes,
    h.step_replies hstep hnodes⟩

/-! ## In time -/

/-- When each node last handled a request of the leader of term `t`, or was started. -/
def heardAfter (t : Int) (c : Timed σ) (heard : String → Int) : TimedAction → String → Int
  | .act (.deliver k) _ =>
    match c.world.calls[k]? with
    | none => heard
    | some call =>
      if fromLeader call.rpc.received && decide (call.rpc.asked = t) then
        Function.update heard call.dst c.now
      else heard
  | .act (.restart id) _ => Function.update heard id c.now
  | _ => heard

/-- A cluster, and when its nodes have last heard of the leader. -/
abbrev Attentive (σ : Type) := (String → Int) × Timed σ

def attentiveStep (S : Setup σ) (T : String → Timeouts) (t : Int) (s : Attentive σ)
    (x : TimedAction) :
    Option (Attentive σ) :=
  (timedStep S T s.2 x).map (fun c => (heardAfter t s.2 s.1 x, c))

/-- Nobody changes the membership, `l` lives on, and every other node that ticks has heard of the
leader within its shortest election timeout. -/
def Attended (T : String → Timeouts) (l : String) (s : Attentive σ) : TimedAction → Prop
  | .act a _ => NoChange s.2.world a ∧ kills s.2.world a ≠ some l ∧
      ∀ p b, a.ticks = some (p, b) → p ≠ l → s.2.now < s.1 p + (T p).electionTimeoutMin
  | .elapse _ => True

/-- The deadlines of all nodes are later than what they have heard. -/
def Punctual (T : String → Timeouts) (heard : String → Int) (c : Timed σ) : Prop :=
  ∀ p, heard p ≤ c.now ∧ heard p + (T p).electionTimeoutMin ≤ (c.timers p).electionDeadline

/-- Who hears of the leader sets its timer. -/
theorem heardAfter_cases (hnodes : ∀ p, TermLe t (c.world.node p)) (heard : String → Int)
    (x : TimedAction) (p : String) : heardAfter t c heard x p = heard p ∨
      heardAfter t c heard x p = c.now ∧ resetsAt c p x = true := by
  unfold heardAfter
  split
  · next k r =>
    cases hk : c.world.calls[k]? with
    | none => exact Or.inl rfl
    | some call =>
      dsimp only
      split
      · next hcur =>
        by_cases hp : p = call.dst
        · subst hp
          refine Or.inr ⟨Function.update_self .., ?_⟩
          have hle := (hnodes call.dst).term
          simp only [resetsAt, sectionOf, hk, Option.map_some, Option.any_some, decide_true,
            Bool.true_and]
          cases hrpc : call.rpc with
          | requestVote req resp =>
            rw [hrpc] at hcur
            cases hcur
          | appendEntries req resp read =>
            simp only [hrpc, Rpc.received, fromLeader, Rpc.asked, Bool.true_and,
              decide_eq_true_eq] at hcur
            simpa [Rpc.received, resets, hcur] using hle
          | installSnapshot req resp =>
            simp only [hrpc, Rpc.received, fromLeader, Rpc.asked, Bool.true_and,
              decide_eq_true_eq] at hcur
            simpa [Rpc.received, resets, hcur] using hle
        · exact Or.inl (Function.update_of_ne hp ..)
      · exact Or.inl rfl
  · next id r =>
    by_cases hp : p = id
    · subst hp
      exact Or.inr ⟨Function.update_self .., by simp [resetsAt, sectionOf, resets]⟩
    · exact Or.inl (Function.update_of_ne hp ..)
  · exact Or.inl rfl

theorem Punctual.step {heard : String → Int} (h : Punctual T heard c)
    (hnodes : ∀ p, TermLe t (c.world.node p)) (hstep : timedStep S T c x = some c') :
    Punctual T (heardAfter t c heard x) c' := by
  intro p
  have hnow := now_step hstep
  obtain ⟨hle, hd⟩ := h p
  rcases heardAfter_cases hnodes heard x p with heq | ⟨heq, hset⟩
  · rw [heq]
    exact ⟨hle.trans hnow, deadline_ge_step hstep hd (by omega)⟩
  · rw [heq]
    exact ⟨hnow, (deadline_of_resetsAt hstep hset).2.1⟩

/-- Nobody but a leader finds its deadline passed. -/
theorem Attended.peaceful {heard : String → Int} {a : Action} {r : Nat}
    (h : Attended T l (heard, c) (.act a r))
    (hdue : ∀ p b, a.ticks = some (p, b) → b = due (c.world.node p) (c.timers p) c.now)
    (hl : (c.world.node l).state = .leader) (hpunct : Punctual T heard c) : Peaceful c.world a := by
  intro p hp
  by_cases hpl : p = l
  · rw [hpl]
    exact hl
  have hbefore : c.now < (c.timers p).electionDeadline :=
    (h.2.2 p true hp hpl).trans_le (hpunct p).2
  refine calm_of_before (c.timers p) hbefore (fun b hb => ?_) rfl
  cases hb
  exact hdue p true hp

/-- **A leader that is heard in time stays the leader**, and nobody gets beyond its term. -/
theorem heard_leader_stays (hS : Fixed S members) {now : Int} {r : String → Nat}
    {xs' : List TimedAction} {heard heard' : String → Int}
    (hbefore : TimedRun S T (Paced NoChange) (Timed.init S T now r) xs c)
    (hup : c.world.up l = true)
    (hlead : (c.world.node l).state = .leader)
    (hnodes : ∀ p, TermLe (c.world.node l).currentTerm (c.world.node p))
    (hreplies : ∀ call ∈ c.world.calls, ∀ t, call.rpc.replied = some t →
      t ≤ (c.world.node l).currentTerm)
    (hpunct : Punctual T heard c)
    (hrun : StepPath (attentiveStep S T (c.world.node l).currentTerm) (Attended T l) (heard, c) xs'
      (heard', c')) :
    (c'.world.up l = true ∧ (c'.world.node l).state = .leader ∧
      (c'.world.node l).currentTerm = (c.world.node l).currentTerm) ∧
    ∀ p, (c'.world.node p).currentTerm ≤ (c.world.node l).currentTerm := by
  have hpres : ∀ s y s', (Reigns S l (c.world.node l).currentTerm s.2.world ∧ Punctual T s.1 s.2) →
      Attended T l s y → attentiveStep S T (c.world.node l).currentTerm s y = some s' →
      Reigns S l (c.world.node l).currentTerm s'.2.world ∧ Punctual T s'.1 s'.2 := by
    rintro ⟨h, v⟩ y s' ⟨hreign, hp⟩ hatt hstep
    obtain ⟨v', hv, rfl⟩ := Option.map_eq_some_iff.mp hstep
    refine ⟨?_, hp.step hreign.nodes hv⟩
    cases timedStepped_of_step hv with
    | act hdue hw =>
      exact hreign.step hS hatt.1 (hatt.peaceful hdue hreign.leads hp) hatt.2.1 hw
    | elapse => exact hreign
  have hstart : Reigns S l (c.world.node l).currentTerm c.world :=
    ⟨Timed.run_world hbefore, hup, hlead, rfl, hnodes, hreplies⟩
  obtain ⟨hreign, _⟩ := hrun.invariant hpres ⟨hstart, hpunct⟩
  exact ⟨⟨hreign.up, hreign.leads, hreign.term_eq⟩, fun p => (hreign.nodes p).term⟩

/-! `n1` has been elected. Its first request reaches `n2` in time. -/

def electedInTime : List TimedAction :=
  [.elapse 150000000, .act (.tick "n1" true) 7, .act (.go "n1" 0) 0, .act (.deliver 0) 5,
    .act (.reply 0) 0]

def heardInTime : List TimedAction :=
  [.act (.go "n1" 1) 0, .elapse 50000000, .act (.deliver 1) 0, .act (.tick "n2" false) 0,
    .act (.reply 1) 0]

def sampleElected : Timed Unit :=
  (Timed.init sample usualTimeouts 0 (fun _ => 0)).after sample usualTimeouts electedInTime

theorem electedInTime_exec : exec (timedStep sample usualTimeouts)
    (Timed.init sample usualTimeouts 0 (fun _ => 0)) electedInTime = some sampleElected :=
  Timed.exec_after (by decide +kernel)

/-- Only the three nodes take part. -/
def amongThree (c : Timed σ) : TimedAction → Bool
  | .act a _ => (touched c.world a).all (· ∈ ["n1", "n2", "n3"])
  | .elapse _ => true

theorem sampleElected_nodes (p : String) : TermLe 1 (sampleElected.world.node p) := by
  by_cases hp : p ∈ ["n1", "n2", "n3"]
  · simp only [List.mem_cons, List.not_mem_nil, or_false] at hp
    rcases hp with rfl | rfl | rfl
    · exact ⟨by decide +kernel, by decide +kernel⟩
    · exact ⟨by decide +kernel, by decide +kernel⟩
    · exact ⟨by decide +kernel, by decide +kernel⟩
  · -- nobody else has been touched
    have hrun : TimedRun sample usualTimeouts (fun c x => amongThree c x = true)
        (Timed.init sample usualTimeouts 0 (fun _ => 0)) electedInTime sampleElected :=
      StepPath.of_checked (fun _ _ h => h) (by decide +kernel) electedInTime_exec
    have hpres : ∀ v y v', TermLe 1 (v.world.node p) → amongThree v y = true →
        timedStep sample usualTimeouts v y = some v' → TermLe 1 (v'.world.node p) := by
      intro v y v' hv hok hstep
      cases timedStepped_of_step hstep with
      | @act a r w' hdue hw =>
        show TermLe 1 (w'.node p)
        rw [node_of_untouched hw]
        · exact hv
        · intro heq
          simp only [amongThree, heq, Option.all_some, decide_eq_true_eq] at hok
          exact hp hok
      | elapse => exact hv
    have hinv := hrun.invariant hpres (termLe_boot _ _ (by decide) (by simp))
    exact hinv

/-- A test for `Attended`. -/
def attends (T : String → Timeouts) (l : String) (s : Attentive σ) : TimedAction → Bool
  | .act (.tick p _) _ => decide (p = l) || decide (s.2.now < s.1 p + (T p).electionTimeoutMin)
  | .act (.go _ _) _ | .act (.deliver _) _ | .act (.reply _) _ | .elapse _ => true
  | _ => false

theorem attended_of_attends (s : Attentive σ) (x : TimedAction) (h : attends T l s x = true) :
    Attended T l s x := by
  unfold attends at h
  split at h
  · refine ⟨trivial, nofun, fun p b hp hne => ?_⟩
    cases hp
    simpa [hne] using h
  · exact ⟨trivial, nofun, nofun⟩
  · exact ⟨trivial, nofun, nofun⟩
  · exact ⟨trivial, nofun, nofun⟩
  · trivial
  · cases h

theorem heard_leader_stays_sample : (sampleElected.world.node "n1").state = .leader ∧
    ∃ heard' c', StepPath (attentiveStep sample usualTimeouts 1) (Attended usualTimeouts "n1")
        (fun _ => 0, sampleElected) heardInTime (heard', c') ∧ heard' "n2" = 200000000 ∧
      (c'.world.up "n1" = true ∧ (c'.world.node "n1").state = .leader ∧
        (c'.world.node "n1").currentTerm = 1) ∧ ∀ p, (c'.world.node p).currentTerm ≤ 1 := by
  have hterm : (sampleElected.world.node "n1").currentTerm = 1 := by decide +kernel
  have hlead : (sampleElected.world.node "n1").state = .leader := by decide +kernel
  have hbefore : TimedRun sample usualTimeouts (Paced NoChange)
      (Timed.init sample usualTimeouts 0 (fun _ => 0)) electedInTime sampleElected :=
    StepPath.of_exec (by simp [electedInTime, Paced, NoChange]) electedInTime_exec
  have hpunct : Punctual usualTimeouts (fun _ => 0) sampleElected := by
    intro p
    refine deadline_ge_run hbefore le_rfl ?_
    exact (electionDeadline_reset (usualTimeouts p) 0 0 _).1
  obtain ⟨⟨heard', c'⟩, hexec⟩ : ∃ s, exec (attentiveStep sample usualTimeouts 1)
      (fun _ => 0, sampleElected) heardInTime = some s :=
    Option.isSome_iff_exists.mp (by decide +kernel)
  have hnote : (exec (attentiveStep sample usualTimeouts 1) (fun _ => 0, sampleElected)
      heardInTime).map
      (fun s => s.1 "n2") = some 200000000 := by decide +kernel
  rw [hexec] at hnote
  have hrun : StepPath (attentiveStep sample usualTimeouts 1) (Attended usualTimeouts "n1")
      (fun _ => 0, sampleElected) heardInTime (heard', c') :=
    StepPath.of_checked attended_of_attends (by decide +kernel) hexec
  refine ⟨hlead, heard', c', hrun, Option.some.inj hnote, ?_⟩
  have hstays := heard_leader_stays sample_fixed hbefore (by decide +kernel) hlead
    (by rw [hterm]; exact sampleElected_nodes) (by rw [hterm]; decide +kernel) hpunct
    (by rw [hterm]; exact hrun)
  rw [hterm] at hstays
  exact hstays

end Cluster
