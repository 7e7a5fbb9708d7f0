import RaftStore.Cluster.World

/-!
# What a step of the cluster can do

`step` and the sections of the client calls are functions with many branches. Here each of them is
taken apart once, as an inductive predicate with one constructor for every outcome: the conditions
under which it happens, and the cluster after it.

* `getSection_of_runGet`, `putSection_of_runPut`: a section of a `Get` or of a `PUT` request;
* `stepped_of_step`: a step of the cluster.

Whatever is shown of all steps is shown by cases on these predicates.
-/

namespace Cluster

open Raft

variable {σ : Type} {S : Setup σ} {w w' : World σ} {k : Nat} {act : Action}

/-! ## Sections of the client calls -/

/-- **What a section of a `Get` can do**: the phase it is in, and the cluster after it. -/
inductive GetSection (w : World σ) (k : Nat) (g : GetOp σ) : World σ → Prop
  | polls (hphase : g.phase = .waitCurrentTerm) :
      GetSection w k g (w.setNode g.node (w.node g.node).waitCurrentTermPoll.1)
  | polled (hphase : g.phase = .waitCurrentTerm) {ph : GetPhase σ}
      (hph : ph = .capture ∨ ∃ e, ph = .failed e) :
      GetSection w k g
        ((w.setNode g.node (w.node g.node).waitCurrentTermPoll.1).setGet k { g with phase := ph })
  | fails (e : Err) : GetSection w k g (w.setGet k { g with phase := .failed e })
  | captures (hphase : g.phase = .capture) (hld : (w.node g.node).state = .leader) :
      GetSection w k g
        (w.setGet k
          { g with phase := .confirm (w.node g.node).commitIndex (w.node g.node).currentTerm })
  | alone {readIndex term : Int} (hphase : g.phase = .confirm readIndex term)
      (hmaj : (w.node g.node).majority ≤ 1) :
      GetSection w k g (w.setGet k { g with phase := .waitApplied readIndex })
  | asks {readIndex term : Int} (hphase : g.phase = .confirm readIndex term) :
      GetSection w k g
        (w.setGet k
          { g with
            phase := .collect readIndex 1
              ((w.node g.node).peerIDs.filter (· ≠ (w.node g.node).id)).length
              (w.node g.node).majority
            beats := ((w.node g.node).peerIDs.filter (· ≠ (w.node g.node).id)).map
              (fun p => (p, term)) })
  | confirmed {readIndex : Int} {acks pending majority : Nat} {ok : Bool} {rest : List Bool}
      (hphase : g.phase = .collect readIndex acks pending majority) (hres : g.results = ok :: rest)
      (hmaj : majority ≤ if ok then acks + 1 else acks) :
      GetSection w k g (w.setGet k { g with phase := .waitApplied readIndex, results := rest })
  | disproved {ok : Bool} {rest : List Bool} (hres : g.results = ok :: rest) :
      GetSection w k g (w.setGet k { g with phase := .failed .staleLeader, results := rest })
  | collects {readIndex : Int} {acks pending majority : Nat} {ok : Bool} {rest : List Bool}
      (hphase : g.phase = .collect readIndex acks pending majority)
      (hres : g.results = ok :: rest) :
      GetSection w k g
        (w.setGet k
          { g with
            phase := .collect readIndex (if ok then acks + 1 else acks) (pending - 1) majority
            results := rest })
  | waits : GetSection w k g w
  | applied {readIndex : Int} (hphase : g.phase = .waitApplied readIndex)
      (happ : readIndex ≤ (w.node g.node).lastApplied) :
      GetSection w k g (w.setGet k { g with phase := .checkState })
  | checks (hphase : g.phase = .checkState) :
      GetSection w k g (w.setGet k { g with phase := .read })
  | reads (hphase : g.phase = .read) :
      GetSection w k g (w.setGet k { g with phase := .done (w.node g.node).machine })

/-- The phase that a section of a read goes through. -/
theorem getSection_of_runGet {g : GetOp σ} (h : w.runGet k g = some w') : GetSection w k g w' := by
  unfold World.runGet at h
  -- one case for each phase, in the order in which a call goes through them
  split at h
  -- the wait for an entry of the present term
  · next hphase =>
    dsimp only at h
    split at h
    · cases h
      exact .polled hphase (Or.inl rfl)
    · cases h
      exact .polled hphase (Or.inr ⟨_, rfl⟩)
    · cases h
      exact .polls hphase
  -- the commit index is captured, by a leader
  · next hphase =>
    dsimp only at h
    split at h
    · cases h
      exact .fails _
    · next c t hcap =>
      unfold RaftNode.captureReadIndex at hcap
      split at hcap
      · cases hcap
      next hld =>
      cases hcap
      cases h
      exact .captures hphase (not_not.mp hld)
  · next readIndex term hphase =>
    -- a node that does not lead in that term any more gives up
    dsimp only at h
    split at h
    · cases h
      exact .fails _
    next majority peers hpeers =>
    unfold RaftNode.confirmPeers at hpeers
    split at hpeers
    · cases hpeers
    cases hpeers
    split at h
    · next hmaj =>
      cases h
      exact .alone hphase hmaj
    · cases h
      exact .asks hphase
  -- one result of a heartbeat is collected
  · next readIndex acks pending majority hphase =>
    dsimp only at h
    split at h
    · cases h
    next ok rest hres =>
    cases h
    -- the three ways a result may end
    by_cases hmaj : majority ≤ if ok then acks + 1 else acks
    · rw [if_pos hmaj]
      exact .confirmed hphase hres hmaj
    rw [if_neg hmaj]
    by_cases hfew : (if ok then acks + 1 else acks) + (pending - 1) < majority
    · rw [if_pos hfew]
      exact .disproved hres
    · rw [if_neg hfew]
      exact .collects hphase hres
  -- the wait for the machine to catch up
  · next readIndex hphase =>
    dsimp only at h
    split at h
    · next hpoll =>
      cases h
      exact .applied hphase (RaftNode.le_lastApplied_of_poll hpoll)
    · cases h
      exact .fails _
    · cases h
      exact .waits
  -- the last check of the term, and the read itself
  · next hphase =>
    dsimp only at h
    split at h
    · cases h
      exact .fails _
    · cases h
      exact .checks hphase
  · next hphase =>
    cases h
    exact .reads hphase
  · -- a call that has ended takes no step
    cases h

/-- **What a section of a `PUT` request can do.** -/
inductive PutSection (S : Setup σ) (w : World σ) (k : Nat) (p : PutOp) : World σ → Prop
  | begins (hphase : p.phase = .start) :
      PutSection S w k p (w.setPut k { p with phase := .propose })
  | accepted {i t : Int} (hphase : p.phase = .propose)
      (hok : ((w.node p.node).propose (S.encode p.key p.value)).2 = .ok (i, t)) :
      PutSection S w k p
        ((w.setNode p.node ((w.node p.node).propose (S.encode p.key p.value)).1).setPut k
          { p with proposed := some (i, t), phase := .waitApplied i })
  | refused (hphase : p.phase = .propose) {ph : PutPhase}
      (hph : ph = .notLeader ∨ ∃ e, ph = .failed e) {e : Err}
      (herr : ((w.node p.node).propose (S.encode p.key p.value)).2 = .error e) :
      PutSection S w k p
        ((w.setNode p.node ((w.node p.node).propose (S.encode p.key p.value)).1).setPut k
          { p with phase := ph })
  | waits : PutSection S w k p w
  | applied {i : Int} (hphase : p.phase = .waitApplied i)
      (happ : i ≤ (w.node p.node).lastApplied) :
      PutSection S w k p (w.setPut k { p with phase := .ok })
  | asks (hrun : p.phase.running = true) {ph : PutPhase} (hph : ph = .notLeader ∨
      (∃ id, ph = .leaderAddr id) ∨ ∃ id addr, ph = .redirect id addr) :
      PutSection S w k p (w.setPut k { p with phase := ph })
  | fails (hrun : p.phase.running = true) (e : PutErr) :
      PutSection S w k p (w.setPut k { p with phase := .failed e })
  | unrouted {id addr : String} (hphase : p.phase = .redirect id addr) :
      PutSection S w k p (w.setPut k { p with phase := .forwarded })
  | forwards {id addr dst : String} {key : Bytes} (hphase : p.phase = .redirect id addr)
      (hdst : World.forwardTarget S (w.node p.node) p (World.httpAddr S (w.node p.node) id) =
        some dst)
      (hkey : Http.forwardedKey S.httpRedirect .put p.key = some (some (.put, key))) :
      PutSection S w k p
        { w.setPut k { p with phase := .forwarded } with
          puts := (w.setPut k { p with phase := .forwarded }).puts ++
            [{ node := dst, key := key, value := p.value, origin := some k }] }

/-- The phase that a section of a write goes through. -/
theorem putSection_of_runPut {p : PutOp} (h : w.runPut S k p = some w') :
    PutSection S w k p w' := by
  unfold World.runPut at h
  -- the phases of the handler, up to the redirect of a request that met no leader
  split at h
  · next hphase =>
    have hrun : p.phase.running = true := by rw [hphase]; rfl
    dsimp only at h
    split at h
    · cases h
      exact .fails hrun _
    split at h
    · cases h
      exact .asks hrun (Or.inl rfl)
    · cases h
      exact .begins hphase
  -- the proposal, accepted or refused
  · next hphase =>
    dsimp only at h
    split at h
    · next i t hok =>
      cases h
      exact .accepted hphase hok
    · next herr =>
      cases h
      exact .refused hphase (Or.inl rfl) herr
    · next herr =>
      cases h
      exact .refused hphase (Or.inr ⟨_, rfl⟩) herr
  -- the wait for the entry to be applied
  · next i hphase =>
    have hrun : p.phase.running = true := by rw [hphase]; rfl
    dsimp only at h
    split at h
    · next hpoll =>
      cases h
      exact .applied hphase (RaftNode.le_lastApplied_of_poll hpoll)
    · cases h
      exact .asks hrun (Or.inl rfl)
    · cases h
      exact .fails hrun _
    · cases h
      exact .waits
  -- the leader's address is looked up
  · next hphase =>
    cases h
    exact .asks (by rw [hphase]; rfl) (Or.inr (Or.inl ⟨_, rfl⟩))
  · next hphase =>
    cases h
    exact .asks (by rw [hphase]; rfl) (Or.inr (Or.inr ⟨_, _, rfl⟩))
  · next id addr hphase =>
    have hrun : p.phase.running = true := by rw [hphase]; rfl
    dsimp only at h
    split at h
    · cases h
      exact .fails hrun _
    next dst hdst =>
    -- the request is built from the decoded key, which the leader's router reads anew
    split at h
    · cases h
      exact .fails hrun _
    · next key hkey =>
      cases h
      exact .forwards hphase hdst hkey
    · cases h
      exact .unrouted hphase
  · cases h

/-! ## Steps -/

open World in
/-- **What a step can do**: each action with what it requires, and the cluster after it. -/
inductive Stepped (S : Setup σ) (w : World σ) : Action → World σ → Prop
  | tick {id : String} {due : Bool} (hup : w.up id = true) (hrun : (w.node id).stopped = false) :
      Stepped S w (.tick id due) (w.setNode id ((w.node id).tick due))
  | go {id : String} {k : Nat} {g : Goroutine} (hup : w.up id = true)
      (hk : (w.node id).goroutines[k]? = some g) :
      Stepped S w (.go id k)
        ((w.setNode id
          { w.node id with goroutines := (w.node id).goroutines.eraseIdx k }).runGoroutine id g)
  | deliver {k : Nat} {c : Call} (hk : w.calls[k]? = some c) (hpend : c.pending = true)
      (hup : w.up c.dst = true) : Stepped S w (.deliver k) (w.deliverCall k c)
  | reply {k : Nat} {c : Call} {w' : World σ} (hk : w.calls[k]? = some c) (hwait : c.waiting = true)
      (hup : w.up c.src = true) (h : w.replyCall k c = some w') : Stepped S w (.reply k) w'
  | giveUp {k : Nat} {c : Call} (hk : w.calls[k]? = some c) (hwait : c.waiting = true)
      (hup : w.up c.src = true) : Stepped S w (.giveUp k) (w.giveUpCall k c)
  | propose {id : String} {cmd : Bytes} (hup : w.up id = true) :
      Stepped S w (.propose id cmd) (w.setNode id ((w.node id).propose cmd).1)
  | addServer {id target addr http : String} (hup : w.up id = true) :
      Stepped S w (.addServer id target addr http)
        (w.setNode id ((w.node id).addServer target addr http).1)
  | removeServer {id target : String} (hup : w.up id = true) :
      Stepped S w (.removeServer id target) (w.setNode id ((w.node id).removeServer target).1)
  | startGet {id : String} (hup : w.up id = true) :
      Stepped S w (.startGet id) { w with gets := w.gets ++ [{ node := id }] }
  | stepGet {k : Nat} {g : GetOp σ} {w' : World σ} (hk : w.gets[k]? = some g)
      (hup : w.up g.node = true) (h : w.runGet k g = some w') : Stepped S w (.stepGet k) w'
  | beat {k i : Nat} {g : GetOp σ} {w' : World σ} (hk : w.gets[k]? = some g)
      (hup : w.up g.node = true) (h : w.runBeat k g i = some w') : Stepped S w (.beat k i) w'
  | abortGet {k : Nat} {g : GetOp σ} {e : Err} (hk : w.gets[k]? = some g)
      (hup : w.up g.node = true) (hwait : g.phase.waits = true)
      (hend : aborts (w.node g.node) e = true) :
      Stepped S w (.abortGet k e) (w.setGet k { g with phase := .failed e })
  | startPut {id : String} {key body : Bytes} (hup : w.up id = true) :
      Stepped S w (.startPut id key body)
        { w with puts := w.puts ++ [{ node := id, key := key, value := Http.readBody body }] }
  | stepPut {k : Nat} {p : PutOp} {w' : World σ} (hk : w.puts[k]? = some p)
      (hup : w.up p.node = true) (h : w.runPut S k p = some w') : Stepped S w (.stepPut k) w'
  | abortPut {k : Nat} {p : PutOp} {e : Err} {i : Int} (hk : w.puts[k]? = some p)
      (hphase : p.phase = .waitApplied i) (hup : w.up p.node = true)
      (hend : aborts (w.node p.node) e = true) :
      Stepped S w (.abortPut k e) (w.setPut k { p with phase := .failed (.raft e) })
  | stop {id : String} (hup : w.up id = true) :
      Stepped S w (.stop id) (w.setNode id { w.node id with stopped := true })
  | crash {id : String} (hup : w.up id = true) :
      Stepped S w (.crash id) (w.crashed id (w.node id).storage)
  | crashDuring {act : Action} {saves : Nat} {id : String} {w' : World σ}
      (hid : actor w act = some id) (h : step S w act = some w') :
      Stepped S w (.crashDuring act saves)
        ((consume w act).crashed id (cutSaves (w.node id).storage (w'.node id).storage saves))
  | restart {id : String} (hdown : w.up id = false) :
      Stepped S w (.restart id)
        { w with
          node := Function.update w.node id
            (RaftNode.boot S.machine (S.config id) (w.node id).storage)
          up := Function.update w.up id true }

/-- **The cases of a step.** -/
theorem stepped_of_step (h : step S w act = some w') : Stepped S w act w' := by
  -- every branch of `step` is a guard, a lookup, or a guard behind a lookup
  cases act with
  | tick id due =>
    obtain ⟨hok, ⟨⟩⟩ := Option.ite_none_right_eq_some.mp h
    simp only [Bool.and_eq_true, Bool.not_eq_true'] at hok
    exact .tick hok.1 hok.2
  | go id k =>
    obtain ⟨hup, h⟩ := Option.ite_none_right_eq_some.mp h
    obtain ⟨g, hk, rfl⟩ := Option.map_eq_some_iff.mp h
    exact .go hup hk
  | deliver k =>
    obtain ⟨c, hk, h⟩ := Option.bind_eq_some_iff.mp h
    obtain ⟨hok, ⟨⟩⟩ := Option.ite_none_right_eq_some.mp h
    rw [Bool.and_eq_true] at hok
    exact .deliver hk hok.1 hok.2
  | reply k =>
    obtain ⟨c, hk, h⟩ := Option.bind_eq_some_iff.mp h
    obtain ⟨hok, h⟩ := Option.ite_none_right_eq_some.mp h
    rw [Bool.and_eq_true] at hok
    exact .reply hk hok.1 hok.2 h
  | giveUp k =>
    obtain ⟨c, hk, h⟩ := Option.bind_eq_some_iff.mp h
    obtain ⟨hok, ⟨⟩⟩ := Option.ite_none_right_eq_some.mp h
    rw [Bool.and_eq_true] at hok
    exact .giveUp hk hok.1 hok.2
  | propose id cmd =>
    obtain ⟨hup, ⟨⟩⟩ := Option.ite_none_right_eq_some.mp h
    exact .propose hup
  | addServer id target addr http =>
    obtain ⟨hup, ⟨⟩⟩ := Option.ite_none_right_eq_some.mp h
    exact .addServer hup
  | removeServer id target =>
    obtain ⟨hup, ⟨⟩⟩ := Option.ite_none_right_eq_some.mp h
    exact .removeServer hup
  | startGet id =>
    obtain ⟨hup, ⟨⟩⟩ := Option.ite_none_right_eq_some.mp h
    exact .startGet hup
  | stepGet k =>
    obtain ⟨g, hk, h⟩ := Option.bind_eq_some_iff.mp h
    obtain ⟨hup, h⟩ := Option.ite_none_right_eq_some.mp h
    exact .stepGet hk hup h
  | beat k i =>
    obtain ⟨g, hk, h⟩ := Option.bind_eq_some_iff.mp h
    obtain ⟨hup, h⟩ := Option.ite_none_right_eq_some.mp h
    exact .beat hk hup h
  | abortGet k e =>
    obtain ⟨g, hk, h⟩ := Option.bind_eq_some_iff.mp h
    obtain ⟨hok, ⟨⟩⟩ := Option.ite_none_right_eq_some.mp h
    simp only [Bool.and_eq_true] at hok
    exact .abortGet hk hok.1.1 hok.1.2 hok.2
  | startPut id key body =>
    obtain ⟨hup, ⟨⟩⟩ := Option.ite_none_right_eq_some.mp h
    exact .startPut hup
  | stepPut k =>
    obtain ⟨p, hk, h⟩ := Option.bind_eq_some_iff.mp h
    obtain ⟨hup, h⟩ := Option.ite_none_right_eq_some.mp h
    exact .stepPut hk hup h
  | abortPut k e =>
    obtain ⟨p, hk, h⟩ := Option.bind_eq_some_iff.mp h
    split at h
    · next i hphase =>
      obtain ⟨hok, ⟨⟩⟩ := Option.ite_none_right_eq_some.mp h
      rw [Bool.and_eq_true] at hok
      exact .abortPut hk hphase hok.1 hok.2
    · cases h
  | stop id =>
    obtain ⟨hup, ⟨⟩⟩ := Option.ite_none_right_eq_some.mp h
    exact .stop hup
  | crash id =>
    obtain ⟨hup, ⟨⟩⟩ := Option.ite_none_right_eq_some.mp h
    exact .crash hup
  -- the section is carried out in full, and cut afterwards
  | crashDuring act saves =>
    obtain ⟨id, hid, h⟩ := Option.bind_eq_some_iff.mp h
    obtain ⟨v, hv, rfl⟩ := Option.map_eq_some_iff.mp h
    exact .crashDuring hid hv
  | restart id =>
    obtain ⟨hdown, ⟨⟩⟩ := Option.ite_none_left_eq_some.mp h
    exact .restart (Bool.eq_false_iff.mpr hdown)

/-- A message that a crash consumes is taken from the calls, and nothing else happens. -/
theorem consume_eq (w : World σ) (act : Action) :
    ∃ calls, consume w act = { w with calls := calls } := by
  unfold consume
  split
  · split
    · exact ⟨_, rfl⟩
    · exact ⟨w.calls, rfl⟩
  · exact ⟨w.calls, rfl⟩

@[simp] theorem node_result (w : World σ) (read : Nat) (b : Bool) :
    (w.result read b).node = w.node := by
  unfold World.result
  split <;> rfl

@[simp] theorem up_result (w : World σ) (read : Nat) (b : Bool) : (w.result read b).up = w.up := by
  unfold World.result
  split <;> rfl

theorem node_restart {id : String} (h : step S w (.restart id) = some w') :
    w'.node id = RaftNode.boot S.machine (S.config id) (w.node id).storage := by
  cases stepped_of_step h with
  | restart => simp

end Cluster
