import RaftStore.Cluster.Requests
import RaftStore.Node.Settle
import RaftStore.Results.Fixed

/-!
# Forwarded requests

A `PUT` request that ends in a `NotLeaderError` is forwarded to the leader. The error means two
things: nothing was appended, or an entry was appended and the node has lost its leadership since.
In the second case the entry may have reached the new leader already, which then appends another
one for the same request, and both are committed (`duplicated_put`).

Where a request is forwarded only if nothing was proposed for it, its steps and those of its forward
append one entry at most (`put_commits_once`).

* `addition`: what a section of a request appends, read off the logs before and after it;
* `PutsOnce`: how often requests propose and are forwarded;
* `Accounted`: what the requests have appended so far, and that they append no more.

All of this depends on nothing but the moves of requests, and holds in every run of every cluster.
-/

namespace Cluster

open Raft Refine

variable {σ : Type} {S : Setup σ} {w w' : World σ} {acts : List Action} {act : Action}
  {p p' : PutOp}
  {k : Nat}

/-! ## What a request gives rise to -/

/-- The index of the last slot of a log. -/
def lastSlot (l : Log) : Int := l.head.index + l.tail.length

/-- What a section of a request does to the log of its node: the last slot before and after it, and
the node's term. `origin` is the request that this one was forwarded for. -/
structure Addition where
  request : Nat
  origin : Option Nat
  before : Int
  after : Int
  term : Int
  deriving DecidableEq

/-- The request whose section an action runs. The process may crash in it. -/
def putOf : Action → Option Nat
  | .stepPut j => some j
  | .crashDuring act _ => putOf act
  | _ => none

/-- What an action appends for a request. A section in which the process crashes counts as a
whole. -/
def addition (S : Setup σ) (w : World σ) (act : Action) : Option Addition :=
  (putOf act).bind (fun j => w.puts[j]?.bind (fun p => (step S w (.stepPut j)).map (fun w' =>
    { request := j
      origin := p.origin
      before := lastSlot (w.node p.node).log
      after := lastSlot (w'.node p.node).log
      term := (w.node p.node).currentTerm })))

/-- What action number `m` of a run appends for a request. -/
def additionAt (S : Setup σ) (acts : List Action) (m : Nat) : Option Addition :=
  (exec (step S) (World.init S) (acts.take m)).bind (fun u => acts[m]?.bind (addition S u))

/-- It is for request number `k`, or for its forward. -/
def Addition.Serves (d : Addition) (k : Nat) : Prop := d.request = k ∨ d.origin = some k

/-- The entries that the steps of request number `k` and of its forward append: the number of the
step, the index and the term. -/
def appendedFor (S : Setup σ) (acts : List Action) (k : Nat) : Set (Nat × Int × Int) :=
  {x | ∃ d, additionAt S acts x.1 = some d ∧ d.Serves k ∧ d.before < x.2.1 ∧ x.2.1 ≤ d.after ∧
    x.2.2 = d.term}

/-- In some state of the run a node takes the index `i` to be committed and has the term `t` there.
-/
def Committed (S : Setup σ) (acts : List Action) (i t : Int) : Prop :=
  ∃ u q, Passes S acts u ∧ u.up q = true ∧ i ≤ (u.node q).commitIndex ∧
    (u.node q).log.termAtLocked i = some t

/-- The committed entries among them. -/
def committedFor (S : Setup σ) (acts : List Action) (k : Nat) : Set (Nat × Int × Int) :=
  {x ∈ appendedFor S acts k | Committed S acts x.2.1 x.2.2}

/-! ## A request that is committed twice

`n1` accepts a request at index 2 in term 1 and sends it to `n2`, which then wins term 2 with `n3`.
When `n1` hears of it, the client's wait ends with the error, and the request is forwarded to `n2`.
-/

def webAddrs : AddrMap := .ofList [("n1", "h1"), ("n2", "h2"), ("n3", "h3")]

def webSample : Setup Unit where
  machine := idle
  config := fun id =>
    { id := id, peerAddrs := threeNodes, snapshotThreshold := 0, httpAddrs := webAddrs }
  encode := fun _ value => value
  httpHost := fun addr => [("h1", "n1"), ("h2", "n2"), ("h3", "n3")].lookup addr

def doubling : List Action :=
  [.tick "n1" true, .go "n1" 0, .deliver 0, .reply 0, .startPut "n1" [0x6b] [7], .stepPut 0,
    .stepPut 0, .go "n1" 1, .deliver 1,
    .tick "n2" true, .go "n2" 1, .deliver 2, .reply 2, .go "n2" 1, .deliver 3,
    .stepPut 0, .stepPut 0, .stepPut 0, .stepPut 0, .stepPut 1, .stepPut 1,
    .reply 3, .go "n2" 2, .deliver 4, .reply 4]

/-- **A request may be committed twice.** -/
theorem duplicated_put : ∃ acts w, Run webSample NoChange (World.init webSample) acts w ∧
    ∃ k, ¬ (committedFor webSample acts k).Subsingleton := by
  have hrun : Run webSample NoChange (World.init webSample) doubling
      (after webSample (World.init webSample) doubling) :=
    run_after (by simp [doubling, NoChange]) (by decide +kernel)
  refine ⟨doubling, _, hrun, 0, fun hone => ?_⟩
  have hcommitted : ∀ {i t : Int},
      i ≤ ((after webSample (World.init webSample) doubling).node "n2").commitIndex →
      ((after webSample (World.init webSample) doubling).node "n2").log.termAtLocked i = some t →
      Committed webSample doubling i t :=
    fun hle hterm => ⟨_, "n2", passes_of_run hrun, by decide +kernel, hle, hterm⟩
  have hfirst : (6, 2, 1) ∈ committedFor webSample doubling 0 :=
    ⟨⟨⟨0, none, 1, 2, 1⟩, by decide +kernel, Or.inl rfl, by decide, by decide, rfl⟩,
      hcommitted (by decide +kernel) (by decide +kernel)⟩
  have hsecond : (20, 4, 2) ∈ committedFor webSample doubling 0 :=
    ⟨⟨⟨1, some 0, 3, 4, 2⟩, by decide +kernel, Or.inr rfl, by decide, by decide, rfl⟩,
      hcommitted (by decide +kernel) (by decide +kernel)⟩
  exact absurd (hone hfirst hsecond) (by decide)

/-! ## Requests that are forwarded once, and only if nothing was proposed -/

/-- The requests of a state: nothing is proposed before its time, and a request was forwarded once,
for a client's request that has proposed nothing and is done. -/
structure PutsOnce (w : World σ) : Prop where
  unproposed : ∀ {k : Nat} {p}, w.puts[k]? = some p → p.phase = .start ∨ p.phase = .propose →
    p.proposed = none
  origin : ∀ {j : Nat} {p k}, w.puts[j]? = some p → p.origin = some k →
    ∃ q, w.puts[k]? = some q ∧ q.phase = .forwarded ∧ q.proposed = none
  once : ∀ {i j : Nat} {p q k}, w.puts[i]? = some p → w.puts[j]? = some q → p.origin = some k →
    q.origin = some k → i = j

theorem PutMove.origin_eq (h : PutMove S w p p') : p'.origin = p.origin := by
  cases h <;> rfl

/-- What is done stays as it is. -/
theorem PutMove.eq_of_not_running (h : PutMove S w p p') (hdone : p.phase.running = false) :
    p' = p := by
  cases h with
  | stays => rfl
  | begins hphase => rw [hphase] at hdone; cases hdone
  | proposes hphase hok => rw [hphase] at hdone; cases hdone
  | succeeds hphase hup happ => rw [hphase] at hdone; cases hdone
  | asks hrun hph => rw [hrun] at hdone; cases hdone
  | forwards hphase => rw [hphase] at hdone; cases hdone
  | ends hrun hph => rw [hrun] at hdone; cases hdone

/-- Nothing returns to the phases before the proposal. -/
theorem PutMove.unproposed (h : PutMove S w p p')
    (hold : p.phase = .start ∨ p.phase = .propose → p.proposed = none)
    (hphase : p'.phase = .start ∨ p'.phase = .propose) : p'.proposed = none := by
  cases h with
  | stays => exact hold hphase
  | begins hstart => exact hold (Or.inl hstart)
  | proposes => simp at hphase
  | succeeds => simp at hphase
  | asks hrun hph => rcases hph with rfl | ⟨_, rfl⟩ | ⟨_, _, rfl⟩ <;> simp at hphase
  | forwards => simp at hphase
  | ends hrun hph => rcases hph with rfl | ⟨_, rfl⟩ <;> simp at hphase

/-- The request that another one was forwarded for stays where it is. -/
theorem PutsStep.forwarded (h : PutsStep S act w w') {q : PutOp} (hq : w.puts[k]? = some q)
    (hphase : q.phase = .forwarded) : w'.puts[k]? = some q := by
  obtain ⟨q', hq', hmove⟩ := h.old hq
  rwa [hmove.eq_of_not_running (by rw [hphase]; rfl)] at hq'

/-- **One step.** -/
theorem PutsOnce.step (h : PutsOnce w) (hfresh : ForwardsFresh S w act)
    (hstep : PutsStep S act w w') : PutsOnce w' := by
  -- a forwarded request is an old one, or it is new and the one it was forwarded for was waiting
  have horigin : ∀ {j : Nat} {p k}, w'.puts[j]? = some p → p.origin = some k →
      (∃ p₀, w.puts[j]? = some p₀ ∧ p₀.origin = some k) ∨
        j = w.puts.length ∧ ∃ q, w.puts[k]? = some q ∧ q.phase ≠ .forwarded ∧
          q.proposed = none ∧ w'.puts[k]? = some { q with phase := .forwarded } := by
    intro j p k hj hk
    rcases hstep.cases hj with ⟨p₀, hp₀, hmove⟩ | ⟨hlen, hnew⟩
    · exact Or.inl ⟨p₀, hp₀, hmove.origin_eq ▸ hk⟩
    · cases hnew with
      | request => cases hk
      | @forward k' q id addr dst key hact hq hphase htarget hkey hdone =>
        cases hk
        subst hact
        refine Or.inr ⟨hlen, q, hq, by rw [hphase]; simp, ?_, hdone⟩
        exact hfresh q id addr hq hphase (by rw [htarget]; rfl)
  refine ⟨fun {k p} hk hphase => ?_, fun {j p k} hj hk => ?_, fun {i j p q k} hi hj hp hq => ?_⟩
  · rcases hstep.cases hk with ⟨p₀, hp₀, hmove⟩ | ⟨_, hnew⟩
    · exact hmove.unproposed (h.unproposed hp₀) hphase
    · cases hnew with
      | request => rfl
      | forward => rfl
  · rcases horigin hj hk with ⟨p₀, hp₀, hk₀⟩ | ⟨_, q, _, _, hprop, hdone⟩
    · obtain ⟨q, hq, hphase, hprop⟩ := h.origin hp₀ hk₀
      exact ⟨q, hstep.forwarded hq hphase, hphase, hprop⟩
    · exact ⟨_, hdone, rfl, hprop⟩
  · rcases horigin hi hp with ⟨p₀, hp₀, hpk⟩ | ⟨hilen, r, hr, hne, _⟩
    · rcases horigin hj hq with ⟨q₀, hq₀, hqk⟩ | ⟨_, r, hr, hne, _⟩
      · exact h.once hp₀ hq₀ hpk hqk
      · obtain ⟨r', hr', hphase, _⟩ := h.origin hp₀ hpk
        rw [hr, Option.some.injEq] at hr'
        exact absurd (hr' ▸ hphase) hne
    · rcases horigin hj hq with ⟨q₀, hq₀, hqk⟩ | ⟨hjlen, _⟩
      · obtain ⟨r', hr', hphase, _⟩ := h.origin hq₀ hqk
        rw [hr, Option.some.injEq] at hr'
        exact absurd (hr' ▸ hphase) hne
      · rw [hilen, hjlen]

theorem PutsOnce.init (S : Setup σ) : PutsOnce (World.init S) := by
  refine ⟨?_, ?_, ?_⟩
  · intro k p hk
    cases hk
  · intro j p k hj
    cases hj
  · intro i j p q k hi
    cases hi

/-! ## What is appended -/

/-- A request that has proposed something, or is lost. It appends nothing more. -/
def PutOp.Spent (p : PutOp) : Prop := p.proposed ≠ none ∨ p.phase = .lost

theorem PutMove.spent (h : PutMove S w p p') (hspent : p.Spent) : p'.Spent := by
  rcases hspent with hprop | hlost
  · cases h with
    | proposes => exact Or.inl (by simp)
    | _ => exact Or.inl hprop
  · rw [h.eq_of_not_running (by rw [hlost]; rfl)]
    exact Or.inr hlost

/-- An accepted command fills one slot. What is compacted with it leaves the last slot where it is.
-/
theorem lastSlot_propose {n : RaftNode σ} {cmd : Bytes} {x : Int × Int}
    (h : (n.propose cmd).2 = .ok x) : lastSlot (n.propose cmd).1.log = lastSlot n.log + 1 := by
  rcases n.propose_cases cmd with ⟨e, heq⟩ | ⟨⟨hstop, hlead⟩, _⟩
  · rw [heq] at h
    cases h
  · obtain ⟨n', heq, hprop⟩ := Node.proposed hlead hstop cmd
    obtain ⟨e, _, _, hlog⟩ := hprop.log
    have hlen := hlog.length_eq
    rw [heq]
    unfold lastSlot
    rw [hlen]
    simp only [Log.append, List.length_append, List.length_singleton]
    omega

/-- **Only the call of `Propose` appends**, and it appends one entry. -/
theorem addition_cases {d : Addition} (h : addition S w act = some d) (hlt : d.before < d.after) :
    ∃ p, putOf act = some d.request ∧ w.puts[d.request]? = some p ∧ p.origin = d.origin ∧
      w.up p.node = true ∧ p.phase = .propose ∧ d.after = d.before + 1 ∧
      ∃ x, ((w.node p.node).propose (S.encode p.key p.value)).2 = .ok x := by
  obtain ⟨j, hj, h⟩ := Option.bind_eq_some_iff.mp h
  obtain ⟨p, hp, h⟩ := Option.bind_eq_some_iff.mp h
  obtain ⟨w', hstep, rfl⟩ := Option.map_eq_some_iff.mp h
  dsimp only at hlt ⊢
  have hsame : ∀ {v : World σ}, v.node p.node = w.node p.node →
      ¬ lastSlot (w.node p.node).log < lastSlot (v.node p.node).log := by
    intro v heq
    rw [heq]
    exact lt_irrefl _
  cases stepped_of_step hstep with
  | stepPut hk hup hrun =>
    rw [hp, Option.some.injEq] at hk
    subst hk
    cases putSection_of_runPut hrun with
    | accepted hphase hok =>
      refine ⟨p, hj, hp, rfl, hup, hphase, ?_, _, hok⟩
      rw [← lastSlot_propose hok]
      exact congrArg (fun n : RaftNode σ => lastSlot n.log) (Function.update_self ..)
    | refused hphase hph herr =>
      refine absurd hlt (hsame ((Function.update_self ..).trans ?_))
      rcases (w.node p.node).propose_cases (S.encode p.key p.value) with ⟨e, heq⟩ | ⟨_, heq⟩
      · rw [heq]
      · rw [heq] at herr
        cases herr
    | _ => exact absurd hlt (hsame rfl)

/-- The request that has appended something is spent. -/
theorem spent_of_addition {d : Addition} (h : addition S w act = some d) (hlt : d.before < d.after)
    (hstep : step S w act = some w') :
    ∃ p, w'.puts[d.request]? = some p ∧ p.origin = d.origin ∧ p.Spent := by
  obtain ⟨p, hput, hp, horigin, hup, hphase, _, ⟨i, t⟩, hok⟩ := addition_cases h hlt
  cases stepped_of_step hstep with
  | @stepPut k q _ hk _ hrun =>
    obtain rfl : k = d.request := Option.some.inj hput
    rw [hp, Option.some.injEq] at hk
    subst hk
    unfold World.runPut at hrun
    rw [hphase] at hrun
    dsimp only at hrun
    rw [hok] at hrun
    cases hrun
    exact ⟨_, List.getElem?_set_self (List.getElem?_eq_some_iff.mp hp).1, horigin, Or.inl (by simp)⟩
  | @crashDuring inner saves id v hid =>
    -- the request was running at the node that has crashed
    have hnode : p.node = id := by
      cases inner with
      | stepPut k =>
        obtain rfl : k = d.request := Option.some.inj hput
        change w.puts[d.request]?.map (·.node) = some id at hid
        rw [hp] at hid
        exact Option.some.inj hid
      | crashDuring => cases hid
      | _ => cases hput
    obtain ⟨calls, hcons⟩ := consume_eq w inner
    refine ⟨{ p with phase := .lost }, ?_, horigin, Or.inr rfl⟩
    rw [hcons]
    show (w.puts.map _)[d.request]? = _
    rw [List.getElem?_map, hp, Option.map_some, if_pos ⟨hnode, by rw [hphase]; rfl⟩]
  | _ => cases hput

/-- What the requests have appended so far: each of them one entry at most, and whoever has is
spent. -/
structure Accounted (S : Setup σ) (acts : List Action) (w : World σ) : Prop where
  spent : ∀ {m : Nat} {d}, additionAt S acts m = some d → d.before < d.after →
    d.after = d.before + 1 ∧ ∃ p, w.puts[d.request]? = some p ∧ p.origin = d.origin ∧ p.Spent
  once : ∀ {m m' : Nat} {d d'}, additionAt S acts m = some d → additionAt S acts m' = some d' →
    d.before < d.after → d'.before < d'.after → d.request = d'.request → m = m'

/-- What a longer run appends: the last action may add to it. -/
theorem additionAt_snoc {m : Nat} {d : Addition}
    (hexec : exec (step S) (World.init S) acts = some w)
    (h : additionAt S (acts ++ [act]) m = some d) :
    additionAt S acts m = some d ∨ m = acts.length ∧ addition S w act = some d := by
  unfold additionAt at h ⊢
  rcases Nat.lt_trichotomy m acts.length with hlt | rfl | hgt
  · rw [List.take_append_of_le_length hlt.le, List.getElem?_append_left hlt] at h
    exact Or.inl h
  · rw [List.take_left, hexec, Option.bind_some, List.getElem?_concat_length, Option.bind_some] at h
    exact Or.inr ⟨rfl, h⟩
  · obtain ⟨u, _, h⟩ := Option.bind_eq_some_iff.mp h
    rw [List.getElem?_eq_none (by simp; omega)] at h
    cases h

/-- **One step.** A request that appends something was about to propose, and so had not done it
before. -/
theorem Accounted.step (h : Accounted S acts w) (hputs : PutsOnce w)
    (hexec : exec (step S) (World.init S) acts = some w) (hstep : step S w act = some w') :
    Accounted S (acts ++ [act]) w' := by
  have hfresh : ∀ {m : Nat} {d d'}, additionAt S acts m = some d → addition S w act = some d' →
      d.before < d.after → d'.before < d'.after → d.request ≠ d'.request := by
    intro m d d' hd hd' hlt hlt' heq
    obtain ⟨_, p, hp, _, hspent⟩ := h.spent hd hlt
    obtain ⟨q, _, hq, _, _, hphase, _⟩ := addition_cases hd' hlt'
    rw [heq, hq, Option.some.injEq] at hp
    subst hp
    rcases hspent with hprop | hlost
    · exact hprop (hputs.unproposed hq (Or.inr hphase))
    · rw [hphase] at hlost
      cases hlost
  refine ⟨fun {m d} hd hlt => ?_, fun {m m' d d'} hd hd' hlt hlt' heq => ?_⟩
  · rcases additionAt_snoc hexec hd with hd | ⟨_, hd⟩
    · obtain ⟨hone, p, hp, horigin, hspent⟩ := h.spent hd hlt
      obtain ⟨p', hp', hmove⟩ := (puts_step hstep).old hp
      exact ⟨hone, p', hp', hmove.origin_eq.trans horigin, hmove.spent hspent⟩
    · obtain ⟨_, _, _, _, _, _, hone, _⟩ := addition_cases hd hlt
      exact ⟨hone, spent_of_addition hd hlt hstep⟩
  · rcases additionAt_snoc hexec hd with hd | ⟨hm, hd⟩
    · rcases additionAt_snoc hexec hd' with hd' | ⟨_, hd'⟩
      · exact h.once hd hd' hlt hlt' heq
      · exact absurd heq (hfresh hd hd' hlt hlt')
    · rcases additionAt_snoc hexec hd' with hd' | ⟨hm', _⟩
      · exact absurd heq.symm (hfresh hd' hd hlt' hlt)
      · rw [hm, hm']

theorem accounted_init (S : Setup σ) : Accounted S [] (World.init S) := by
  have hnone : ∀ {m : Nat} {d}, ¬ additionAt S [] m = some d := by
    intro m d h
    obtain ⟨u, _, h⟩ := Option.bind_eq_some_iff.mp h
    cases h
  exact ⟨fun hd => absurd hd hnone, fun hd => absurd hd hnone⟩

/-- **Every run.** -/
theorem accounted_of_run (hrun : Run S (ForwardsFresh S) (World.init S) acts w) :
    PutsOnce w ∧ Accounted S acts w := by
  have hinv := hrun.invariant_along
    (I := fun acts w => exec (step S) (World.init S) acts = some w ∧ PutsOnce w ∧
      Accounted S acts w)
    (fun acts w act w' h hfresh hstep => ?_) ⟨rfl, PutsOnce.init S, accounted_init S⟩
  · exact hinv.2
  · obtain ⟨hexec, hputs, hacc⟩ := h
    have hpast : Run S (fun _ _ => True) (World.init S) acts w :=
      StepPath.of_exec (fun _ _ _ => trivial) hexec
    exact ⟨(hpast.append (.cons trivial hstep (.nil _))).exec_eq,
      hputs.step hfresh (puts_step hstep), hacc.step hputs hexec hstep⟩

/-- Only one of the requests that serve request number `k` appends something: the request that was
forwarded has not. -/
theorem Accounted.request_eq (h : Accounted S acts w) (hputs : PutsOnce w) {m m' : Nat}
    {d d' : Addition} (hd : additionAt S acts m = some d) (hd' : additionAt S acts m' = some d')
    (hlt : d.before < d.after) (hlt' : d'.before < d'.after) (hk : d.Serves k) (hk' : d'.Serves k) :
    d.request = d'.request := by
  obtain ⟨_, p, hp, horigin, hspent⟩ := h.spent hd hlt
  obtain ⟨_, p', hp', horigin', hspent'⟩ := h.spent hd' hlt'
  have hmixed : ∀ {q q' : PutOp} {j : Nat}, w.puts[k]? = some q → q.Spent → w.puts[j]? = some q' →
      q'.origin = some k → False := by
    intro q q' j hq hspent hq' hqk
    obtain ⟨r, hr, hphase, hnone⟩ := hputs.origin hq' hqk
    rw [hq, Option.some.injEq] at hr
    subst hr
    rcases hspent with hprop | hlost
    · exact hprop hnone
    · rw [hphase] at hlost
      cases hlost
  rcases hk with hk | hk
  · rcases hk' with hk' | hk'
    · exact hk.trans hk'.symm
    · exact (hmixed (hk ▸ hp) hspent hp' (horigin'.trans hk')).elim
  · rcases hk' with hk' | hk'
    · exact (hmixed (hk' ▸ hp') hspent' hp (horigin.trans hk)).elim
    · exact hputs.once hp hp' (horigin.trans hk) (horigin'.trans hk')

/-- **No duplicated update.** If a request is forwarded only where nothing has been proposed for
it, its steps and those of its forward append one entry at most. So one is committed at most. -/
theorem put_commits_once (hrun : Run S (ForwardsFresh S) (World.init S) acts w) (k : Nat) :
    (appendedFor S acts k).Subsingleton ∧ (committedFor S acts k).Subsingleton := by
  obtain ⟨hputs, hacc⟩ := accounted_of_run hrun
  have hone : (appendedFor S acts k).Subsingleton := by
    rintro ⟨m, i, t⟩ ⟨d, hd, hk, hlo, hhi, ht⟩ ⟨m', i', t'⟩ ⟨d', hd', hk', hlo', hhi', ht'⟩
    dsimp only at hd hd' hlo hlo' hhi hhi' ht ht'
    have hlt : d.before < d.after := by omega
    have hlt' : d'.before < d'.after := by omega
    have hm : m = m' := hacc.once hd hd' hlt hlt' (hacc.request_eq hputs hd hd' hlt hlt' hk hk')
    subst hm
    rw [hd, Option.some.injEq] at hd'
    subst hd'
    have hslot := (hacc.spent hd hlt).1
    rw [ht, ht', show i = i' by omega]
  exact ⟨hone, hone.anti (Set.sep_subset _ _)⟩

/-! `n3` is asked, knows `n1` as the leader, and forwards the request. -/

def forwarding : List Action :=
  [.tick "n1" true, .go "n1" 1, .deliver 0, .reply 0, .go "n1" 2, .deliver 1, .reply 1,
    .startPut "n3" [0x6b] [7], .stepPut 0, .stepPut 0, .stepPut 0, .stepPut 0, .stepPut 1,
      .stepPut 1,
    .go "n1" 1, .deliver 2, .reply 2]

theorem put_commits_once_sample :
    (13, 2, 1) ∈ appendedFor webSample forwarding 0 ∧
      (appendedFor webSample forwarding 0).Subsingleton ∧
      (committedFor webSample forwarding 0).Subsingleton :=
  ⟨⟨⟨1, some 0, 1, 2, 1⟩, by decide +kernel, Or.inr rfl, by decide, by decide, rfl⟩,
    put_commits_once (run_checked (fun _ _ => forwardsFresh_of_freshlyRedirected)
      (by decide +kernel) (by decide +kernel)) 0⟩

end Cluster
