import RaftStore.Cluster.Steps

/-!
# The requests of clients

What a step of the cluster may do to the `PUT` requests in progress is said once:

* `PutMove`: one move of a request, from phase to phase;
* `PutNew`: a request that is added, by a client or by a node that forwards one;
* `puts_step`: every step of the cluster consists of these.

What holds of the requests along a run is derived from `puts_step` alone.
-/

namespace Cluster

open Raft

variable {σ : Type} {S : Setup σ} {w w' : World σ} {p p' : PutOp} {k : Nat}
  {act : Action}

/-! ## Moves -/

/-- One move of a request. -/
inductive PutMove (S : Setup σ) (w : World σ) (p : PutOp) : PutOp → Prop
  | stays : PutMove S w p p
  | begins (hphase : p.phase = .start) : PutMove S w p { p with phase := .propose }
  | proposes {i t : Int} (hphase : p.phase = .propose)
      (hok : ((w.node p.node).propose (S.encode p.key p.value)).2 = .ok (i, t)) :
      PutMove S w p { p with proposed := some (i, t), phase := .waitApplied i }
  | succeeds {i : Int} (hphase : p.phase = .waitApplied i) (hup : w.up p.node = true)
      (happ : i ≤ (w.node p.node).lastApplied) : PutMove S w p { p with phase := .ok }
  | asks (hrun : p.phase.running = true) {ph : PutPhase} (hph : ph = .notLeader ∨
      (∃ id, ph = .leaderAddr id) ∨ ∃ id addr, ph = .redirect id addr) :
      PutMove S w p { p with phase := ph }
  | forwards {id addr : String} (hphase : p.phase = .redirect id addr) :
      PutMove S w p { p with phase := .forwarded }
  | ends (hrun : p.phase.running = true) {ph : PutPhase} (hph : ph = .lost ∨ ∃ e, ph = .failed e) :
      PutMove S w p { p with phase := ph }

/-- A request that has succeeded moves no more. -/
theorem PutMove.eq_of_ok (h : PutMove S w p p') (hok : p.phase = .ok) : p' = p := by
  -- a request that has succeeded takes no further step
  cases h with
  | stays => rfl
  | begins hphase => rw [hphase] at hok; cases hok
  | proposes hphase => rw [hphase] at hok; cases hok
  | succeeds hphase => rw [hphase] at hok; cases hok
  | asks hrun => rw [hok] at hrun; cases hrun
  | forwards hphase => rw [hphase] at hok; cases hok
  | ends hrun => rw [hok] at hrun; cases hrun

/-- A request that is added: by a client, or on behalf of request `k`, which is done then. -/
inductive PutNew (S : Setup σ) (act : Action) (w w' : World σ) : PutOp → Prop
  | request (node : String) (key value : Bytes) :
      PutNew S act w w' { node := node, key := key, value := value }
  | forward {k : Nat} {p : PutOp} {id addr : String} (dst : String) (key : Bytes)
      (hact : act = .stepPut k)
      (hk : w.puts[k]? = some p) (hphase : p.phase = .redirect id addr)
      (htarget : World.forwardTarget S (w.node p.node) p (World.httpAddr S (w.node p.node) id) =
        some dst)
      (hkey : Http.forwardedKey S.httpRedirect .put p.key = some (some (.put, key)))
      (hdone : w'.puts[k]? = some { p with phase := .forwarded }) :
      PutNew S act w w' { node := dst, key := key, value := p.value, origin := some k }

theorem PutNew.proposed_eq (h : PutNew S act w w' p) : p.proposed = none := by
  cases h <;> rfl

/-- Every request makes one move, and at most one request is added. -/
structure PutsStep (S : Setup σ) (act : Action) (w w' : World σ) : Prop where
  old : ∀ {k : Nat} {p}, w.puts[k]? = some p → ∃ p', w'.puts[k]? = some p' ∧ PutMove S w p p'
  new : ∀ {k : Nat} {p'}, w'.puts[k]? = some p' → w.puts.length ≤ k →
    k = w.puts.length ∧ PutNew S act w w' p'

/-- A request of the state after the step was there before, or it is new. -/
theorem PutsStep.cases (h : PutsStep S act w w') (hp' : w'.puts[k]? = some p') :
    (∃ p, w.puts[k]? = some p ∧ PutMove S w p p') ∨ k = w.puts.length ∧ PutNew S act w w' p' := by
  rcases Nat.lt_or_ge k w.puts.length with hlt | hge
  · obtain ⟨q, hq, hmove⟩ := h.old (List.getElem?_eq_getElem hlt)
    rw [hp', Option.some.injEq] at hq
    exact Or.inl ⟨_, List.getElem?_eq_getElem hlt, hq ▸ hmove⟩
  · exact Or.inr (h.new hp' hge)

/-- Every request moves in the same way. -/
theorem PutsStep.of_map {f : PutOp → PutOp} (hmove : ∀ p, PutMove S w p (f p))
    (hputs : w'.puts = w.puts.map f) : PutsStep S act w w' := by
  refine ⟨fun {k p} hk => ⟨f p, ?_, hmove p⟩, fun {k p'} hk hle => ?_⟩
  · rw [hputs, List.getElem?_map, hk]
    rfl
  · have hlt := (List.getElem?_eq_some_iff.mp hk).1
    rw [hputs, List.length_map] at hlt
    omega

theorem PutsStep.of_eq (hputs : w'.puts = w.puts) : PutsStep S act w w' :=
  PutsStep.of_map (f := fun p => p) (fun _ => .stays) (by rw [hputs, List.map_id'])

theorem getElem?_singleton_eq_some {j : Nat} (h : [p][j]? = some p') : j = 0 ∧ p' = p := by
  cases j with
  | zero => exact ⟨rfl, (Option.some.inj h).symm⟩
  | succ j => cases h

/-- One request moves, and `more` is added. -/
theorem PutsStep.of_set (hk : w.puts[k]? = some p) (hmove : PutMove S w p p') {more : List PutOp}
    (hputs : w'.puts = w.puts.set k p' ++ more)
    (hmore : ∀ j q, more[j]? = some q → j = 0 ∧ PutNew S act w w' q) : PutsStep S act w w' := by
  refine ⟨fun {j q} hj => ?_, fun {j q} hj hle => ?_⟩
  · have hlt := (List.getElem?_eq_some_iff.mp hj).1
    rw [hputs, List.getElem?_append_left (by simpa using hlt)]
    -- the request that moves, and the others
    by_cases hjk : j = k
    · subst hjk
      rw [hk, Option.some.injEq] at hj
      exact ⟨p', List.getElem?_set_self hlt, hj ▸ hmove⟩
    · rw [List.getElem?_set_ne (Ne.symm hjk)]
      exact ⟨q, hj, .stays⟩
  · rw [hputs, List.getElem?_append_right (by simpa using hle), List.length_set] at hj
    obtain ⟨h0, hnew⟩ := hmore _ q hj
    exact ⟨by omega, hnew⟩

theorem PutsStep.of_setPut (hk : w.puts[k]? = some p) (hmove : PutMove S w p p')
    (hputs : w'.puts = w.puts.set k p') : PutsStep S act w w' :=
  PutsStep.of_set hk hmove (hputs.trans (List.append_nil _).symm) (by intro j q hj; cases hj)

/-! ## Steps that leave the requests alone -/

/-- The result of a heartbeat is no concern of the writes. -/
theorem puts_result (w : World σ) (read : Nat) (b : Bool) : (w.result read b).puts = w.puts := by
  unfold World.result
  split
  · rfl
  · rfl

/-- A goroutine is no concern of the writes. -/
theorem puts_runGoroutine (w : World σ) (id : String) (g : Goroutine) :
    (w.runGoroutine id g).puts = w.puts := by
  unfold World.runGoroutine
  cases g with
  | replicateTo peer =>
    dsimp only
    split
    · rfl
    · rfl
    · rfl
  | replicateToDone peer => rfl
  | sendRequestVote peer req =>
    dsimp only
    split
    · rfl
    · rfl

/-- Nor is a heartbeat of a read. -/
theorem puts_runBeat {g : GetOp σ} {i : Nat} (h : w.runBeat k g i = some w') :
    w'.puts = w.puts := by
  obtain ⟨b, _, rfl⟩ := Option.map_eq_some_iff.mp h
  dsimp only
  split
  · exact puts_result _ k false
  · rfl

/-- Nor is a request between nodes. -/
theorem puts_deliverCall (w : World σ) (k : Nat) (c : Call) :
    (w.deliverCall k c).puts = w.puts := by
  unfold World.deliverCall
  dsimp only
  split
  · rfl
  · rfl
  · rfl

/-- Nor is its reply. -/
theorem puts_replyCall {c : Call} (h : w.replyCall k c = some w') : w'.puts = w.puts := by
  unfold World.replyCall at h
  dsimp only at h
  split at h
  · cases h
    rfl
  · cases h
    rfl
  · cases h
    exact puts_result _ _ _
  · cases h
    rfl
  · cases h

/-- Nor is a call that is given up. -/
theorem puts_giveUpCall (w : World σ) (k : Nat) (c : Call) :
    (w.giveUpCall k c).puts = w.puts := by
  unfold World.giveUpCall
  dsimp only
  split
  · rfl
  · exact puts_result _ _ _
  · rfl
  · rfl

theorem puts_runGet {g : GetOp σ} (h : w.runGet k g = some w') : w'.puts = w.puts := by
  cases getSection_of_runGet h with
  | _ => rfl

/-! ## Every step -/

/-- A section of a request. -/
theorem puts_runPut (hk : w.puts[k]? = some p) (hup : w.up p.node = true)
    (h : w.runPut S k p = some w') : PutsStep S (.stepPut k) w w' := by
  have hmoved : ∀ {v : World σ} {q : PutOp}, PutMove S w p q → v.puts = w.puts.set k q →
      PutsStep S (.stepPut k) w v := fun hmove hputs => PutsStep.of_setPut hk hmove hputs
  cases putSection_of_runPut h with
  | begins hphase => exact hmoved (.begins hphase) rfl
  | accepted hphase hok => exact hmoved (.proposes hphase hok) rfl
  -- a proposal that is refused: by a node that does not lead, or for another reason
  | refused hphase hph =>
    have hrun : p.phase.running = true := by rw [hphase]; rfl
    rcases hph with rfl | ⟨e, rfl⟩
    · exact hmoved (.asks hrun (Or.inl rfl)) rfl
    · exact hmoved (.ends hrun (Or.inr ⟨e, rfl⟩)) rfl
  | waits => exact PutsStep.of_eq rfl
  | applied hphase happ => exact hmoved (.succeeds hphase hup happ) rfl
  | asks hrun hph => exact hmoved (.asks hrun hph) rfl
  | fails hrun e => exact hmoved (.ends hrun (Or.inr ⟨e, rfl⟩)) rfl
  | unrouted hphase => exact hmoved (.forwards hphase) rfl
  | @forwards _ _ dst key hphase hdst hkey =>
    -- the request is handed over, and a new one starts at the other node
    have hlt := (List.getElem?_eq_some_iff.mp hk).1
    refine PutsStep.of_set hk (.forwards hphase) rfl (fun j q hj => ?_)
    obtain ⟨rfl, rfl⟩ := getElem?_singleton_eq_some hj
    refine ⟨rfl, .forward dst key rfl hk hphase hdst hkey ?_⟩
    show (w.puts.set k _ ++ _)[k]? = _
    rw [List.getElem?_append_left (by simpa using hlt), List.getElem?_set_self hlt]

/-- A process crashes, in the middle of a section or between two. -/
theorem puts_crashed (w : World σ) (inner : Action) (id : String) (storage : Option Storage) :
    PutsStep S act w ((consume w inner).crashed id storage) := by
  obtain ⟨calls, hcons⟩ := consume_eq w inner
  refine PutsStep.of_map (f := fun p => if p.node = id ∧ p.phase.running then
    { p with phase := .lost } else p) (fun p => ?_) ?_
  -- the requests at the node are lost with it
  · split
    · next hc => exact .ends hc.2 (Or.inl rfl)
    · exact .stays
  · rw [hcons]
    rfl

/-- **Every step of the cluster.** -/
theorem puts_step (h : step S w act = some w') : PutsStep S act w w' := by
  cases stepped_of_step h with
  | go => exact PutsStep.of_eq (puts_runGoroutine _ _ _)
  | deliver => exact PutsStep.of_eq (puts_deliverCall _ _ _)
  | reply _ _ _ hreply => exact PutsStep.of_eq (puts_replyCall hreply)
  | giveUp => exact PutsStep.of_eq (puts_giveUpCall _ _ _)
  | stepGet _ _ hrun => exact PutsStep.of_eq (puts_runGet hrun)
  | beat _ _ hrun => exact PutsStep.of_eq (puts_runBeat hrun)
  -- a new request of a client
  | @startPut id key _ =>
    refine ⟨fun {k p} hk => ⟨p, ?_, .stays⟩, fun {k p'} hk hle => ?_⟩
    · have hlt := (List.getElem?_eq_some_iff.mp hk).1
      rw [List.getElem?_append_left hlt]
      exact hk
    · rw [List.getElem?_append_right hle] at hk
      obtain ⟨h0, rfl⟩ := getElem?_singleton_eq_some hk
      exact ⟨by omega, .request id key _⟩
  | stepPut hk hup hrun => exact puts_runPut hk hup hrun
  | abortPut hk hphase =>
    exact PutsStep.of_setPut hk (.ends (by rw [hphase]; rfl) (Or.inr ⟨_, rfl⟩)) rfl
  | @crash id => exact puts_crashed w (.crash id) id _
  | @crashDuring inner => exact puts_crashed w inner _ _
  -- the other actions leave the requests alone
  | _ => exact PutsStep.of_eq rfl

/-! ## Proposals -/

/-- A section of request `k` leaves the other requests alone. -/
theorem puts_runPut_ne {j : Nat} {q : PutOp} (h : w.runPut S k p = some w') (hne : j ≠ k)
    (hj : w.puts[j]? = some q) : w'.puts[j]? = some q := by
  have hset : ∀ p', (w.puts.set k p')[j]? = some q := by
    intro p'
    rw [List.getElem?_set_ne (Ne.symm hne), hj]
  cases putSection_of_runPut h with
  | waits => exact hj
  -- the request that is forwarded stands behind the others
  | forwards =>
    have hlt := (List.getElem?_eq_some_iff.mp hj).1
    refine (List.getElem?_append_left ?_).trans (hset _)
    show j < (w.puts.set k _).length
    simpa using hlt
  | _ => exact hset _

/-- **What a request has proposed stays on record**, and only its own call of `Propose` adds to
it. -/
theorem proposed_step (h : step S w act = some w') (hk : w.puts[k]? = some p)
    (hk' : w'.puts[k]? = some p') : p'.proposed = p.proposed ∨
      act = .stepPut k ∧ w.up p.node = true ∧ ∃ i t,
        ((w.node p.node).propose (S.encode p.key p.value)).2 = .ok (i, t) ∧
          p'.proposed = some (i, t) := by
  have hsame : w'.puts[k]? = some p → p'.proposed = p.proposed := by
    intro heq
    rw [hk', Option.some.injEq] at heq
    rw [heq]
  -- a crash loses requests, and none of them has proposed anything by that
  have hcrash : ∀ (inner : Action) (id : String) (storage : Option Storage),
      ((consume w inner).crashed id storage).puts[k]? = some p' → p'.proposed = p.proposed := by
    intro inner id storage hp'
    obtain ⟨calls, hcons⟩ := consume_eq w inner
    rw [hcons] at hp'
    obtain ⟨q, hq, rfl⟩ := Option.map_eq_some_iff.mp ((List.getElem?_map ..).symm.trans hp')
    rw [show q = p from Option.some.inj (hq.symm.trans hk)]
    split <;> rfl
  cases stepped_of_step h with
  | go => exact Or.inl (hsame (by rw [puts_runGoroutine]; exact hk))
  | deliver => exact Or.inl (hsame (by rw [puts_deliverCall]; exact hk))
  | reply _ _ _ hreply => exact Or.inl (hsame (by rw [puts_replyCall hreply]; exact hk))
  | giveUp => exact Or.inl (hsame (by rw [puts_giveUpCall]; exact hk))
  | stepGet _ _ hrun => exact Or.inl (hsame (by rw [puts_runGet hrun]; exact hk))
  | beat _ _ hrun => exact Or.inl (hsame (by rw [puts_runBeat hrun]; exact hk))
  | startPut =>
    refine Or.inl (hsame ?_)
    rw [List.getElem?_append_left (List.getElem?_eq_some_iff.mp hk).1]
    exact hk
  -- the request itself, or another one
  | @stepPut j q _ hj hup hrun =>
    by_cases hkj : k = j
    · subst hkj
      rw [hk, Option.some.injEq] at hj
      subst hj
      obtain ⟨p'', hp'', hmove⟩ := (puts_runPut hk hup hrun).old hk
      rw [hk', Option.some.injEq] at hp''
      subst hp''
      cases hmove with
      | @proposes i t hphase hok => exact Or.inr ⟨rfl, hup, i, t, hok, rfl⟩
      | _ => exact Or.inl rfl
    · exact Or.inl (hsame (puts_runPut_ne hrun hkj hk))
  | @abortPut j q _ _ hj =>
    refine Or.inl ?_
    by_cases hkj : k = j
    · subst hkj
      rw [hk, Option.some.injEq] at hj
      subst hj
      rw [show (w.setPut k _).puts = w.puts.set k _ from rfl,
        List.getElem?_set_self (List.getElem?_eq_some_iff.mp hk).1] at hk'
      cases hk'
      rfl
    · exact hsame ((List.getElem?_set_ne (Ne.symm hkj)).trans hk)
  | @crash id => exact Or.inl (hcrash (.crash id) id _ hk')
  | @crashDuring inner => exact Or.inl (hcrash inner _ _ hk')
  -- the other actions leave the requests alone
  | _ => exact Or.inl (hsame hk)

end Cluster
