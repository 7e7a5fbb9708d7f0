import RaftStore.Cluster.Steps

/-!
# The reads of clients

What a step of the cluster may do to a `Get` in progress and to the heartbeats sent for it is
said once:

* `CallMove`: a call is delivered, answered or given up, but goes on asking the same;
* `ReadStep`: one move of a `Get`, together with what becomes of its heartbeats;
* `gets_step`: every step of the cluster consists of these.

What holds of a read along a run is derived from `gets_step` alone.
-/

namespace Cluster

open Raft

variable {σ : Type} {S : Setup σ} {w w' : World σ} {k : Nat} {g g' : GetOp σ} {c c' : Call}
  {act : Action} {j : Nat} {v : World σ}

/-! ## Heartbeats -/

/-- The `Get` that a heartbeat was sent for. -/
def Rpc.read : Rpc → Option Nat
  | .appendEntries _ _ read => read
  | _ => none

def Rpc.term : Rpc → Int
  | .requestVote req _ => req.term
  | .appendEntries req _ _ => req.term
  | .installSnapshot req _ => req.term

/-- The term in the reply to an AppendEntries request. -/
def Rpc.replyTerm : Rpc → Option Int
  | .appendEntries _ resp _ => resp.map (·.term)
  | _ => none

/-- A call goes on asking the same of the same node, and waits no more than before. A reply
that it did not have before carries the term its receiver is in, in `w`. -/
structure CallMove (w : World σ) (c c' : Call) : Prop where
  src_eq : c'.src = c.src
  dst_eq : c'.dst = c.dst
  read_eq : c'.rpc.read = c.rpc.read
  term_eq : c'.rpc.term = c.rpc.term
  waiting : c'.waiting = true → c.waiting = true
  reply : ∀ t, c'.rpc.replyTerm = some t → c.rpc.replyTerm = some t ∨
    w.up c.dst = true ∧ (w.node c.dst).currentTerm = t

theorem CallMove.refl (w : World σ) (c : Call) : CallMove w c c :=
  ⟨rfl, rfl, rfl, rfl, fun h => h, fun _ => Or.inl⟩

/-- A change of the flags. -/
theorem CallMove.flags (hsrc : c'.src = c.src) (hdst : c'.dst = c.dst) (hrpc : c'.rpc = c.rpc)
    (hwait : c'.waiting = true → c.waiting = true) : CallMove w c c' :=
  ⟨hsrc, hdst, by rw [hrpc], by rw [hrpc], hwait, fun _ ht => Or.inl (hrpc ▸ ht)⟩

/-- The heartbeats for `Get` number `k` are the ones that were there before. -/
def BeatsFrom (k : Nat) (w w' : World σ) : Prop :=
  ∀ (i : Nat) c', w'.calls[i]? = some c' → c'.rpc.read = some k →
    ∃ c, w.calls[i]? = some c ∧ CallMove w' c c'

theorem BeatsFrom.of_map {f : Call → Call} (hmove : ∀ c, CallMove w' c (f c))
    (hcalls : w'.calls = w.calls.map f) : BeatsFrom k w w' := by
  intro i c' hi _
  rw [hcalls, List.getElem?_map] at hi
  obtain ⟨c, hc, rfl⟩ := Option.map_eq_some_iff.mp hi
  exact ⟨c, hc, hmove c⟩

theorem BeatsFrom.of_eq (hcalls : w'.calls = w.calls) : BeatsFrom k w w' :=
  BeatsFrom.of_map (f := fun c => c) (CallMove.refl w') (by rw [hcalls, List.map_id'])

theorem BeatsFrom.of_set (hj : w.calls[j]? = some c)
    (hcalls : w'.calls = w.calls.set j c') (hmove : CallMove w' c c') : BeatsFrom k w w' := by
  intro i d hi _
  rw [hcalls] at hi
  by_cases hij : i = j
  · subst hij
    rw [List.getElem?_set_self (List.getElem?_eq_some_iff.mp hj).1, Option.some.injEq] at hi
    exact ⟨c, hj, hi ▸ hmove⟩
  · rw [List.getElem?_set_ne (Ne.symm hij)] at hi
    exact ⟨d, hi, CallMove.refl w' d⟩

theorem BeatsFrom.congr (h : BeatsFrom k w v) (hcalls : w'.calls = v.calls)
    (hnode : w'.node = v.node) (hup : w'.up = v.up) : BeatsFrom k w w' := by
  intro i c' hi hread
  obtain ⟨c, hc, hmove⟩ := h i c' (hcalls ▸ hi) hread
  refine ⟨c, hc, { hmove with reply := ?_ }⟩
  rw [hnode, hup]
  exact hmove.reply

/-- A new call that is not a heartbeat for this `Get`. -/
theorem BeatsFrom.of_append (hread : c.rpc.read ≠ some k) (hcalls : w'.calls = w.calls ++ [c]) :
    BeatsFrom k w w' := by
  intro i d hi hd
  rw [hcalls] at hi
  -- an old call, or the new one, which is no heartbeat of the read
  rcases Nat.lt_or_ge i w.calls.length with hlt | hge
  · rw [List.getElem?_append_left hlt] at hi
    exact ⟨d, hi, CallMove.refl w' d⟩
  · rw [List.getElem?_append_right hge] at hi
    rw [List.mem_singleton.mp (List.mem_of_getElem? hi)] at hd
    exact absurd hd hread

/-! ## Moves of a read -/

/-- One move of `Get` number `k`. -/
inductive ReadStep (act : Action) (w w' : World σ) (k : Nat) (g : GetOp σ) : GetOp σ → Prop
  | stays (hcalls : BeatsFrom k w w') (hup : w.up g.node = true → w'.up g.node = true) :
      ReadStep act w w' k g g
  | fails (e : Err) : ReadStep act w w' k g { g with phase := .failed e }
  | crashes : ReadStep act w w' k g
      { g with beats := [], phase := if g.phase.running then .lost else g.phase }
  | ready (hphase : g.phase = .waitCurrentTerm) (hcalls : BeatsFrom k w w') :
      ReadStep act w w' k g { g with phase := .capture }
  | captures (hact : act = .stepGet k) (hphase : g.phase = .capture) (hup : w.up g.node = true)
      (hld : (w.node g.node).state = .leader) (hcalls : BeatsFrom k w w') :
      ReadStep act w w' k g
        { g with phase := .confirm (w.node g.node).commitIndex (w.node g.node).currentTerm }
  | alone {readIndex term : Int} (hphase : g.phase = .confirm readIndex term)
      (hup : w.up g.node = true) (hmaj : (w.node g.node).majority ≤ 1) :
      ReadStep act w w' k g { g with phase := .waitApplied readIndex }
  | asks {readIndex term : Int} (hphase : g.phase = .confirm readIndex term)
      (hup : w.up g.node = true) (hcalls : BeatsFrom k w w') :
      ReadStep act w w' k g
        { g with
          phase := .collect readIndex 1
            ((w.node g.node).peerIDs.filter (· ≠ (w.node g.node).id)).length
            (w.node g.node).majority
          beats := ((w.node g.node).peerIDs.filter (· ≠ (w.node g.node).id)).map
            (fun p => (p, term)) }
  | confirmed {readIndex : Int} {acks pending majority : Nat} {ok : Bool} {rest : List Bool}
      (hphase : g.phase = .collect readIndex acks pending majority) (hres : g.results = ok :: rest)
      (hmaj : majority ≤ if ok then acks + 1 else acks) :
      ReadStep act w w' k g { g with phase := .waitApplied readIndex, results := rest }
  | collects {readIndex : Int} {acks pending pending' majority : Nat} {ok : Bool}
      {rest : List Bool} (hphase : g.phase = .collect readIndex acks pending majority)
      (hres : g.results = ok :: rest) (hcalls : BeatsFrom k w w') :
      ReadStep act w w' k g
        { g with
          phase := .collect readIndex (if ok then acks + 1 else acks) pending' majority
          results := rest }
  | disproved (rest : List Bool) :
      ReadStep act w w' k g { g with phase := .failed .staleLeader, results := rest }
  | applied {readIndex : Int} (hphase : g.phase = .waitApplied readIndex)
      (hup : w'.up g.node = true) (happ : readIndex ≤ (w'.node g.node).lastApplied) :
      ReadStep act w w' k g { g with phase := .checkState }
  | checks (hphase : g.phase = .checkState) (hup : w.up g.node = true → w'.up g.node = true) :
      ReadStep act w w' k g { g with phase := .read }
  | reads (hphase : g.phase = .read) (hup : w.up g.node = true) :
      ReadStep act w w' k g { g with phase := .done (w.node g.node).machine }
  | unsent {i : Nat} {b : String × Int} (hb : g.beats[i]? = some b) (hcalls : BeatsFrom k w w')
      (hup : w.up g.node = true → w'.up g.node = true) :
      ReadStep act w w' k g { g with beats := g.beats.eraseIdx i, results := g.results ++ [false] }
  | sent {i : Nat} {b : String × Int} {req : AppendEntriesRequest} (hb : g.beats[i]? = some b)
      (hterm : req.term = b.2)
      (hcalls : w'.calls =
        w.calls ++ [{ src := g.node, dst := b.1, rpc := .appendEntries req none (some k) }])
      (hup : w.up g.node = true → w'.up g.node = true) :
      ReadStep act w w' k g { g with beats := g.beats.eraseIdx i }
  | answered {j : Nat} {c : Call} (ok : Bool) (hj : w.calls[j]? = some c)
      (hread : c.rpc.read = some k) (hwait : c.waiting = true)
      (hcalls : w'.calls = w.calls.set j { c with waiting := false })
      (hok : ok = true → ∃ t, c.rpc.replyTerm = some t ∧ t ≤ c.rpc.term)
      (hup : w.up g.node = true → w'.up g.node = true) :
      ReadStep act w w' k g { g with results := g.results ++ [ok] }

/-- Every `Get` makes one move, and at most one is added, for which nothing has been sent. -/
structure GetsStep (act : Action) (w w' : World σ) : Prop where
  old : ∀ {k : Nat} {g}, w.gets[k]? = some g → ∃ g', w'.gets[k]? = some g' ∧
    ReadStep act w w' k g g'
  new : ∀ {k : Nat} {g'}, w'.gets[k]? = some g' → w.gets.length ≤ k →
    k = w.gets.length ∧ g'.phase = .waitCurrentTerm ∧ g'.beats = [] ∧ g'.results = [] ∧
      w'.calls = w.calls
  fresh : ∀ c' ∈ w'.calls, ∀ k, c'.rpc.read = some k →
    (∃ c ∈ w.calls, c.rpc.read = some k) ∨ k < w.gets.length
  grows : w.gets.length ≤ w'.gets.length

/-! ## Building the description of a step -/

/-- The reads are left alone, and no heartbeat is sent. -/
theorem GetsStep.of_calls (hgets : w'.gets = w.gets) (hup : ∀ j, w.up j = true → w'.up j = true)
    (hcalls : ∀ k, BeatsFrom k w w') : GetsStep act w w' := by
  refine ⟨fun {k g} hk => ⟨g, hgets ▸ hk, .stays (hcalls k) (hup g.node)⟩, fun {k g'} hk hle => ?_,
    fun c' hc' k hread => ?_, by rw [hgets]⟩
  -- no read is new
  · have hlt := (List.getElem?_eq_some_iff.mp hk).1
    rw [hgets] at hlt
    omega
  -- its calls are calls of before
  · obtain ⟨i, hi⟩ := List.mem_iff_getElem?.mp hc'
    obtain ⟨c, hc, hmove⟩ := hcalls k i c' hi hread
    exact Or.inl ⟨c, List.mem_of_getElem? hc, hmove.read_eq ▸ hread⟩

theorem GetsStep.of_same (hgets : w'.gets = w.gets) (hup : ∀ j, w.up j = true → w'.up j = true)
    (hcalls : w'.calls = w.calls) : GetsStep act w w' :=
  GetsStep.of_calls hgets hup (fun _ => BeatsFrom.of_eq hcalls)

/-- One read moves. -/
theorem GetsStep.of_setGet (hk : w.gets[k]? = some g) (hgets : w'.gets = w.gets.set k g')
    (hmove : ReadStep act w w' k g g') (hup : ∀ j, w.up j = true → w'.up j = true)
    (hcalls : ∀ j, j ≠ k → BeatsFrom j w w') : GetsStep act w w' := by
  have hlt := (List.getElem?_eq_some_iff.mp hk).1
  refine ⟨fun {j x} hj => ?_, fun {j x} hj hle => ?_, fun c' hc' j hread => ?_, by simp [hgets]⟩
  -- the read itself, and the others
  · by_cases hjk : j = k
    · subst hjk
      rw [hk, Option.some.injEq] at hj
      exact ⟨g', by rw [hgets, List.getElem?_set_self hlt], hj ▸ hmove⟩
    · exact ⟨x, by rw [hgets, List.getElem?_set_ne (Ne.symm hjk), hj],
        .stays (hcalls j hjk) (hup x.node)⟩
  · have hlt' := (List.getElem?_eq_some_iff.mp hj).1
    rw [hgets, List.length_set] at hlt'
    omega
  -- a heartbeat of this read names it
  · by_cases hjk : j = k
    · exact Or.inr (hjk ▸ hlt)
    · obtain ⟨i, hi⟩ := List.mem_iff_getElem?.mp hc'
      obtain ⟨c, hc, hm⟩ := hcalls j hjk i c' hi hread
      exact Or.inl ⟨c, List.mem_of_getElem? hc, hm.read_eq ▸ hread⟩

/-- A result is put into the channel of `Get` number `k`, if there is one. -/
theorem GetsStep.of_result {b : Bool} (hgets : v.gets = w.gets) (hup : v.up = w.up)
    (hcalls : ∀ j, BeatsFrom j w v)
    (hmove : ∀ g, w.gets[k]? = some g →
      ReadStep act w (v.result k b) k g { g with results := g.results ++ [b] }) :
    GetsStep act w (v.result k b) := by
  have hcalls' : ∀ j, BeatsFrom j w (v.result k b) := by
    intro j
    unfold World.result
    split
    · exact hcalls j
    · exact (hcalls j).congr rfl rfl rfl
  unfold World.result at hmove hcalls' ⊢
  rw [hgets] at hmove hcalls' ⊢
  -- the read may be unknown
  cases hk : w.gets[k]? with
  | none =>
    rw [hk] at hcalls'
    exact GetsStep.of_calls hgets (by rw [hup]; exact fun _ h => h) hcalls'
  | some g =>
    rw [hk] at hmove hcalls'
    exact GetsStep.of_setGet hk (by rw [← hgets]; rfl) (hmove g rfl)
      (by show ∀ j, _ → v.up j = true; rw [hup]; exact fun _ h => h) (fun j _ => hcalls' j)

/-! ## Goroutines and calls -/

theorem term_handleAppendEntries (n : RaftNode σ) (req : AppendEntriesRequest) :
    (n.handleAppendEntries req).2.term = (n.handleAppendEntries req).1.currentTerm := by
  rcases n.handleAppendEntries_cases req with ⟨_, heq⟩ | ⟨hle, _, heq⟩ | ⟨hle, _, heq⟩
  · rw [heq]
  · rw [heq]
    exact (n.hearLeader_fields (not_lt.mpr hle) req.leaderID).1.symm
  · rw [heq, RaftNode.currentTerm_followCommit, RaftNode.currentTerm_mergeLocked]
    exact (n.hearLeader_fields (not_lt.mpr hle) req.leaderID).1.symm

/-- A goroutine of a node sends at most one call, which is no heartbeat. -/
theorem gets_runGoroutine (hgets : v.gets = w.gets) (hup : v.up = w.up)
    (hcalls : v.calls = w.calls) (id : String) (gr : Goroutine) :
    GetsStep act w (v.runGoroutine id gr) := by
  -- what a goroutine sends belongs to no read
  have hups : ∀ j, w.up j = true → v.up j = true := by rw [hup]; exact fun _ h => h
  have hsent : ∀ {u : World σ} {c : Call}, u.gets = v.gets → u.up = v.up → c.rpc.read = none →
      u.calls = v.calls ++ [c] → GetsStep act w u := by
    intro u c hg hu hr hc
    refine GetsStep.of_calls (hg.trans hgets) (by rw [hu]; exact hups) (fun k => ?_)
    refine BeatsFrom.of_append (c := c) ?_ (by rw [hc, hcalls])
    rw [hr]
    exact fun h => by cases h
  unfold World.runGoroutine
  cases gr with
  | replicateTo peer =>
    dsimp only
    split
    · exact GetsStep.of_same hgets hups hcalls
    · exact hsent rfl rfl rfl rfl
    · exact hsent rfl rfl rfl rfl
  | replicateToDone peer => exact GetsStep.of_same hgets hups hcalls
  | sendRequestVote peer req =>
    dsimp only
    split
    · exact GetsStep.of_same hgets hups hcalls
    · exact hsent rfl rfl rfl rfl

/-- A request is handled: its reply carries the receiver's new term. -/
theorem gets_deliverCall (hk : w.calls[k]? = some c) (hup : w.up c.dst = true) :
    GetsStep act w (w.deliverCall k c) := by
  refine GetsStep.of_calls ?_ ?_ (fun j => ?_)
  -- neither reads nor nodes are touched
  · unfold World.deliverCall
    dsimp only
    split <;> rfl
  · unfold World.deliverCall
    dsimp only
    split <;> exact fun _ h => h
  · unfold World.deliverCall
    dsimp only
    split
    -- only a heartbeat's reply has a term that counts
    · next req resp hc =>
      refine BeatsFrom.of_set hk rfl ⟨rfl, rfl, ?_, ?_, fun h => h, fun t ht => by cases ht⟩
      · rw [hc]
        rfl
      · rw [hc]
        rfl
    · next req resp read hc =>
      refine BeatsFrom.of_set hk rfl ⟨rfl, rfl, ?_, ?_, fun h => h, fun t ht => Or.inr ⟨hup, ?_⟩⟩
      · rw [hc]
        rfl
      · rw [hc]
        rfl
      -- the reply has the term that the node has now
      · show (Function.update w.node c.dst _ c.dst).currentTerm = t
        rw [Function.update_self, ← term_handleAppendEntries]
        exact Option.some.inj ht
    · next req resp hc =>
      refine BeatsFrom.of_set hk rfl ⟨rfl, rfl, ?_, ?_, fun h => h, fun t ht => by cases ht⟩
      · rw [hc]
        rfl
      · rw [hc]
        rfl

/-- The caller stops waiting. -/
theorem beatsFrom_settle (hk : w.calls[k]? = some c)
    (hcalls : v.calls = w.calls.set k { c with waiting := false }) (j : Nat) : BeatsFrom j w v :=
  BeatsFrom.of_set hk hcalls (CallMove.flags rfl rfl rfl (fun h => by cases h))

theorem gets_replyCall (hk : w.calls[k]? = some c) (hwait : c.waiting = true)
    (h : w.replyCall k c = some w') : GetsStep act w w' := by
  unfold World.replyCall at h
  dsimp only at h
  split at h
  · cases h
    exact GetsStep.of_calls rfl (fun _ h => h) (beatsFrom_settle hk rfl)
  · cases h
    exact GetsStep.of_calls rfl (fun _ h => h) (beatsFrom_settle hk rfl)
  · next req resp read hc =>
    cases h
    refine GetsStep.of_result rfl rfl (beatsFrom_settle hk rfl) (fun g hg => ?_)
    refine .answered _ hk (by rw [hc]; rfl) hwait ?_ (fun hok => ?_) ?_
    · unfold World.result
      split <;> rfl
    · -- a positive result means that the reply is not of a later term
      refine ⟨resp.term, by rw [hc]; rfl, ?_⟩
      unfold RaftNode.sendConfirmHeartbeatReply at hok
      split at hok
      · cases hok
      · next hle =>
        rw [Bool.and_eq_true, decide_eq_true_eq, decide_eq_true_eq] at hok
        rw [hc]
        show resp.term ≤ req.term
        omega
    · unfold World.result
      split <;> exact fun h => h
  · cases h
    exact GetsStep.of_calls rfl (fun _ h => h) (beatsFrom_settle hk rfl)
  · cases h

theorem gets_giveUpCall (hk : w.calls[k]? = some c) (hwait : c.waiting = true) :
    GetsStep act w (w.giveUpCall k c) := by
  unfold World.giveUpCall
  dsimp only
  split
  · exact GetsStep.of_calls rfl (fun _ h => h) (beatsFrom_settle hk rfl)
  · next req resp read hc =>
    refine GetsStep.of_result rfl rfl (beatsFrom_settle hk rfl) (fun g hg => ?_)
    refine .answered false hk (by rw [hc]; rfl) hwait ?_ (fun hok => by cases hok) ?_
    · unfold World.result
      split <;> rfl
    · unfold World.result
      split <;> exact fun h => h
  · exact GetsStep.of_calls rfl (fun _ h => h) (beatsFrom_settle hk rfl)
  · exact GetsStep.of_calls rfl (fun _ h => h) (beatsFrom_settle hk rfl)

/-! ## Sections of a read -/

theorem gets_runBeat {i : Nat} (hk : w.gets[k]? = some g) (h : w.runBeat k g i = some w') :
    GetsStep act w w' := by
  obtain ⟨b, hb, rfl⟩ := Option.map_eq_some_iff.mp h
  have hlt := (List.getElem?_eq_some_iff.mp hk).1
  dsimp only
  split
  · -- the node is no longer the leader it was
    have hself : (w.setGet k { g with beats := g.beats.eraseIdx i }).gets[k]? =
        some { g with beats := g.beats.eraseIdx i } := List.getElem?_set_self hlt
    unfold World.result
    rw [hself]
    refine GetsStep.of_setGet hk (List.set_set ..) (.unsent hb ?_ (fun h => h)) (fun _ h => h) ?_
    · exact BeatsFrom.of_eq rfl
    · exact fun _ _ => BeatsFrom.of_eq rfl
  · next req hreq =>
    -- the request has the term in which the read began
    have hterm : req.term = b.2 := by
      unfold RaftNode.sendConfirmHeartbeatHead at hreq
      split at hreq
      · cases hreq
      next hstill =>
      push Not at hstill
      cases hreq
      exact hstill.2.1
    refine GetsStep.of_setGet hk rfl (.sent hb hterm rfl (fun h => h)) (fun _ h => h) ?_
    -- the new call belongs to this read only
    intro j hj
    refine BeatsFrom.of_append ?_ rfl
    intro hread
    exact hj (Option.some.inj hread).symm

/-- A move of a read that sends nothing. -/
theorem GetsStep.of_phase (hk : w.gets[k]? = some g) (hgets : w'.gets = w.gets.set k g')
    (hup : w'.up = w.up) (hcalls : w'.calls = w.calls) (hmove : ReadStep act w w' k g g') :
    GetsStep act w w' :=
  GetsStep.of_setGet hk hgets hmove (by rw [hup]; exact fun _ h => h)
    (fun _ _ => BeatsFrom.of_eq hcalls)

theorem gets_runGet (hk : w.gets[k]? = some g) (hup : w.up g.node = true)
    (h : w.runGet k g = some w') : GetsStep (.stepGet k) w w' := by
  have hmoved : ∀ {v : World σ} {g' : GetOp σ}, v.gets = w.gets.set k g' → v.up = w.up →
      v.calls = w.calls → ReadStep (.stepGet k) w v k g g' → GetsStep (.stepGet k) w v :=
    fun hgets hups hcalls hmove => GetsStep.of_phase hk hgets hups hcalls hmove
  cases getSection_of_runGet h with
  | polls => exact GetsStep.of_same rfl (fun _ h => h) rfl
  | polled hphase hph =>
    rcases hph with rfl | ⟨e, rfl⟩
    · exact hmoved rfl rfl rfl (.ready hphase (BeatsFrom.of_eq rfl))
    · exact hmoved rfl rfl rfl (.fails e)
  | fails e => exact hmoved rfl rfl rfl (.fails e)
  | captures hphase hld =>
    exact hmoved rfl rfl rfl (.captures rfl hphase hup hld (BeatsFrom.of_eq rfl))
  | alone hphase hmaj => exact hmoved rfl rfl rfl (.alone hphase hup hmaj)
  | asks hphase => exact hmoved rfl rfl rfl (.asks hphase hup (BeatsFrom.of_eq rfl))
  | confirmed hphase hres hmaj => exact hmoved rfl rfl rfl (.confirmed hphase hres hmaj)
  | @disproved _ rest => exact hmoved rfl rfl rfl (.disproved rest)
  | collects hphase hres =>
    exact hmoved rfl rfl rfl (.collects hphase hres (BeatsFrom.of_eq rfl))
  | waits => exact GetsStep.of_same rfl (fun _ h => h) rfl
  | applied hphase happ => exact hmoved rfl rfl rfl (.applied hphase hup happ)
  | checks hphase => exact hmoved rfl rfl rfl (.checks hphase (fun h => h))
  | reads hphase => exact hmoved rfl rfl rfl (.reads hphase hup)

/-- A write has nothing to do with reads. -/
theorem frame_runPut {p : PutOp} (h : w.runPut S k p = some w') :
    w'.gets = w.gets ∧ w'.up = w.up ∧ w'.calls = w.calls := by
  cases putSection_of_runPut h with
  | _ => exact ⟨rfl, rfl, rfl⟩

/-! ## Every step -/

theorem consume_calls (w : World σ) (act : Action) {i : Nat}
    (hi : (consume w act).calls[i]? = some c') : ∃ c, w.calls[i]? = some c ∧ c'.src = c.src ∧
      c'.dst = c.dst ∧ c'.rpc = c.rpc ∧ c'.waiting = c.waiting := by
  unfold consume at hi
  split at hi
  · next k =>
    split at hi
    · next c hk =>
      -- the call that was taken, and the others
      by_cases hik : i = k
      · subst hik
        have hlt := (List.getElem?_eq_some_iff.mp hk).1
        rw [show (w.setCall i { c with pending := false }).calls[i]? =
          some { c with pending := false } from List.getElem?_set_self hlt, Option.some.injEq] at hi
        exact ⟨c, hk, by rw [← hi], by rw [← hi], by rw [← hi], by rw [← hi]⟩
      · rw [show (w.setCall k { c with pending := false }).calls[i]? = w.calls[i]? from
          List.getElem?_set_ne (Ne.symm hik)] at hi
        exact ⟨c', hi, rfl, rfl, rfl, rfl⟩
    · exact ⟨c', hi, rfl, rfl, rfl, rfl⟩
  · exact ⟨c', hi, rfl, rfl, rfl, rfl⟩

/-- A process crashes, in the middle of a section or between two. -/
theorem gets_crashed (w : World σ) (inner : Action) (id : String) (storage : Option Storage) :
    GetsStep act w ((consume w inner).crashed id storage) := by
  obtain ⟨calls, hcons⟩ := consume_eq w inner
  have hgets : (consume w inner).gets = w.gets := by rw [hcons]
  have hups : (consume w inner).up = w.up := by rw [hcons]
  have hcalls : ∀ j, BeatsFrom j w ((consume w inner).crashed id storage) := by
    intro j i c' hi _
    -- crashing marks calls, and drops none
    obtain ⟨c₁, hc₁, rfl⟩ := Option.map_eq_some_iff.mp ((List.getElem?_map ..).symm.trans hi)
    obtain ⟨c, hc, hsrc, hdst, hrpc, hwait⟩ := consume_calls w inner hc₁
    refine ⟨c, hc, CallMove.flags ?_ ?_ ?_ ?_⟩
    · split <;> exact hsrc
    · split <;> exact hdst
    · split <;> exact hrpc
    · split
      · exact fun h => by cases h
      · rw [hwait]
        exact fun h => h
  refine ⟨fun {k g} hk => ⟨if g.node = id then
      { g with beats := [], phase := if g.phase.running then .lost else g.phase } else g, ?_, ?_⟩,
    fun {k g'} hk hle => ?_, fun c' hc' k hread => ?_, ?_⟩
  -- the reads on the node are lost, the others stay
  · show ((consume w inner).gets.map _)[k]? = _
    rw [hgets, List.getElem?_map, hk]
    rfl
  · split
    · exact .crashes
    · next hne =>
      refine .stays (hcalls k) ?_
      show w.up g.node = true → Function.update (consume w inner).up id false g.node = true
      rw [Function.update_of_ne hne, hups]
      exact fun h => h
  · have hlt : k < ((consume w inner).gets.map _).length := (List.getElem?_eq_some_iff.mp hk).1
    rw [List.length_map, hgets] at hlt
    omega
  · obtain ⟨i, hi⟩ := List.mem_iff_getElem?.mp hc'
    obtain ⟨c, hc, hmove⟩ := hcalls k i c' hi hread
    exact Or.inl ⟨c, List.mem_of_getElem? hc, hmove.read_eq ▸ hread⟩
  · show _ ≤ ((consume w inner).gets.map _).length
    rw [List.length_map, hgets]

/-- **Every step of the cluster.** -/
theorem gets_step (h : step S w act = some w') : GetsStep act w w' := by
  cases stepped_of_step h with
  | @go id k gr => refine gets_runGoroutine ?_ ?_ ?_ id gr <;> rfl
  | deliver hk _ hup => exact gets_deliverCall hk hup
  | reply hk hwait _ hreply => exact gets_replyCall hk hwait hreply
  | giveUp hk hwait => exact gets_giveUpCall hk hwait
  | startGet =>
    refine ⟨fun {k g} hk => ⟨g, ?_, .stays (BeatsFrom.of_eq rfl) (fun h => h)⟩,
      fun {k g'} hk hle => ?_, fun c' hc' k hread => Or.inl ⟨c', hc', hread⟩, by simp⟩
    -- the reads of before
    · rw [List.getElem?_append_left (List.getElem?_eq_some_iff.mp hk).1]
      exact hk
    -- the new one is at its beginning
    · have hlt := (List.getElem?_eq_some_iff.mp hk).1
      rw [List.length_append, List.length_singleton] at hlt
      rw [List.getElem?_append_right hle] at hk
      rw [List.mem_singleton.mp (List.mem_of_getElem? hk)]
      exact ⟨by omega, rfl, rfl, rfl, rfl⟩
  | stepGet hk hup hrun => exact gets_runGet hk hup hrun
  | beat hk _ hrun => exact gets_runBeat hk hrun
  | @abortGet _ _ e hk => exact GetsStep.of_phase hk rfl rfl rfl (.fails e)
  | stepPut _ _ hrun =>
    obtain ⟨hg, hu, hc⟩ := frame_runPut hrun
    exact GetsStep.of_same hg (by rw [hu]; exact fun _ h => h) hc
  | @crash id => exact gets_crashed w (.crash id) id _
  | @crashDuring inner => exact gets_crashed w inner _ _
  | @restart id =>
    refine GetsStep.of_same rfl (fun j hj => ?_) rfl
    -- nobody goes down
    show Function.update w.up id true j = true
    by_cases hji : j = id
    · rw [hji, Function.update_self]
    · rw [Function.update_of_ne hji]
      exact hj
  -- the other actions touch neither the reads nor who is up
  | _ => exact GetsStep.of_same rfl (fun _ h => h) rfl

/-- Every heartbeat belongs to a `Get` that has been invoked. -/
def ReadsKnown (w : World σ) : Prop := ∀ c ∈ w.calls, ∀ k, c.rpc.read = some k → k < w.gets.length

theorem ReadsKnown.step (hknown : ReadsKnown w) (h : GetsStep act w w') : ReadsKnown w' := by
  intro c' hc' k hread
  rcases h.fresh c' hc' k hread with ⟨c, hc, hold⟩ | hlt
  · exact (hknown c hc k hold).trans_le h.grows
  · exact hlt.trans_le h.grows

/-! ## Reads that have returned -/

/-- A read that returns has looked at the store of its node. -/
theorem ReadStep.done {store : σ} (h : ReadStep act w w' k g g') (hdone : g'.phase = .done store) :
    g.phase = .done store ∨
      g.phase = .read ∧ w.up g.node = true ∧ store = (w.node g.node).machine := by
  cases h with
  | stays => exact Or.inl hdone
  | unsent => exact Or.inl hdone
  | sent => exact Or.inl hdone
  | answered => exact Or.inl hdone
  -- a read that runs is lost
  | crashes =>
    cases hrun : g.phase.running with
    | true => simp [hrun] at hdone
    | false => exact Or.inl (by simpa [hrun] using hdone)
  | reads hphase hup => exact Or.inr ⟨hphase, hup, by cases hdone; rfl⟩
  | _ => cases hdone

/-- What `Get` number `k` has returned. -/
def World.answer (w : World σ) (k : Nat) : Option σ :=
  (w.gets[k]?).bind (fun g =>
    match g.phase with
    | .done store => some store
    | _ => none)

theorem answer_eq_some {store : σ} :
    w.answer k = some store ↔ ∃ g, w.gets[k]? = some g ∧ g.phase = .done store := by
  unfold World.answer
  rw [Option.bind_eq_some_iff]
  refine exists_congr fun g => and_congr_right fun _ => ?_
  split
  · next s hph => rw [hph]; simp
  · next hph => exact iff_of_false (by simp) (hph store)

/-- A change of a read that has not returned, or of what does not matter for it. -/
theorem answer_of_set {store : σ} (hj : w.gets[j]? = some g)
    (hgets : w'.gets = w.gets.set j g') (hkeep : ∀ s, g.phase = .done s → g'.phase = .done s)
    (h : w.answer k = some store) : w'.answer k = some store := by
  rw [answer_eq_some] at h ⊢
  obtain ⟨x, hx, hdone⟩ := h
  rw [hgets]
  by_cases hkj : k = j
  · subst hkj
    rw [hj, Option.some.injEq] at hx
    subst hx
    exact ⟨g', List.getElem?_set_self (List.getElem?_eq_some_iff.mp hj).1, hkeep store hdone⟩
  · exact ⟨x, by rw [List.getElem?_set_ne (Ne.symm hkj), hx], hdone⟩

theorem answer_congr {store : σ} (hgets : w'.gets = w.gets) (h : w.answer k = some store) :
    w'.answer k = some store := by
  unfold World.answer at h ⊢
  rw [hgets]
  exact h

theorem answer_result {store : σ} {b : Bool} (hgets : v.gets = w.gets)
    (h : w.answer k = some store) : (v.result j b).answer k = some store := by
  have hv : v.answer k = some store := answer_congr hgets h
  unfold World.result
  split
  · exact hv
  · next g hj => exact answer_of_set hj rfl (fun _ hs => hs) hv

theorem answer_runGoroutine {store : σ} (id : String) (gr : Goroutine)
    (h : w.answer k = some store) : (w.runGoroutine id gr).answer k = some store := by
  unfold World.runGoroutine
  cases gr with
  | replicateTo peer =>
    dsimp only
    split <;> exact answer_congr rfl h
  | replicateToDone peer => exact answer_congr rfl h
  | sendRequestVote peer req =>
    dsimp only
    split
    · exact h
    · exact answer_congr rfl h

theorem answer_runGet {store : σ} (hj : w.gets[j]? = some g)
    (hrun : w.runGet j g = some w') (h : w.answer k = some store) : w'.answer k = some store := by
  -- a call that has returned takes no step, so the one that takes this step is another
  have hnot : ∀ s, g.phase ≠ .done s := by
    intro s hs
    unfold World.runGet at hrun
    rw [hs] at hrun
    cases hrun
  have hset : ∀ {v : World σ} {g' : GetOp σ}, v.gets = w.gets.set j g' → v.answer k = some store :=
    fun hgets => answer_of_set hj hgets (fun s hs => absurd hs (hnot s)) h
  cases getSection_of_runGet hrun with
  | polls => exact answer_congr rfl h
  | waits => exact h
  | _ => exact hset rfl

theorem answer_crashed {store : σ} (inner : Action) (id : String) (storage : Option Storage)
    (h : w.answer k = some store) :
    ((consume w inner).crashed id storage).answer k = some store := by
  obtain ⟨calls, hcons⟩ := consume_eq w inner
  rw [answer_eq_some] at h ⊢
  obtain ⟨g, hg, hdone⟩ := h
  refine ⟨_, by
    show ((consume w inner).gets.map _)[k]? = _
    rw [hcons, List.getElem?_map, hg]
    rfl, ?_⟩
  dsimp only
  split
  · show (if g.phase.running then GetPhase.lost else g.phase) = _
    rw [hdone]
    rfl
  · exact hdone

/-- **What has been returned stays returned.** -/
theorem answer_step {store : σ} (h : step S w act = some w') (hans : w.answer k = some store) :
    w'.answer k = some store := by
  cases stepped_of_step h with
  | go => exact answer_runGoroutine _ _ (answer_congr rfl hans)
  | deliver =>
    refine answer_congr ?_ hans
    unfold World.deliverCall
    dsimp only
    split <;> rfl
  | reply _ _ _ hreply =>
    unfold World.replyCall at hreply
    dsimp only at hreply
    split at hreply
    · cases hreply; exact answer_congr rfl hans
    · cases hreply; exact answer_congr rfl hans
    · cases hreply; exact answer_result rfl hans
    · cases hreply; exact answer_congr rfl hans
    · cases hreply
  | giveUp =>
    unfold World.giveUpCall
    dsimp only
    split
    · exact answer_congr rfl hans
    · exact answer_result rfl hans
    · exact answer_congr rfl hans
    · exact answer_congr rfl hans
  | startGet =>
    rw [answer_eq_some] at hans ⊢
    obtain ⟨g, hg, hdone⟩ := hans
    exact ⟨g, by rw [List.getElem?_append_left (List.getElem?_eq_some_iff.mp hg).1, hg], hdone⟩
  | stepGet hk _ hrun => exact answer_runGet hk hrun hans
  | @beat j i g _ hk _ hrun =>
    obtain ⟨b, _, rfl⟩ := Option.map_eq_some_iff.mp hrun
    have hset : (w.setGet j { g with beats := g.beats.eraseIdx i }).answer k = some store :=
      answer_of_set hk rfl (fun _ hs => hs) hans
    dsimp only
    split
    · exact answer_result rfl hset
    · exact answer_congr rfl hset
  | abortGet hk _ hwait =>
    refine answer_of_set hk rfl (fun s hs => ?_) hans
    rw [hs] at hwait
    cases hwait
  | stepPut _ _ hrun => exact answer_congr (frame_runPut hrun).1 hans
  | @crash id => exact answer_crashed (.crash id) id _ hans
  | @crashDuring inner => exact answer_crashed inner _ _ hans
  -- the other actions leave the reads alone
  | _ => exact answer_congr rfl hans

/-- A read that has returned had done so before, or has just been served. -/
theorem answer_cases {store : σ} (h : step S w act = some w') (hans : w'.answer k = some store) :
    w.answer k = some store ∨ ∃ g, w.gets[k]? = some g ∧ g.phase = .read ∧ w.up g.node = true ∧
      store = (w.node g.node).machine := by
  obtain ⟨g', hg', hdone⟩ := answer_eq_some.mp hans
  have hgets := gets_step h
  rcases Nat.lt_or_ge k w.gets.length with hlt | hge
  · have hg := List.getElem?_eq_getElem hlt
    obtain ⟨x, hx, hmove⟩ := hgets.old hg
    rw [hg', Option.some.injEq] at hx
    subst hx
    rcases hmove.done hdone with hold | hread
    · exact Or.inl (answer_eq_some.mpr ⟨_, hg, hold⟩)
    · exact Or.inr ⟨_, hg, hread⟩
  · obtain ⟨_, hphase, _⟩ := hgets.new hg' hge
    rw [hphase] at hdone
    cases hdone

end Cluster
