import RaftStore.Cluster.Loops
import RaftStore.Node.Terms
import RaftStore.Results.Fixed

/-!
# A leader can always replicate

`replicating[peer]` keeps a leader from running two loops for one peer. It is set when a loop starts
and cleared by the deferred function of the goroutine, so it must not stay set once the goroutine is
gone: from then on the leader would skip the peer in every broadcast.

`replication_restarts` says that this cannot happen. Whatever has crashed, was lost or came late, a
leader that is running can bring a `replicateTo` for any of its peers to its head, in three steps of
its own at most: it gives up the call that the old loop waits for, ends that loop, and ticks.
-/

namespace Cluster

open Raft Node

variable {σ : Type} {S : Setup σ} {w w' : World σ} {acts : List Action} {id p : String} {k : Nat}
  {c : Call}

/-- `id` leads in term `t`, runs, and counts `p` among its peers. -/
structure Presides (w : World σ) (id p : String) (t : Int) : Prop where
  up : w.up id = true
  running : (w.node id).stopped = false
  leader : (w.node id).state = .leader
  term_eq : (w.node id).currentTerm = t
  transport : (w.node id).transport.isSome = true
  peer : p ∈ (w.node id).peerIDs
  other : p ≠ (w.node id).id

variable {t : Int}

/-- A step that a node takes for its loops. -/
def ForLoops (id : String) (w : World σ) : Action → Prop
  | .go j _ => j = id
  | .tick j _ => j = id
  | .giveUp k => ∃ c, w.calls[k]? = some c ∧ c.src = id
  | _ => False

/-- Such steps change no other node. -/
theorem node_of_forLoops (hrun : Run S (ForLoops id) w acts w') {j : String} (hj : j ≠ id) :
    w'.node j = w.node j := by
  induction hrun with
  | nil w => rfl
  | @cons w w₁ w₂ act rest hok hstep _ ih =>
    refine ih.trans (node_of_untouched hstep ?_)
    intro htouch
    cases act with
    | go i k => exact hj ((Option.some.inj htouch).symm.trans hok)
    | tick i due => exact hj ((Option.some.inj htouch).symm.trans hok)
    | giveUp k =>
      obtain ⟨c, hk, hsrc⟩ := hok
      simp only [touched, hk, Option.map_some, Option.some.injEq] at htouch
      exact hj (htouch.symm.trans hsrc)
    | _ => exact hok

/-- A heartbeat starts a loop for a peer that is not marked. -/
theorem Presides.tick (h : Presides w id p t) (hfree : (w.node id).replicating p = false) :
    ∃ w', step S w (.tick id true) = some w' ∧ .replicateTo p ∈ (w'.node id).goroutines ∧
      (w'.node id).state = .leader ∧ (w'.node id).currentTerm = t := by
  refine ⟨w.setNode id ((w.node id).tick true), by simp [step, h.up, h.running], ?_⟩
  have htick : (w.node id).tick true =
      (w.node id).broadcastAppendEntriesLocked.applyCommittedLocked := by
    simp [RaftNode.tick, h.leader]
  have hgo := goroutines_applyCommitted (w.node id).broadcastAppendEntriesLocked
  obtain ⟨hs, ht⟩ := broadcast_role (w.node id)
  simp only [World.setNode, Function.update_self, htick]
  refine ⟨?_, ?_, ?_⟩
  · rw [hgo]
    exact mem_broadcast h.transport h.peer h.other hfree
  · rw [RaftNode.state_applyCommitted, hs]
    exact h.leader
  · rw [RaftNode.currentTerm_applyCommitted, ht]
    exact h.term_eq

/-- The deferred function clears the mark. -/
theorem Presides.done (h : Presides w id p t)
    (hdone : .replicateToDone p ∈ (w.node id).goroutines) :
    ∃ k w', step S w (.go id k) = some w' ∧ Presides w' id p t ∧
      (w'.node id).replicating p = false := by
  obtain ⟨k, hk⟩ := List.mem_iff_getElem?.mp hdone
  refine ⟨k, _, by simp only [step, h.up, if_true, hk, Option.map_some]; rfl, ?_⟩
  simp only [World.runGoroutine, World.setNode, Function.update_self, Function.update_idem]
  refine ⟨⟨h.up, ?_, ?_, ?_, ?_, ?_, ?_⟩, ?_⟩
  all_goals simp only [Function.update_self, RaftNode.replicateToDone]
  exacts [h.running, h.leader, h.term_eq, h.transport, h.peer, h.other]

/-- The goroutine that waits for a reply gets an error, and is about to return. -/
theorem Presides.giveUp (h : Presides w id p t) (hround : OpenRound w id p k c) :
    ∃ w', step S w (.giveUp k) = some w' ∧ Presides w' id p t ∧
      .replicateToDone p ∈ (w'.node id).goroutines := by
  have hstep : step S w (.giveUp k) = some (w.giveUpCall k c) := by
    simp [step, hround.get, hround.waiting, hround.src_eq, h.up]
  have hnode : (w.giveUpCall k c).node id = (w.node id).replicateAgain p false := by
    have hrep := hround.replicates
    rw [← hround.src_eq, ← hround.dst_eq]
    unfold World.giveUpCall
    rcases hrpc : c.rpc with ⟨req, resp⟩ | ⟨req, resp, _ | read⟩ | ⟨req, resp⟩
    · rw [hrpc] at hrep
      cases hrep
    · simp [World.setNode, World.setCall]
    · rw [hrpc] at hrep
      cases hrep
    · simp [World.setNode, World.setCall]
  have hup : (w.giveUpCall k c).up id = true := by
    rw [(heard_step hstep rfl).up_eq]
    exact h.up
  refine ⟨_, hstep, ⟨hup, ?_, ?_, ?_, ?_, ?_, ?_⟩, ?_⟩
  all_goals rw [hnode]
  exacts [h.running, h.leader, h.term_eq, h.transport, h.peer, h.other,
    List.mem_append_right _ (List.mem_singleton_self _)]

/-- A loop for any peer, in three steps at most. -/
theorem Presides.restarts (h : Presides w id p t) (htended : Tended w id) :
    ∃ own w', own.length ≤ 3 ∧ Run S (ForLoops id) w own w' ∧
      .replicateTo p ∈ (w'.node id).goroutines ∧ (w'.node id).state = .leader ∧
      (w'.node id).currentTerm = t := by
  cases hflag : (w.node id).replicating p with
  | false =>
    obtain ⟨w', hstep, hgoal⟩ := h.tick (S := S) hflag
    exact ⟨[.tick id true], w', by simp, .cons rfl hstep (.nil _), hgoal⟩
  | true =>
    -- the loop that the mark stands for is ready to go on, about to return, or waits for a reply
    rcases htended p hflag with (hready | hdone) | ⟨k, c, hround⟩
    · exact ⟨[], w, by simp, .nil _, hready, h.leader, h.term_eq⟩
    · obtain ⟨i, w₁, hgo, h₁, hfree⟩ := h.done (S := S) hdone
      obtain ⟨w₂, htick, hgoal⟩ := h₁.tick (S := S) hfree
      exact ⟨[.go id i, .tick id true], w₂, by simp, .cons rfl hgo (.cons rfl htick (.nil _)),
        hgoal⟩
    · obtain ⟨w₁, hgive, h₁, hdone⟩ := h.giveUp (S := S) hround
      obtain ⟨i, w₂, hgo, h₂, hfree⟩ := h₁.done (S := S) hdone
      obtain ⟨w₃, htick, hgoal⟩ := h₂.tick (S := S) hfree
      exact ⟨[.giveUp k, .go id i, .tick id true], w₃, by simp,
        .cons ⟨c, hround.get, hround.src_eq⟩ hgive (.cons rfl hgo (.cons rfl htick (.nil _))),
          hgoal⟩

/-- **A leader can always replicate.** -/
theorem replication_restarts {ok : World σ → Action → Prop} (hrun : Run S ok (World.init S) acts w)
    (hup : w.up id = true) (hrunning : (w.node id).stopped = false)
    (hlead : (w.node id).state = .leader) (hpeer : p ∈ (w.node id).peerIDs)
    (hother : p ≠ (w.node id).id) :
    ∃ own w', own.length ≤ 3 ∧ Run S (ForLoops id) w own w' ∧
      .replicateTo p ∈ (w'.node id).goroutines ∧ (w'.node id).state = .leader ∧
      (w'.node id).currentTerm = (w.node id).currentTerm ∧ ∀ j ≠ id, w'.node j = w.node j := by
  have heq := equipped_run hrun hup
  have hpres : Presides w id p (w.node id).currentTerm :=
    ⟨hup, hrunning, hlead, rfl, heq.transport, hpeer, hother⟩
  obtain ⟨own, w', hlen, hown, hgo, hld, hterm⟩ := hpres.restarts (S := S) heq.tended
  exact ⟨own, w', hlen, hown, hgo, hld, hterm, fun j hj => node_of_forLoops hown hj⟩

/-! A leader whose first request to `n2` is on its way: the mark is set, and no goroutine is ready.
-/

def lostRequest : List Action :=
  [.tick "n1" true, .go "n1" 0, .deliver 0, .reply 0, .go "n1" 1]

def awaiting : World Unit := after sample (World.init sample) lostRequest

theorem lostRequest_run : Run sample (fun _ _ => True) (World.init sample) lostRequest awaiting :=
  run_after (fun _ _ _ => trivial) (by decide +kernel)

theorem replication_restarts_sample :
    ((awaiting.node "n1").replicating "n2" = true ∧
      .replicateTo "n2" ∉ (awaiting.node "n1").goroutines) ∧
    ∃ own w', own.length ≤ 3 ∧ Run sample (ForLoops "n1") awaiting own w' ∧
      .replicateTo "n2" ∈ (w'.node "n1").goroutines ∧ (w'.node "n1").state = .leader ∧
      (w'.node "n1").currentTerm = (awaiting.node "n1").currentTerm ∧
      ∀ j ≠ "n1", w'.node j = awaiting.node j :=
  ⟨by decide +kernel, replication_restarts lostRequest_run (by decide +kernel) (by decide +kernel)
    (by decide +kernel) (by decide +kernel) (by decide +kernel)⟩

end Cluster
