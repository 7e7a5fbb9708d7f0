import RaftStore.Cluster.World
import RaftStore.Node.Stuck

/-!
# The loop of `replicateTo`

The steps of the cluster in which one `replicateTo` runs alone: the goroutine up to its RPC, the
peer's handler, the reply, and so on until the goroutine returns (`replicateLoop`). A round of the
loop acts on the two nodes as `Node.round` does (`replicateOnce_eq`), so a loop of which every round
leads on completes (`OnTrack.completes`), and one whose rounds lead nowhere does not return
(`not_completes_of_stuck`). A loop that the peer bars gets to the round in which it sends the
leader's snapshot for nothing (`proceeds_of_barred`), and what comes of it depends on the leader
after that.
-/

namespace Cluster

open Raft RaftNode

variable {σ : Type} {S : Setup σ} {w w' : World σ} {l f : String}

/-- `go n.replicateTo(peer)`. -/
def World.goReplicate (w : World σ) (id peer : String) : World σ :=
  w.setNode id ((w.node id).spawn (.replicateTo peer))

/-- The goroutine that `id` has started last runs up to its RPC. If it makes one, the peer handles
the request and the goroutine gets the reply. -/
def replicateOnce (S : Setup σ) (w : World σ) (id : String) : Option (World σ) :=
  (step S w (.go id ((w.node id).goroutines.length - 1))).bind (fun w₁ =>
    if w₁.calls.length = w.calls.length then some w₁
    else
      (step S w₁ (.deliver w.calls.length)).bind (fun w₂ => step S w₂ (.reply w.calls.length)))

/-- At most so many rounds of the `replicateTo` that `id` has started last; `none` if it has not
returned by then. -/
def replicateLoop (S : Setup σ) (id peer : String) : Nat → World σ → Option (World σ)
  | 0, _ => none
  | k + 1, w =>
    (replicateOnce S w id).bind (fun w' =>
      if (w'.node id).goroutines.getLast? = some (.replicateTo peer) then
        replicateLoop S id peer k w'
      else some w')

/-! ## One round -/

/-- Both nodes are up, and `l` is at the head of a `replicateTo` for `f`. -/
structure AtHead (w : World σ) (l f : String) : Prop where
  up_sender : w.up l = true
  up_peer : w.up f = true
  ne : f ≠ l
  last : (w.node l).goroutines.getLast? = some (.replicateTo f)

/-- The sender once the goroutine runs. -/
def sender (w : World σ) (l : String) : RaftNode σ :=
  { w.node l with goroutines := (w.node l).goroutines.dropLast }

theorem step_go (h : AtHead w l f) : step S w (.go l ((w.node l).goroutines.length - 1)) =
    some ((w.setNode l (sender w l)).runGoroutine l (.replicateTo f)) := by
  have hget : (w.node l).goroutines[(w.node l).goroutines.length - 1]? = some (.replicateTo f) := by
    rw [← List.getLast?_eq_getElem?]
    exact h.last
  simp only [step, h.up_sender, if_true, hget, Option.map_some]
  rw [List.eraseIdx_length_sub_one]
  rfl

/-- **A round of the loop is a round of the two nodes.** -/
theorem replicateOnce_eq (h : AtHead w l f) : ∃ w', replicateOnce S w l = some w' ∧
    w'.up = w.up ∧ w'.node l = (Node.round (sender w l) (w.node f) f).1 ∧
      w'.node f = (Node.round (sender w l) (w.node f) f).2 := by
  have hup := h.up_sender
  have hup' := h.up_peer
  have hne := h.ne
  unfold replicateOnce
  rw [step_go h, Option.bind_some]
  unfold Node.round World.runGoroutine
  simp only [World.setNode, Function.update_self]
  rcases hhead : (sender w l).replicateToHead f with ⟨m, _ | req | req⟩
  · -- it returns without a call
    simp [hne]
  · simp [World.addCall, step, World.deliverCall, World.replyCall, World.setNode, World.setCall,
      hup, hup', hne, hne.symm]
  · simp [World.addCall, step, World.deliverCall, World.replyCall, World.setNode, World.setCall,
      hup, hup', hne, hne.symm]

/-! ## Loops that complete -/

/-- The loop returns, and then the leader takes the whole log to be matched. -/
def Completes (S : Setup σ) (l f : String) (w : World σ) : Prop :=
  ∃ k w', replicateLoop S l f k w = some w' ∧
    (w'.node l).matchIndex f = (w'.node l).log.lastLogIndexLocked

/-- One more round: whether the loop completes is decided by the rest. -/
theorem completes_iff_of_again (honce : replicateOnce S w l = some w')
    (hlast : (w'.node l).goroutines.getLast? = some (.replicateTo f)) :
    Completes S l f w ↔ Completes S l f w' := by
  have hloop : ∀ k, replicateLoop S l f (k + 1) w = replicateLoop S l f k w' := by
    intro k
    rw [replicateLoop, honce, Option.bind_some, if_pos hlast]
  constructor
  · rintro ⟨k, v, hv, hmatch⟩
    cases k with
    | zero => cases hv
    | succ k => exact ⟨k, v, (hloop k).symm.trans hv, hmatch⟩
  · rintro ⟨k, v, hv, hmatch⟩
    exact ⟨k + 1, v, (hloop k).trans hv, hmatch⟩

/-- The last round. -/
theorem completes_of_return (honce : replicateOnce S w l = some w')
    (hlast : (w'.node l).goroutines.getLast? = some (.replicateToDone f))
    (hmatch : (w'.node l).matchIndex f = (w'.node l).log.lastLogIndexLocked) :
    Completes S l f w := by
  refine ⟨1, w', ?_, hmatch⟩
  unfold replicateLoop
  rw [honce, Option.bind_some, if_neg (by simp [hlast])]

/-- A confirmation either ends the loop or leaves it at its head. -/
theorem completes_of_confirmed {n : RaftNode σ} {i : Int} (honce : replicateOnce S w l = some w')
    (hconf : Node.Confirmed n f i (w'.node l)) (hle : i ≤ (w'.node l).log.lastLogIndexLocked)
    (hmore : i < (w'.node l).log.lastLogIndexLocked →
      (w'.node l).goroutines.getLast? = some (.replicateTo f) → Completes S l f w') :
    Completes S l f w := by
  have hgo := hconf.goroutines_eq
  by_cases hlt : (w'.node l).log.lastLogIndexLocked > i
  · rw [if_pos hlt] at hgo
    have hlast : (w'.node l).goroutines.getLast? = some (.replicateTo f) := by simp [hgo]
    exact (completes_iff_of_again honce hlast).mpr (hmore hlt hlast)
  · rw [if_neg hlt] at hgo
    refine completes_of_return honce (by simp [hgo]) ?_
    rw [hconf.match_eq]
    omega

/-- The loop is at its head, and its rounds lead on. -/
structure OnTrack (w : World σ) (l f : String) : Prop extends AtHead w l f where
  linked : Node.Linked (w.node l) (w.node f) f

theorem OnTrack.linked_sender (h : OnTrack w l f) : Node.Linked (sender w l) (w.node f) f :=
  { h.linked with }

/-- The peer's log fits: this was the last round. -/
theorem OnTrack.accepted (h : OnTrack w l f)
    (hlt : (w.node l).log.head.index < (w.node l).next f)
    (hfit : Node.Attaches (w.node l) (w.node f) f) : Completes S l f w := by
  obtain ⟨w', honce, _, hnode, _⟩ := replicateOnce_eq (S := S) h.toAtHead
  rw [h.linked_sender.toSession.accepted hlt hfit] at hnode
  have hconf := Node.confirmed ((sender w l).clampNext f) f (sender w l).log.lastLogIndexLocked
  have hlog : ((sender w l).clampNext f).log = (w.node l).log := by
    obtain ⟨next, hclamp⟩ := (sender w l).clampNext_eq f
    rw [hclamp]
    rfl
  have hlast := hconf.log.lastLogIndex_eq (by rw [hlog]; exact h.linked.log)
  rw [hlog] at hlast
  rw [← hnode] at hconf hlast
  exact completes_of_confirmed honce hconf hlast.ge (fun hgt => absurd hlast.le (not_le.mpr hgt))

/-- The leader has to send its snapshot. -/
theorem OnTrack.sent (h : OnTrack w l f) (hle : (w.node l).next f ≤ (w.node l).log.head.index) :
    ∃ w', replicateOnce S w l = some w' ∧ w'.up = w.up ∧
      Node.Confirmed (sender w l) f (w.node l).log.head.index (w'.node l) ∧
      Node.Linked (w'.node l) (w'.node f) f ∧
      (w'.node f).log.head.index = (w.node l).log.head.index := by
  obtain ⟨w', honce, hup, hnode, hpeer⟩ := replicateOnce_eq (S := S) h.toAtHead
  obtain ⟨l', f', hround, hconf, hlinked, hidx⟩ := h.linked_sender.sent hle
  rw [hround] at hnode hpeer
  dsimp only at hnode hpeer
  refine ⟨w', honce, hup, ?_⟩
  rw [hnode, hpeer]
  exact ⟨hconf, hlinked, hidx⟩

/-- A loop that sends the snapshot completes. While it is under way the leader may compact more of
its log, and the loop sends that snapshot as well; the log behind it gets shorter each time. -/
theorem OnTrack.completes_of_le (h : OnTrack w l f)
    (hle : (w.node l).next f ≤ (w.node l).log.head.index) : Completes S l f w := by
  induction hk : ((w.node l).log.lastLogIndexLocked - (w.node l).log.head.index).toNat
    using Nat.strong_induction_on generalizing w with
  | _ k ih =>
    obtain ⟨w', honce, hup, hconf, hlinked, hidx⟩ := h.sent (S := S) hle
    have hmove : (w.node l).log.head.index ≤ (w'.node l).log.head.index := hconf.log.head_le
    have hlast : (w'.node l).log.lastLogIndexLocked = (w.node l).log.lastLogIndexLocked :=
      hconf.log.lastLogIndex_eq h.linked.log
    have hlen := Log.lastLogIndex_of_contiguous h.linked.log
    refine completes_of_confirmed honce hconf (by omega) (fun hgt hgo => ?_)
    have hnext : OnTrack w' l f :=
      ⟨⟨by rw [hup]; exact h.up_sender, by rw [hup]; exact h.up_peer, h.ne, hgo⟩, hlinked⟩
    rcases hmove.eq_or_lt with heq | hlt
    · -- the peer stands at the leader's snapshot
      refine hnext.accepted (by rw [hconf.next_eq]; omega) (hlinked.attaches (by omega) ?_)
      unfold startIndex
      rw [hconf.next_eq]
      omega
    · refine ih _ (by omega) hnext ?_ rfl
      rw [hconf.next_eq]
      omega

/-- The peer refuses: the loop goes on further back. -/
theorem OnTrack.refused (h : OnTrack w l f)
    (hlt : (w.node l).log.head.index < (w.node l).next f)
    (hfit : ¬ Node.Attaches (w.node l) (w.node f) f) :
    ∃ w', replicateOnce S w l = some w' ∧ OnTrack w' l f ∧ (w'.node l).log = (w.node l).log ∧
      ((w'.node l).next f ≤ (w.node l).log.head.index ∨
        (w'.node l).next f = (w.node l).startIndex f - 1) := by
  obtain ⟨w', honce, hup, hnode, hpeer⟩ := replicateOnce_eq (S := S) h.toAtHead
  obtain ⟨l', f', hround, hlinked, hlog, hgo, hnext⟩ := h.linked_sender.refused hlt hfit
  rw [hround] at hnode hpeer
  dsimp only at hnode hpeer
  refine ⟨w', honce, ⟨⟨by rw [hup]; exact h.up_sender, by rw [hup]; exact h.up_peer, h.ne, ?_⟩, ?_⟩,
    ?_, ?_⟩
  · simp [hnode, hgo]
  · rw [hnode, hpeer]
    exact hlinked
  · rw [hnode]
    exact hlog
  · rw [hnode]
    exact hnext

/-- **A loop whose rounds lead on completes.** Every refusal moves the start back, until the entries
fit or the leader's snapshot is next. -/
theorem OnTrack.completes (h : OnTrack w l f) : Completes S l f w := by
  induction hk : ((w.node l).startIndex f - (w.node l).log.head.index).toNat
    using Nat.strong_induction_on generalizing w with
  | _ k ih =>
    rcases le_or_gt ((w.node l).next f) (w.node l).log.head.index with hle | hlt
    · exact h.completes_of_le hle
    by_cases hfit : Node.Attaches (w.node l) (w.node f) f
    · exact h.accepted hlt hfit
    obtain ⟨w', honce, hnext, hlog, hmoved⟩ := h.refused (S := S) hlt hfit
    refine (completes_iff_of_again honce hnext.last).mpr ?_
    rcases hmoved with hle | heq
    · exact hnext.completes_of_le (by rw [hlog]; exact hle)
    · have hlen := Log.lastLogIndex_of_contiguous h.linked.log
      refine ih _ ?_ hnext rfl
      rw [← hk, hlog]
      unfold startIndex at heq ⊢
      rw [hlog]
      omega

/-! ## Loops that do not return -/

/-- **A loop whose rounds lead nowhere runs for ever.** -/
theorem not_completes_of_stuck (h : AtHead w l f) (hs : Node.Stuck (w.node l) (w.node f) f) :
    ¬ Completes S l f w := by
  rintro ⟨k, v, hloop, _⟩
  induction k generalizing w with
  | zero => cases hloop
  | succ k ih =>
    have hsender : Node.Stuck (sender w l) (w.node f) f :=
      { hs with spent := fun hpos => ⟨(hs.spent hpos).1.retimed ⟨_, _, rfl⟩, (hs.spent hpos).2⟩ }
    obtain ⟨w', honce, hup, hnode, hpeer⟩ := replicateOnce_eq (S := S) h
    obtain ⟨l', f', hround, hstuck, hgo⟩ := hsender.round
    rw [hround] at hnode hpeer
    dsimp only at hnode hpeer
    have hlast : (w'.node l).goroutines.getLast? = some (.replicateTo f) := by simp [hnode, hgo]
    unfold replicateLoop at hloop
    rw [honce, Option.bind_some, if_pos hlast] at hloop
    refine ih ⟨by rw [hup]; exact h.up_sender, by rw [hup]; exact h.up_peer, h.ne, hlast⟩ ?_ hloop
    rw [hnode, hpeer]
    exact hstuck

/-! ## Loops that are barred -/

/-- Rounds of the loop, after each of which it goes on. -/
inductive Proceeds (S : Setup σ) (l f : String) : World σ → World σ → Prop
  | refl (w : World σ) : Proceeds S l f w w
  | again {w w' v : World σ} (honce : replicateOnce S w l = some w')
      (hlast : (w'.node l).goroutines.getLast? = some (.replicateTo f))
      (rest : Proceeds S l f w' v) :
      Proceeds S l f w v

theorem Proceeds.completes_iff {v : World σ} (h : Proceeds S l f w v) :
    Completes S l f w ↔ Completes S l f v := by
  induction h with
  | refl _ => exact Iff.rfl
  | again honce hlast _ ih => exact (completes_iff_of_again honce hlast).trans ih

/-- **A barred loop gets to the leader's snapshot**, if there is one. On the way the leader changes
nothing but its next index. -/
theorem proceeds_of_barred (h : AtHead w l f) (hb : Node.Barred (w.node l) (w.node f) f)
    (hpos : 0 < (w.node l).log.head.index) : ∃ v, Proceeds S l f w v ∧ AtHead v l f ∧
      Node.Barred (v.node l) (v.node f) f ∧ (v.node l).next f ≤ (v.node l).log.head.index ∧
      Node.Retimed (w.node l) (v.node l) ∧ (v.node f).log = (w.node f).log := by
  -- every refusal moves the start back
  induction hk : ((w.node l).startIndex f - (w.node l).log.head.index).toNat
    using Nat.strong_induction_on generalizing w with
  | _ k ih =>
    rcases le_or_gt ((w.node l).next f) (w.node l).log.head.index with hle | hlt
    · exact ⟨w, .refl w, h, hb, hle, .refl _, rfl⟩
    have hsender : Node.Barred (sender w l) (w.node f) f := { hb with }
    obtain ⟨w', honce, hup, hnode, hpeer⟩ := replicateOnce_eq (S := S) h
    obtain ⟨l', f', hround, hbarred, hsame, hgo, hlog', hmoved⟩ := hsender.refused hlt
    rw [hround] at hnode hpeer
    dsimp only at hnode hpeer
    have hlast : (w'.node l).goroutines.getLast? = some (.replicateTo f) := by simp [hnode, hgo]
    have hhead : AtHead w' l f :=
      ⟨by rw [hup]; exact h.up_sender, by rw [hup]; exact h.up_peer, h.ne, hlast⟩
    have hretimed : Node.Retimed (w.node l) (w'.node l) := by
      rw [hnode]
      exact Node.Retimed.trans ⟨_, _, rfl⟩ hsame
    have hlog : (w'.node l).log = (w.node l).log := by
      obtain ⟨_, _, heq⟩ := hretimed
      rw [heq]
    have hnext : (w'.node l).next f ≤ (w.node l).log.head.index ∨
        (w'.node l).next f = (w.node l).startIndex f - 1 := by
      rw [hnode]
      exact hmoved hpos
    have hbarred' : Node.Barred (w'.node l) (w'.node f) f := by
      rw [hnode, hpeer]
      exact hbarred
    have hlen := Log.lastLogIndex_of_contiguous hb.log
    have hless : ((w'.node l).startIndex f - (w'.node l).log.head.index).toNat < k := by
      rw [← hk]
      unfold startIndex at hnext ⊢
      rw [hlog]
      omega
    obtain ⟨v, hproceeds, hv, hvb, hvle, hvsame, hvlog⟩ :=
      ih _ hless hhead hbarred' (by rw [hlog]; exact hpos) rfl
    exact ⟨v, .again honce hlast hproceeds, hv, hvb, hvle, hretimed.trans hvsame,
      hvlog.trans (by rw [hpeer, hlog'])⟩

/-- The round that sends the snapshot for nothing. -/
theorem once_of_barred (h : AtHead w l f) (hb : Node.Barred (w.node l) (w.node f) f)
    (hle : (w.node l).next f ≤ (w.node l).log.head.index) : ∃ w', replicateOnce S w l = some w' ∧
      w'.up = w.up ∧ Node.Confirmed (sender w l) f (w.node l).log.head.index (w'.node l) ∧
      Node.Retimed ((w.node l).matched f (w.node l).log.head.index) (w'.node l) ∧
      Node.Session (w'.node l) (w'.node f) f ∧ (w'.node f).log = (w.node f).log := by
  have hsender : Node.Barred (sender w l) (w.node f) f := { hb with }
  obtain ⟨w', honce, hup, hnode, hpeer⟩ := replicateOnce_eq (S := S) h
  obtain ⟨f', hround, hterm, hlog⟩ := hsender.sent hle
  rw [hround] at hnode hpeer
  dsimp only at hnode hpeer
  refine ⟨w', honce, hup, ?_, ?_, ?_, ?_⟩
  · rw [hnode]
    exact Node.confirmed _ _ _
  · rw [hnode]
    exact Node.Retimed.matched ⟨_, _, rfl⟩ f _
  · rw [hnode, hpeer]
    exact hsender.toSession.counted hterm
  · rw [hpeer, hlog]

end Cluster
