import RaftStore.Results.Fixed
import RaftStore.Cluster.Hearing
import RaftStore.Cluster.Rounds
import RaftStore.Node.Position
import RaftStore.Node.Recovery
import RaftStore.Refine.Reading

/-!
# Catching up

A leader that runs `replicateTo` for a follower, and whose RPCs all arrive and are answered, should
bring the follower's log up to its own and return. It need not: a follower that has compacted the
entry the leader wants to start from refuses every request, a leader without a snapshot of its own
has nothing else to send, and the loop never returns (`refused_catch_up`).

Where the follower's snapshot reaches no further than the leader's next request or the leader's own
snapshot, and ends with an entry of the leader's log (`Meets`), the loop returns with the whole log
matched. Otherwise the follower refuses and ignores what it is sent, and the leader counts a
snapshot that was ignored as received. The loop returns then only if this makes the leader compact,
and the leader with its new snapshot meets the follower or has no entry left to send. `catch_up`
says both. In runs in which delivered snapshots keep the receiver's log, the second half of the
condition is always met (`compacted_agreement`).
-/

namespace Cluster

open Raft Refine Consensus

variable {σ : Type} {X : Mode σ} {a : Chron} {S : Setup σ} {members : AddrMap}
  {w w' : World σ} {act : Action} {acts : List Action} {l f : String}

/-- A `replicateTo` of `l` for `f` that is started now and runs alone returns, with the whole log of
`l` matched. -/
def CatchesUp (S : Setup σ) (w : World σ) (l f : String) : Prop :=
  Completes S l f (w.goReplicate l f)

theorem atHead_goReplicate (hl : w.up l = true) (hf : w.up f = true) (hne : f ≠ l) :
    AtHead (w.goReplicate l f) l f := by
  refine ⟨hl, hf, hne, ?_⟩
  simp [World.goReplicate, World.setNode, RaftNode.spawn]

theorem barred_goReplicate (h : Node.Barred (w.node l) (w.node f) f) (hne : f ≠ l) :
    Node.Barred ((w.goReplicate l f).node l) ((w.goReplicate l f).node f) f := by
  simp only [World.goReplicate, World.setNode, Function.update_self, Function.update_of_ne hne]
  exact { h with }

theorem linked_goReplicate (h : Node.Linked (w.node l) (w.node f) f) (hne : f ≠ l) :
    Node.Linked ((w.goReplicate l f).node l) ((w.goReplicate l f).node f) f := by
  simp only [World.goReplicate, World.setNode, Function.update_self, Function.update_of_ne hne]
  exact { h with }

/-! ## A loop that does not return

Only `n3` takes snapshots. It has stored the first entry of `n1`, but the reply was lost; the next
request, which carries the same entry, also says that the entry is committed. `n3` applies it and
compacts its log, and again the reply is lost. So `n1` still expects `n3` to need the first entry.
-/

/-- Only `n3` compacts. -/
def uneven : Setup Unit where
  machine := idle
  config := fun id =>
    { id := id, peerAddrs := threeNodes, snapshotThreshold := if id = "n3" then 1 else 0 }
  encode := fun _ value => value
  httpHost := fun _ => none

/-- `n1` is elected; its requests to `n3` arrive, and the replies are lost. -/
def losingReplies : List Action :=
  [.tick "n1" true, .go "n1" 0, .deliver 0, .reply 0, .go "n1" 1, .go "n1" 1, .deliver 2, .giveUp 2,
    .deliver 1, .reply 1, .go "n1" 1, .go "n1" 1, .tick "n1" true, .go "n1" 2, .deliver 3,
      .giveUp 3,
    .go "n1" 2]

/-- `n3` has compacted an entry that `n1` does not know it to have. -/
def unansweredWorld : World Unit := after uneven (World.init uneven) losingReplies

theorem losingReplies_run : Run uneven NoChange (World.init uneven) losingReplies unansweredWorld :=
  run_after (by simp [losingReplies, NoChange]) (by decide +kernel)

theorem uneven_fixed : Fixed uneven threeNodes :=
  ⟨fun _ => rfl, fun _ => rfl, by decide, by decide⟩

/-- **A loop may run for ever.** -/
theorem refused_catch_up : ∃ acts w, Run uneven NoChange (World.init uneven) acts w ∧
    (w.up "n1" = true ∧ w.up "n3" = true ∧ (w.node "n1").state = .leader ∧
      (w.node "n1").replicating "n3" = false ∧ (w.node "n3").state = .follower ∧
      (w.node "n3").currentTerm ≤ (w.node "n1").currentTerm) ∧ ¬ CatchesUp uneven w "n1" "n3" := by
  refine ⟨losingReplies, unansweredWorld, losingReplies_run, by decide +kernel, ?_⟩
  obtain ⟨a, _, hrel, _, _⟩ := fixed_chronicles uneven_fixed losingReplies_run (StepPath.nil _)
  have hup : unansweredWorld.up "n1" = true := by decide +kernel
  have hbarred : Node.Barred (unansweredWorld.node "n1") (unansweredWorld.node "n3") "n3" :=
    { leader := by decide +kernel
      term_le := by decide +kernel
      log := (hrel.node_rel hup).toLive.contiguous hrel.good
      base_nonneg := by decide +kernel
      next_pos := by decide +kernel
      ahead := by decide +kernel
      -- the next request starts at index 1, and the log of `n3` behind it
      apart := Or.inr (by decide +kernel) }
  exact not_completes_of_stuck (atHead_goReplicate hup (by decide +kernel) (by decide))
    ⟨barred_goReplicate hbarred (by decide), fun hpos => absurd hpos (by decide +kernel)⟩

/-! ## Leaders in a run -/

/-- A related world in which every leader starts from a positive index for every member, and no
snapshot is due. -/
structure Prepared (X : Mode σ) (w : World σ) : Prop where
  rel : ∃ a, WorldRel X a w
  positioned : ∀ j, w.up j = true → Node.Positioned X.members.keys (w.node j)
  undue : ∀ j, w.up j = true → Node.Undue (Node.body (w.node j))

/-- A node of a related world that has just started has nothing to compact. -/
theorem undue_of_boot (h : WorldRel X a w) {j : String} (hup : w.up j = true)
    {storage : Option Storage}
    (hnode : w.node j = RaftNode.boot X.setup.machine (X.setup.config j) storage) :
    Node.Undue (Node.body (w.node j)) := by
  obtain ⟨b, hst⟩ := (h.node_rel hup).stored
  have hbase : (w.node j).log.head.index = b := by
    rw [hst.log_eq]
    rfl
  rw [hnode] at hbase ⊢
  exact Node.undue_boot _ _ _ (by omega)

/-- At first nobody leads and nothing is due. -/
theorem prepared_init (hv : X.Valid) : Prepared X (World.init X.setup) := by
  refine ⟨⟨_, WorldRel.init hv⟩, fun j _ => Node.positioned_of_ne ?_, fun j hup => ?_⟩
  · show (RaftNode.boot _ _ _).state ≠ .leader
    rw [Node.state_boot]
    decide
  · exact undue_of_boot (WorldRel.init hv) hup rfl

/-- The requests in flight start at an index that exists. -/
theorem anchored_of_hears (h : WorldRel X a w) {ev : Event} (hears : Hears w act f ev) :
    Node.Anchored ev := by
  cases ev with
  | appendReply peer req resp =>
    -- the request was cut from the sender's log, at a position that is not negative
    obtain ⟨k, c, _, hk, _, _, hrpc⟩ := hears
    have hcall := (h.calls c (List.mem_of_getElem? hk)).2
    rw [hrpc] at hcall
    obtain ⟨⟨_, g, p, _, _, hprev, _⟩, _⟩ := hcall
    show 0 ≤ req.prevLogIndex
    omega
  | installReply peer req resp =>
    obtain ⟨k, c, _, hk, _, _, hrpc⟩ := hears
    have hcall := (h.calls c (List.mem_of_getElem? hk)).2
    rw [hrpc] at hcall
    obtain ⟨⟨_, _, g, _, _, hlast, _⟩, _⟩ := hcall
    show 0 ≤ req.lastIncludedIndex
    omega
  | _ => trivial

/-- **A step keeps the nodes prepared**: positions within the log, and no snapshot due. -/
theorem Prepared.step (h : Prepared X w) (hv : X.Valid) (hj : ¬ X.joiners)
    (hadm : Admissible X w act) (hstep : step X.setup w act = some w') : Prepared X w' := by
  obtain ⟨a, hrel⟩ := h.rel
  obtain ⟨a', hadv⟩ := hrel.step hv hadm hstep
  have hnode : ∀ j, w'.up j = true →
      Node.Positioned X.members.keys (w'.node j) ∧ Node.Undue (Node.body (w'.node j)) := by
    intro j hup
    -- a node that is started again follows, and has compacted what it could
    by_cases hact : act = .restart j
    · subst hact
      refine ⟨Node.positioned_of_ne ?_, undue_of_boot hadv.rel hup (node_restart hstep)⟩
      rw [node_restart hstep, Node.state_boot]
      decide
    -- any other node takes a turn
    · obtain ⟨hwup, gs, stopped, ev, _, hears, heq⟩ := step_heard hstep hup hact
      have hnode := (hrel.node_rel hwup).toLive
      obtain ⟨b, hst⟩ := hnode.stored
      rw [heq]
      refine ⟨Node.positioned_handle (n := { w.node j with goroutines := gs, stopped := stopped })
        (h.positioned j hwup) ?_ ?_ ?_ (anchored_of_hears hrel hears),
        Node.Undue.handle (n := { w.node j with goroutines := gs, stopped := stopped })
          (h.undue j hwup) ev⟩
      · intro p hp
        show p ∈ (w.node j).peerIDs
        rw [hnode.peerIDs_members hrel.good hj]
        exact hp
      · show 0 ≤ (w.node j).log.lastIncludedIndexLocked
        rw [hst.log_eq, lastIncludedIndex_render]
        omega
      · show 0 ≤ (w.node j).log.lastLogIndexLocked
        rw [hnode.lastLogIndex_eq hrel.good]
        omega
  exact ⟨⟨a', hadv.rel⟩, fun j hup => (hnode j hup).1, fun j hup => (hnode j hup).2⟩

theorem fixedMode_valid_of_fixed (hS : Fixed S members) : (fixedMode S members False True).Valid :=
  fixedMode_valid hS (fun hc => absurd trivial hc) (fun hs => hs.elim)

/-- The states of a run are prepared. -/
theorem prepared_of_run (hS : Fixed S members) (hrun : Run S NoChange (World.init S) acts w) :
    Prepared (fixedMode S members False True) w :=
  StepPath.invariant
    (fun _ _ _ h hn hstep => h.step (fixedMode_valid_of_fixed hS) (fun hj => hj)
      (admissible_of_noChange hn (fun hs => hs.elim)) hstep)
    hrun (prepared_init (fixedMode_valid_of_fixed hS))

/-- The loop may be started at any time. -/
theorem Prepared.goReplicate (h : Prepared X w) (hup : w.up l = true) (hne : f ≠ l) :
    Prepared X (w.goReplicate l f) := by
  obtain ⟨a, hrel⟩ := h.rel
  have hacted := hrel.lift_node hup
    (NodeRel.spawn (K := fun _ => True) (hrel.node_rel hup) hrel.good (g := .replicateTo f) hne)
  -- the node has one more goroutine, and nothing else changes
  have hnode : ∀ j, ∃ g, (w.goReplicate l f).node j = { w.node j with goroutines := g } := by
    intro j
    by_cases hj : j = l
    · subst hj
      exact ⟨_, Function.update_self _ _ _⟩
    · exact ⟨_, Function.update_of_ne hj _ _⟩
  refine ⟨⟨a, hacted.rel⟩, fun j hj => ?_, fun j hj => ?_⟩
  · obtain ⟨g, heq⟩ := hnode j
    rw [heq]
    exact h.positioned j hj
  · obtain ⟨g, heq⟩ := hnode j
    rw [heq]
    exact h.undue j hj

/-- A round consists of steps of the cluster. -/
theorem Prepared.once (hS : Fixed S members) (h : Prepared (fixedMode S members False True) w)
    (honce : replicateOnce S w l = some w') : Prepared (fixedMode S members False True) w' := by
  -- none of the steps of a round changes the membership
  have hstep : ∀ {v v' : World σ} {act : Action}, Prepared (fixedMode S members False True) v →
      NoChange v act → Cluster.step S v act = some v' →
      Prepared (fixedMode S members False True) v' :=
    fun hv hn hstep => hv.step (fixedMode_valid_of_fixed hS) (fun hj => hj)
      (admissible_of_noChange hn (fun hs => hs.elim)) hstep
  unfold replicateOnce at honce
  obtain ⟨w₁, hgo, honce⟩ := Option.bind_eq_some_iff.mp honce
  have h₁ := hstep h (by trivial) hgo
  split at honce
  · cases honce
    exact h₁
  · obtain ⟨w₂, hdeliver, hreply⟩ := Option.bind_eq_some_iff.mp honce
    exact hstep (hstep h₁ (by trivial) hdeliver) (by trivial) hreply

/-- Rounds that lead on keep the nodes prepared. -/
theorem Prepared.proceeds (hS : Fixed S members) {v : World σ}
    (h : Prepared (fixedMode S members False True) w) (hproceeds : Proceeds S l f w v) :
    Prepared (fixedMode S members False True) v := by
  induction hproceeds with
  | refl _ => exact h
  | again honce _ _ ih => exact ih (h.once hS honce)

/-! ## When the logs meet -/

/-- The follower's snapshot reaches no further than the entry before the leader's next request or
the leader's own snapshot, and ends with an entry of the leader's log, unless the leader has
compacted that entry. -/
def Meets (l f : RaftNode σ) (peer : String) : Prop :=
  f.log.lastIncludedIndexLocked ≤ max (l.next peer - 1) l.log.lastIncludedIndexLocked ∧
    (l.log.lastIncludedIndexLocked ≤ f.log.lastIncludedIndexLocked →
      l.log.termAtLocked f.log.lastIncludedIndexLocked = some f.log.lastIncludedTermLocked)

/-- Logs that meet are linked: the requests of the loop reach a common entry. -/
theorem Meets.linked {l f : RaftNode σ} {peer : String} (h : Meets l f peer)
    (hs : Node.Session l f peer) (hnn : 0 ≤ f.log.head.index) : Node.Linked l f peer where
  toSession := hs
  peer_nonneg := hnn
  agree := h.2
  reach := by
    rcases le_max_iff.mp h.1 with hlt | hle
    · exact Or.inl (Int.lt_of_le_sub_one hlt)
    · exact Or.inr hle

/-- Two logs of a run that have an entry in common agree on where the shorter one starts. -/
theorem termAt_base_of_common (h : WorldRel X a w) (hl : w.up l = true) (hf : w.up f = true)
    (hbase : (w.node l).log.head.index ≤ (w.node f).log.head.index) {i : Int}
    (hlo : (w.node f).log.head.index ≤ i) (hhi : i ≤ (w.node l).log.lastLogIndexLocked)
    (hsame : (w.node f).log.termAtLocked i = (w.node l).log.termAtLocked i) :
    (w.node l).log.termAtLocked (w.node f).log.head.index = some (w.node f).log.head.term := by
  -- both logs are pieces of the chronicle's
  obtain ⟨b, hst⟩ := (h.node_rel hl).stored
  obtain ⟨b', hst'⟩ := (h.node_rel hf).stored
  rw [(h.node_rel hl).toLive.lastLogIndex_eq h.good] at hhi
  rw [hst.log_eq, hst'.log_eq] at hsame hbase ⊢
  rw [hst'.log_eq] at hlo
  replace hbase : (b : Int) ≤ b' := hbase
  replace hlo : (b' : Int) ≤ i := hlo
  obtain ⟨j, rfl⟩ : ∃ j : Nat, i = j := ⟨i.toNat, by omega⟩
  rw [termAt_render (h := a.log l) (by omega) (by omega)] at hsame
  obtain ⟨_, hj, _, hlen⟩ := termAt_render_some hsame
  have hlen' : j ≤ (a.log f).length := by
    have := hst'.base_le
    omega
  rw [termAt_render (by omega) hlen', Option.some.injEq] at hsame
  -- the same term at one index, so the same entries up to there
  have htake := take_eq_of_endTerm (h.good.inv.logs.chained_log f) (h.good.inv.logs.chained_log l)
    hlen' (by omega) hsame
  have hbelow := congrArg (List.take b') htake
  rw [List.take_take, List.take_take, Nat.min_eq_left (by omega)] at hbelow
  show (render (a.log l) b).termAtLocked b' = some (endTerm ((a.log f).take b'))
  rw [termAt_render (by omega) (by omega), hbelow]

/-- **Where the logs do not meet, the follower bars the loop.** -/
theorem barred_of_not_meets (h : WorldRel X a w) (hl : w.up l = true) (hf : w.up f = true)
    (hs : Node.Session (w.node l) (w.node f) f) (hno : ¬ Meets (w.node l) (w.node f) f) :
    Node.Barred (w.node l) (w.node f) f := by
  -- a leader with a later snapshot would meet the log with it
  have hahead : (w.node l).log.head.index ≤ (w.node f).log.head.index := by
    by_contra hlt
    exact hno ⟨le_max_of_le_right (not_le.mp hlt).le, fun hle => absurd hle hlt⟩
  refine ⟨hs, hahead, ?_⟩
  by_cases hagree : (w.node l).log.termAtLocked (w.node f).log.head.index =
      some (w.node f).log.head.term
  · -- the start is out of reach
    have hreach : ¬ (w.node f).log.head.index ≤
        max ((w.node l).next f - 1) (w.node l).log.head.index :=
      fun hle => hno ⟨hle, fun _ => hagree⟩
    rw [le_max_iff, not_or] at hreach
    right
    omega
  · exact Or.inl fun i hlo hhi hsame =>
      hagree (termAt_base_of_common h hl hf hahead hlo hhi hsame)

/-! ## Loops that return -/

/-- The leader once it has counted its snapshot as received. -/
def credited (l : RaftNode σ) (peer : String) : RaftNode σ :=
  l.matched peer l.log.lastIncludedIndexLocked

/-- The snapshot covers the whole log. -/
def Emptied (l : RaftNode σ) : Prop := l.log.lastIncludedIndexLocked = l.log.lastLogIndexLocked

/-- No log begins below zero. -/
theorem Prepared.base_nonneg (h : Prepared X w) {j : String} (hup : w.up j = true) :
    0 ≤ (w.node j).log.head.index := by
  obtain ⟨a, hrel⟩ := h.rel
  obtain ⟨b, hst⟩ := (hrel.node_rel hup).stored
  rw [hst.log_eq]
  exact Int.natCast_nonneg b

theorem Prepared.peerIDs_eq (h : Prepared X w) (hj : ¬ X.joiners) {j : String}
    (hup : w.up j = true) : (w.node j).peerIDs = X.members.keys := by
  obtain ⟨a, hrel⟩ := h.rel
  exact (hrel.node_rel hup).toLive.peerIDs_members hrel.good hj

/-- A leader and a member that is not ahead of it in terms are in a session. -/
theorem Prepared.session (h : Prepared X w) (hl : w.up l = true) (hmem : f ∈ X.members.keys)
    (hlead : (w.node l).state = .leader)
    (hterm : (w.node f).currentTerm ≤ (w.node l).currentTerm) :
    Node.Session (w.node l) (w.node f) f := by
  obtain ⟨a, hrel⟩ := h.rel
  exact ⟨hlead, hterm, (hrel.node_rel hl).toLive.contiguous hrel.good, h.base_nonneg hl,
    h.positioned l hl hlead f hmem⟩

theorem completes_of_meets (h : Prepared X w) (hhead : AtHead w l f)
    (hs : Node.Session (w.node l) (w.node f) f) (hmeets : Meets (w.node l) (w.node f) f) :
    Completes S l f w := by
  exact OnTrack.completes ⟨hhead, hmeets.linked hs (h.base_nonneg hhead.up_peer)⟩

/-- **The loop after an ignored snapshot.** The leader has just counted it as received, and goes on
with the entries behind it. -/
theorem completes_credited_iff (h : Prepared X w) (hhead : AtHead w l f)
    (hs : Node.Session (w.node l) (w.node f) f) (hspent : Node.Spent (w.node l) f)
    (hnext : (w.node l).next f ≤ (w.node l).log.lastLogIndexLocked) :
    Completes S l f w ↔ Emptied (w.node l) ∨ Meets (w.node l) (w.node f) f := by
  by_cases hmeets : Meets (w.node l) (w.node f) f
  · exact iff_of_true (completes_of_meets h hhead hs hmeets) (Or.inr hmeets)
  obtain ⟨a, hrel⟩ := h.rel
  have hbarred := barred_of_not_meets hrel hhead.up_sender hhead.up_peer hs hmeets
  by_cases hempty : Emptied (w.node l)
  · -- the new snapshot is sent, ignored and counted, and nothing is left
    refine iff_of_true ?_ (Or.inl hempty)
    obtain ⟨w', honce, _, hconf, _⟩ := once_of_barred (S := S) hhead hbarred (hnext.trans hempty.ge)
    have hlast : (w'.node l).log.lastLogIndexLocked = (w.node l).log.head.index :=
      (hconf.log.lastLogIndex_eq hs.log).trans hempty.symm
    exact completes_of_confirmed honce hconf hlast.ge (fun hlt => absurd hlast hlt.ne')
  -- another round is like this one
  · refine iff_of_false ?_ (not_or.mpr ⟨hempty, hmeets⟩)
    refine not_completes_of_stuck hhead ⟨hbarred, fun _ => ⟨hspent, ?_⟩⟩
    have hlen := Log.lastLogIndex_of_contiguous hs.log
    replace hempty : (w.node l).log.head.index ≠ (w.node l).log.lastLogIndexLocked := hempty
    omega

/-- **The loop that a follower bars**, of a leader `n` that has a snapshot. -/
theorem completes_barred_iff (hS : Fixed S members)
    (h : Prepared (fixedMode S members False True) w)
    (hhead : AtHead w l f) (hbarred : Node.Barred (w.node l) (w.node f) f) {n : RaftNode σ}
    (hn : Node.Retimed n (w.node l)) (hpos : 0 < n.log.head.index) :
    Completes S l f w ↔ Emptied (credited n f) ∨ Meets (credited n f) (w.node f) f := by
  have hsnap : (w.node l).log.head.index = n.log.head.index := by
    obtain ⟨_, _, heq⟩ := hn
    rw [heq]
  -- the rounds up to the snapshot, and the round that sends it
  obtain ⟨v, hproceeds, hv, hvb, hvle, hvsame, hvlog⟩ :=
    proceeds_of_barred (S := S) hhead hbarred (by rw [hsnap]; exact hpos)
  obtain ⟨w', honce, hup, hconf, hretimed, hs, hlog⟩ := once_of_barred (S := S) hv hvb hvle
  have hvp := h.proceeds hS hproceeds
  have hwp := hvp.once hS honce
  have hwl : w'.up l = true := by rw [hup]; exact hv.up_sender
  have hbase : (v.node l).log.head.index = n.log.head.index := by
    obtain ⟨_, _, heq⟩ := hn.trans hvsame
    rw [heq]
  -- the leader is the one that has counted its snapshot, as far as it matters
  have hcredited : (w'.node l).log = (credited n f).log := by
    have hmatched := (hn.trans hvsame).matched f n.log.head.index
    rw [← hbase] at hmatched
    obtain ⟨_, _, heq⟩ := hmatched.trans hretimed
    rw [heq, hbase]
    rfl
  have hnext : (w'.node l).next f = (credited n f).next f := by
    rw [hconf.next_eq, hbase]
    exact (Node.confirmed n f n.log.head.index).next_eq.symm
  have hemptied : Emptied (w'.node l) ↔ Emptied (credited n f) := by
    unfold Emptied
    rw [hcredited]
  have hmeets : Meets (w'.node l) (w'.node f) f ↔ Meets (credited n f) (w.node f) f := by
    unfold Meets
    rw [hcredited, hnext, hlog, hvlog]
  rw [hproceeds.completes_iff, ← hemptied, ← hmeets]
  have hlen := Log.lastLogIndex_of_contiguous hs.log
  have hmove : (v.node l).log.head.index ≤ (w'.node l).log.head.index := hconf.log.head_le
  -- the snapshot is counted; either the log goes on behind it, or the loop is done
  by_cases hmore : (w'.node l).log.lastLogIndexLocked > (v.node l).log.head.index
  · have hgo := hconf.goroutines_eq
    rw [if_pos hmore] at hgo
    have hlast : (w'.node l).goroutines.getLast? = some (.replicateTo f) := by simp [hgo]
    have hspent : Node.Spent (w'.node l) f := by
      refine (Node.spent_matched (hvp.undue l hv.up_sender) hvb.log ?_).retimed hretimed
      -- the configuration is the same all the time
      have hids := (hwp.peerIDs_eq (fun hj => hj) hwl).trans
        (hvp.peerIDs_eq (fun hj => hj) hv.up_sender).symm
      obtain ⟨_, _, heq⟩ := hretimed
      rw [heq] at hids
      exact hids
    rw [completes_iff_of_again honce hlast]
    refine completes_credited_iff hwp ⟨hwl, by rw [hup]; exact hv.up_peer, hv.ne, hlast⟩ hs hspent
      ?_
    rw [hconf.next_eq]
    omega
  · refine iff_of_true ?_ (Or.inl ?_)
    · exact completes_of_confirmed honce hconf (by omega) (fun hlt => absurd hlt hmore)
    · show (w'.node l).log.head.index = (w'.node l).log.lastLogIndexLocked
      omega

/-- **Catching up.** The loop returns with the whole log matched exactly if the logs meet, or the
leader has a snapshot and, after it has counted it as received, has compacted its whole log or so
much of it that they do. -/
theorem catch_up (hS : Fixed S members) (hrun : Run S NoChange (World.init S) acts w)
    (hl : w.up l = true) (hf : w.up f = true) (hne : f ≠ l) (hmem : f ∈ members.keys)
    (hlead : (w.node l).state = .leader)
    (hterm : (w.node f).currentTerm ≤ (w.node l).currentTerm) :
    CatchesUp S w l f ↔ Meets (w.node l) (w.node f) f ∨
      (0 < (w.node l).log.lastIncludedIndexLocked ∧
        (Emptied (credited (w.node l) f) ∨ Meets (credited (w.node l) f) (w.node f) f)) := by
  have hprep := prepared_of_run hS hrun
  have hs := hprep.session hl hmem hlead hterm
  have hhead := atHead_goReplicate hl hf hne
  -- the logs meet
  by_cases hmeets : Meets (w.node l) (w.node f) f
  · refine iff_of_true ?_ (Or.inl hmeets)
    exact OnTrack.completes ⟨hhead,
      linked_goReplicate (hmeets.linked hs (hprep.base_nonneg hf)) hne⟩
  obtain ⟨a, hrel⟩ := hprep.rel
  have hbarred := barred_goReplicate (barred_of_not_meets hrel hl hf hs hmeets) hne
  rw [or_iff_right hmeets]
  by_cases hpos : 0 < (w.node l).log.lastIncludedIndexLocked
  · rw [and_iff_right hpos]
    have hiff := completes_barred_iff hS (hprep.goReplicate hl hne) hhead hbarred
      (n := w.node l) ⟨_, _, Function.update_self _ _ _⟩ hpos
    rwa [show (w.goReplicate l f).node f = w.node f from Function.update_of_ne hne _ _] at hiff
  · -- it has no snapshot to send
    refine iff_of_false (not_completes_of_stuck hhead ⟨hbarred, fun hpos' => ?_⟩)
      (fun h => hpos h.1)
    rw [show (w.goReplicate l f).node l = (w.node l).spawn (.replicateTo f) from
      Function.update_self _ _ _] at hpos'
    exact absurd hpos' hpos

/-- Where delivered snapshots keep the receiver's log, what a follower has compacted is settled, so
later leaders hold it. -/
theorem compacted_agreement (hS : Fixed S members) (hsub : Substantial S)
    (hrun : Run S (fun w act => NoChange w act ∧ KeepsLogs w act) (World.init S) acts w)
    (hl : w.up l = true) (hf : w.up f = true) (hlead : (w.node l).state = .leader)
    (hterm : (w.node f).currentTerm ≤ (w.node l).currentTerm)
    (hle : (w.node l).log.lastIncludedIndexLocked ≤ (w.node f).log.lastIncludedIndexLocked) :
    (w.node l).log.termAtLocked (w.node f).log.lastIncludedIndexLocked =
      some (w.node f).log.lastIncludedTermLocked := by
  obtain ⟨a, hrel⟩ := compacted_rel hS hsub hrun
  -- the leader's log holds all that was settled before its term
  obtain ⟨⟨Q, hwon⟩, hreign⟩ := hrel.leader hl hlead
  obtain ⟨b, hst⟩ := (hrel.node_rel hl).stored
  obtain ⟨b', hst'⟩ := (hrel.node_rel hf).stored
  have hprefix : (a.log f).take b' <+: a.log l := by
    rw [← hreign]
    exact (hst'.settled trivial).isPrefix_reign hrel.good.inv
      (hrel.good.inv.safe trivial) hwon hterm
  have hlen : ((a.log f).take b').length = b' := by
    rw [List.length_take, Nat.min_eq_left hst'.base_le]
  have hsame : (a.log f).take b' = (a.log l).take b' := by
    have htake := List.prefix_iff_eq_take.mp hprefix
    rwa [hlen] at htake
  have hlong := hprefix.length_le
  -- so the follower's dummy stands for an entry of the leader's
  rw [hst.log_eq, hst'.log_eq, lastIncludedIndex_render, lastIncludedIndex_render] at hle
  rw [hst.log_eq, hst'.log_eq, lastIncludedIndex_render, lastIncludedTerm_render,
    termAt_render (by omega) (by omega), hsame]

/-! In the cluster above, with one reply more: `n3` has compacted its log up to where the next
request starts. -/

/-- The same start, with the first reply to `n1`. -/
def oneReply : List Action :=
  [.tick "n1" true, .go "n1" 0, .deliver 0, .reply 0, .go "n1" 1, .go "n1" 1, .deliver 2, .reply 2,
    .go "n1" 1, .tick "n1" true, .go "n1" 1, .deliver 3, .giveUp 3, .propose "n1" [7]]

/-- `n1` knows that `n3` has its first entry. -/
def answeredWorld : World Unit := after uneven (World.init uneven) oneReply

theorem catch_up_sample :
    ((answeredWorld.node "n3").log.lastIncludedIndexLocked = 1 ∧
      (answeredWorld.node "n1").log.lastIncludedIndexLocked = 0 ∧
      (answeredWorld.node "n1").next "n3" = 2 ∧ (answeredWorld.node "n1").matchIndex "n3" = 1 ∧
      (answeredWorld.node "n1").log.lastLogIndexLocked = 2) ∧
      CatchesUp uneven answeredWorld "n1" "n3" :=
  ⟨by decide +kernel, (catch_up uneven_fixed
    (run_after (by simp [oneReply, NoChange]) (by decide +kernel)) (by decide +kernel)
    (by decide +kernel) (by decide) (by decide) (by decide +kernel) (by decide +kernel)).mpr
    (Or.inl ⟨by decide +kernel, by decide +kernel⟩)⟩

end Cluster
