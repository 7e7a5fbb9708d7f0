import RaftStore.Refine.Simulation

/-!
# Runs and their chronicles

The simulation, lifted to runs: the state that a run leads to has a chronicle, and the chronicle of
a later state extends the one of an earlier state. The rest of the module reads off a related world
what the results are about: leaders, logs, applied entries.
-/

namespace Refine

open Raft Consensus Cluster

variable {σ : Type} {X : Mode σ} {S : Setup σ} {members : AddrMap} {a a' : Chron} {id : String}
  {w w' : World σ} {acts acts' : List Action}

/-! ## Along a run -/

theorem WorldRel.run (h : WorldRel X a w) (hv : X.Valid)
    (hrun : Run X.setup (Admissible X) w acts w') : ∃ a', WorldRel X a' w' ∧ Extends a a' :=
  StepPath.simulate Extends.refl Extends.trans
    (fun _ _ _ _ hrel hok hstep =>
      have ⟨a', hadv⟩ := hrel.step hv hok hstep
      ⟨a', hadv.rel, hadv.grown⟩) hrun h

/-- Two states of one run, the earlier one first. -/
theorem exists_chronicles (hv : X.Valid)
    (hrun : Run X.setup (Admissible X) (World.init X.setup) acts w)
    (hrun' : Run X.setup (Admissible X) w acts' w') :
    ∃ a a', WorldRel X a w ∧ WorldRel X a' w' ∧ Extends a a' := by
  obtain ⟨a, ha, _⟩ := (WorldRel.init hv).run hv hrun
  obtain ⟨a', ha', hx⟩ := ha.run hv hrun'
  exact ⟨a, a', ha, ha', hx⟩

/-! ## Modes -/

/-- Fixed membership. -/
def fixedMode (S : Setup σ) (members : AddrMap) (strict compacting : Prop) : Mode σ :=
  ⟨S, members, strict, compacting, False⟩

theorem fixedMode_valid (hS : Fixed S members) {strict compacting : Prop}
    (hoff : ¬ compacting → Uncompacted S) (hsub : strict → compacting → Substantial S) :
    (fixedMode S members strict compacting).Valid :=
  ⟨hS.id_eq, hS.nonempty, hS.named, fun id => Or.inl (hS.peers id), hoff, hsub⟩

/-- Where nobody changes the membership, only the delivery of snapshots is guarded. -/
theorem admissible_of_noChange {strict compacting : Prop} {act : Action} (hn : NoChange w act)
    (hk : strict → compacting → KeepsLogs w act) :
    Admissible (fixedMode S members strict compacting) w act := by
  induction act with
  | tick id due => exact fun hj => hj.elim
  | deliver k => exact hk
  | addServer id target addr http => exact hn.elim
  | removeServer id target => exact hn.elim
  | crashDuring act saves ih => exact ih hn hk
  | _ => trivial

/-- A common initial configuration, nodes that join, compaction, and commits on record. -/
def joinMode (S : Setup σ) (members : AddrMap) : Mode σ := ⟨S, members, True, True, True⟩

theorem joinMode_valid (hS : Joinable S members) (hsub : Substantial S) :
    (joinMode S members).Valid := by
  refine ⟨hS.id_eq, hS.nonempty, hS.named, fun id => ?_, fun hc => absurd trivial hc,
    fun _ _ => hsub⟩
  by_cases hid : id ∈ members.keys
  · exact Or.inl (hS.peers id hid)
  · exact Or.inr ⟨trivial, hid, hS.joiners id hid⟩

theorem admissible_of_careful {act : Action} (hc : Careful members w act) :
    Admissible (joinMode S members) w act := by
  induction act with
  | tick id due => exact fun _ => hc
  | deliver k => exact fun _ _ => hc
  | addServer id target addr http => exact ⟨trivial, trivial, hc⟩
  | removeServer id target => exact ⟨trivial, trivial, hc⟩
  | crashDuring act saves ih => exact ih hc
  | _ => trivial

/-! ## Reading off a related world -/

/-- The leader of a term has won it, and its log is the one on record. -/
theorem WorldRel.leader (h : WorldRel X a w) (hup : w.up id = true)
    (hld : (w.node id).state = .leader) :
    (∃ Q, a.won (w.node id).currentTerm id Q) ∧ a.reign (w.node id).currentTerm = a.log id :=
  have hn := h.node_rel hup
  ⟨(hn.leader hld).won, hn.toLive.reign_eq h.good hld⟩

/-- A leader with an entry of its term at its commit index has committed that entry, and nothing of
its term beyond. -/
theorem WorldRel.own_commit (h : WorldRel X a w) (hs : X.strict) (hup : w.up id = true)
    (hld : (w.node id).state = .leader) (hcur : (w.node id).committedCurrentTermLocked = true) :
    ∃ (i : Nat) (L : Nat), (w.node id).commitIndex = i ∧ 0 < i ∧
      a.commit (w.node id).currentTerm i L ∧
      ∀ {i' L'}, a.commit (w.node id).currentTerm i' L' → i' ≤ i := by
  have hn := h.node_rel hup
  have hL := hn.leader hld
  have hp := hn.progress hs
  obtain ⟨b, hst⟩ := hn.stored
  have hnn := hp.applied_nonneg.trans hp.applied_le
  have hle := hp.commit_le
  have hbase := hp.base_le.trans hp.applied_le
  rw [hst.log_eq, lastIncludedIndex_render] at hbase
  obtain ⟨i, hi⟩ : ∃ i : Nat, (w.node id).commitIndex = i := ⟨_, (Int.toNat_of_nonneg hnn).symm⟩
  -- the entry at the commit index is of the leader's term
  have hend : endTerm ((a.log id).take i) = (w.node id).currentTerm := by
    unfold RaftNode.committedCurrentTermLocked at hcur
    rw [decide_eq_true_eq, hst.log_eq, hi, termAt_render (by omega) (by omega)] at hcur
    exact Option.some.inj hcur
  have hpos : 0 < i := by
    rcases Nat.eq_zero_or_pos i with rfl | hpos
    · obtain ⟨Q, hwon⟩ := hL.won
      have := (h.good.inv.won_le hwon).1
      rw [List.take_zero, endTerm_nil] at hend
      omega
    · exact hpos
  obtain ⟨L, hown⟩ := hL.own_commit hs (by omega) (by rw [hi]; exact hend)
  rw [hi, Int.toNat_natCast] at hown
  refine ⟨i, L, hi, hpos, hown, fun hc => ?_⟩
  have := hL.own_le hs hc
  omega

/-- What a node has applied is settled. -/
theorem WorldRel.settled_applied (h : WorldRel X a w) (hs : X.strict) (hup : w.up id = true)
    {i : Int} {e : LogEntry} (h0 : 0 < i) (hi : i ≤ (w.node id).lastApplied)
    (he : (a.log id)[i.toNat - 1]? = some e) :
    ∃ T l, Settled a T l ∧ l[i.toNat - 1]? = some e := by
  have hp := (h.node_rel hup).progress hs
  have hle := hp.applied_le
  exact ⟨_, _, hp.settled, getElem?_take_succ he (by omega)⟩

theorem WorldRel.settled_take (h : WorldRel X a w) (hs : X.strict) (hup : w.up id = true) :
    Settled a (w.node id).currentTerm ((a.log id).take (w.node id).lastApplied.toNat) := by
  have hp := (h.node_rel hup).progress hs
  exact hp.settled.of_isPrefix (List.take_prefix_take_left (Int.toNat_le_toNat hp.applied_le))

/-- A command that is accepted goes to the end of the log of its term. -/
theorem WorldRel.proposed_index (h : WorldRel X a w) (hup : w.up id = true) {cmd : Bytes}
    {i t : Int} (hok : ((w.node id).propose cmd).2 = .ok (i, t)) :
    i = (a.reign t).length + 1 := by
  rcases (w.node id).propose_cases cmd with ⟨e, heq⟩ | ⟨⟨_, hld⟩, heq⟩
  · rw [heq] at hok
    cases hok
  · rw [heq] at hok
    cases hok
    rw [(h.leader hup hld).2, (h.node_rel hup).toLive.lastLogIndex_eq h.good]

/-- A retained entry is an entry of the history. -/
theorem WorldRel.entry_of_retained (h : WorldRel X a w) (hup : w.up id = true) {i : Int}
    {e : LogEntry} (hlo : (w.node id).log.lastIncludedIndexLocked < i)
    (he : (w.node id).log.entryAtLocked i = some e) :
    0 < i ∧ (a.log id)[i.toNat - 1]? = some e := by
  obtain ⟨b, hst⟩ := (h.node_rel hup).stored
  rw [hst.log_eq, lastIncludedIndex_render] at hlo
  obtain ⟨k, rfl⟩ : ∃ k : Nat, i = k := ⟨i.toNat, by omega⟩
  rw [hst.log_eq, entryAt_render (by omega)] at he
  exact ⟨by omega, he⟩

end Refine
