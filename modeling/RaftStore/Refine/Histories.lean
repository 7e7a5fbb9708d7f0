import RaftStore.Cluster.Hearing
import RaftStore.Refine.Runs

/-!
# The history of a run

One list of entries stands behind a whole run. `HistoryOf S members acts H` says so in terms of the
nodes alone: in every state that the run passes through, every node, up or down, follows `H`
(`Follows`). What it has applied is a beginning of `H`, so is what its snapshot covers, every call
of `apply` since it was started was for an entry of `H`, and its log agrees with `H` up to its
commit index. And `H` ends where some node's commit index once was.

With the history of the run, that of a node is a function of the node (`RaftNode.history`): a
beginning of `H` in place of the snapshot, and then the log. It is the log that the chronicle has on
record (`NodeRel.history_eq`).

**`exists_history`** finds the history of a run whose states all have a chronicle: of all that was
ever committed, the longest.
-/

namespace Raft

variable {σ : Type}

/-- The history behind a node of a run with history `H`: what its snapshot covers, and its log. -/
def RaftNode.history (n : RaftNode σ) (H : List LogEntry) : List LogEntry :=
  H.take n.log.lastIncludedIndexLocked.toNat ++ n.log.tail

end Raft

namespace Cluster

open Raft Refine Consensus

variable {σ : Type} {S : Setup σ} {M : Machine σ} {members : AddrMap} {w w' : World σ}
  {acts acts' : List Action} {id j : String} {n : RaftNode σ} {h H : List LogEntry}

/-! ## Nodes and the history -/

/-- The node follows the history `H`: its state machine is the replay of what it has applied, every
call of `apply` since it was started was for an entry of `H`, its snapshot stands for a beginning of
`H`, and up to the commit index its log is part of `H`. -/
structure Follows (M : Machine σ) (members : AddrMap) (H : List LogEntry) (n : RaftNode σ) :
    Prop where
  base_le : n.log.lastIncludedIndexLocked ≤ n.lastApplied
  applied_le : n.lastApplied ≤ n.commitIndex
  commit_le : n.commitIndex ≤ H.length
  machine_eq : n.machine = replay M (H.take n.lastApplied.toNat)
  applies : ∀ i e, (i, e) ∈ n.applies → 0 < i ∧ i ≤ n.lastApplied ∧ H[i.toNat - 1]? = some e
  log_eq : n.log = render (n.history H) n.log.lastIncludedIndexLocked.toNat
  agrees : (n.history H).take n.commitIndex.toNat = H.take n.commitIndex.toNat
  placed : Placed members True n.basePeers (H.take n.log.lastIncludedIndexLocked.toNat)

/-- Whatever the history goes on with. -/
theorem Follows.of_isPrefix (hf : Follows M members h n) (hp : h <+: H) :
    Follows M members H n := by
  have hb := hf.base_le
  have ha := hf.applied_le
  have hc := hf.commit_le
  have hlen := hp.length_le
  have htake : ∀ k : Int, k ≤ n.commitIndex → H.take k.toNat = h.take k.toNat :=
    fun k hk => take_eq_of_isPrefix hp (by omega)
  have hhist : n.history H = n.history h := by
    unfold RaftNode.history
    rw [htake _ (hb.trans ha)]
  refine ⟨hb, ha, by omega, ?_, fun i e he => ?_, ?_, ?_, ?_⟩
  · rw [htake _ ha]
    exact hf.machine_eq
  · obtain ⟨h0, hi, hget⟩ := hf.applies i e he
    exact ⟨h0, hi, getElem?_of_isPrefix hp hget⟩
  · rw [hhist]
    exact hf.log_eq
  · rw [hhist, htake _ (le_refl _)]
    exact hf.agrees
  · rw [htake _ (hb.trans ha)]
    exact hf.placed

/-! ## The states of a run -/

/-- The run that the actions make passes through the state `u`. -/
def Passes (S : Setup σ) (acts : List Action) (u : World σ) : Prop :=
  ∃ acts₁, acts₁ <+: acts ∧ exec (step S) (World.init S) acts₁ = some u

/-- `H` is the history of a run: every node follows it in every state, and some node has once taken
all of it to be committed. -/
structure HistoryOf (S : Setup σ) (members : AddrMap) (acts : List Action) (H : List LogEntry) :
    Prop where
  follows : ∀ u, Passes S acts u → ∀ id, Follows S.machine members H (u.revived S id)
  reached : H = [] ∨ ∃ u id, Passes S acts u ∧ (u.revived S id).commitIndex = H.length

theorem Passes.append {u : World σ} (h : Passes S acts u) : Passes S (acts ++ acts') u := by
  obtain ⟨acts₁, hpre, hexec⟩ := h
  exact ⟨acts₁, hpre.trans (List.prefix_append _ _), hexec⟩

/-- A run passes through its last state. -/
theorem passes_of_run {ok : World σ → Action → Prop} (hrun : Run S ok (World.init S) acts w) :
    Passes S acts w :=
  ⟨acts, List.prefix_refl _, hrun.exec_eq⟩

/-- The nodes that a list of actions may change. -/
def touchedIn (S : Setup σ) (w : World σ) : List Action → List String
  | [] => []
  | act :: acts =>
    (touched w act).toList ++ (step S w act).elim [] (fun w' => touchedIn S w' acts)

/-- **A run leaves all but finitely many nodes as they are**, in every state on the way. -/
theorem revived_of_notMem_touchedIn (hj : j ∉ touchedIn S w acts') (hpre : acts <+: acts')
    (hexec : exec (step S) w acts = some w') : w'.revived S j = w.revived S j := by
  induction acts generalizing w acts' with
  | nil =>
    cases hexec
    rfl
  | cons act acts ih =>
    obtain ⟨v, hstep, hrest⟩ := Option.bind_eq_some_iff.mp hexec
    obtain ⟨more, rfl⟩ := hpre
    rw [List.cons_append, touchedIn, hstep, List.mem_append, not_or] at hj
    have hne : touched w act ≠ some j :=
      fun heq => hj.1 (by rw [heq]; exact List.mem_singleton_self j)
    rw [ih hj.2 (List.prefix_append _ _) hrest]
    exact revived_congr (up_of_untouched hstep hne) (node_of_untouched hstep hne)

end Cluster

namespace Refine

open Raft Consensus Cluster

variable {σ : Type} {X : Mode σ} {a a₁ : Chron} {id : String} {n : RaftNode σ} {u w : World σ}
  {acts : List Action} {H : List LogEntry} {T : Int}

/-! ## The history and the chronicle -/

/-- **The history behind a node is its log on record**, if `H` goes as far as its commit index. -/
theorem NodeRel.history_eq (h : NodeRel X a id n) (hs : X.strict)
    (hpre : (a.log id).take n.commitIndex.toNat <+: H) : n.history H = a.log id := by
  have hp := h.progress hs
  have hbase := hp.base_le.trans hp.applied_le
  have hle := hp.commit_le
  obtain ⟨b, hst⟩ := h.stored
  rw [hst.log_eq, lastIncludedIndex_render] at hbase
  unfold RaftNode.history
  rw [hst.log_eq, lastIncludedIndex_render, Int.toNat_natCast,
    take_eq_of_isPrefix hpre (by rw [List.length_take]; omega), List.take_take,
    Nat.min_eq_left (by omega)]
  exact List.take_append_drop b (a.log id)

/-- A node follows what it takes to be committed. -/
theorem NodeRel.follows (h : NodeRel X a id n) (hg : Good X a) (hs : X.strict)
    (hlaw : Lawful X.setup.machine) :
    Follows X.setup.machine X.members ((a.log id).take n.commitIndex.toNat) n := by
  have hp := h.progress hs
  have hc := hp.commit_le
  have ha := hp.applied_le
  have hhist := h.history_eq hs (List.prefix_refl _)
  obtain ⟨b, hst⟩ := h.stored
  have hb : n.log.lastIncludedIndexLocked = b := by rw [hst.log_eq, lastIncludedIndex_render]
  have hbase := hp.base_le
  have htake : ∀ k : Int, k ≤ n.commitIndex →
      ((a.log id).take n.commitIndex.toNat).take k.toNat = (a.log id).take k.toNat := by
    intro k hk
    rw [List.take_take, Nat.min_eq_left (Int.toNat_le_toNat hk)]
  refine ⟨hbase, ha, by rw [List.length_take]; omega, ?_, fun i e he => ?_, ?_, ?_, ?_⟩
  · rw [htake _ ha]
    exact hp.machine hlaw
  · -- the call was for a settled entry, and so is the one in the log
    obtain ⟨h0, hi, l, hl, hget⟩ := hp.applied _ he
    have hat : ((a.log id).take n.commitIndex.toNat)[i.toNat - 1]? = (a.log id)[i.toNat - 1]? :=
      List.getElem?_take_of_lt (by omega)
    have hsome := List.getElem?_eq_getElem (l := a.log id) (i := i.toNat - 1) (by omega)
    refine ⟨h0, hi, ?_⟩
    rw [hat, hsome, hp.settled.getElem?_eq hl hg.inv (hg.inv.safe hs) (hat.trans hsome) hget]
  · rw [hhist, hb, Int.toNat_natCast]
    exact hst.log_eq
  · rw [hhist, htake _ (le_refl _)]
  · rw [htake _ (hbase.trans ha), hb, Int.toNat_natCast]
    exact hst.placed.imp_right fun hjoin => ⟨trivial, hjoin.2⟩

/-- The chronicle extends one of every state of the run. -/
def Recounts (X : Mode σ) (acts : List Action) (a : Chron) : Prop :=
  ∀ u, Passes X.setup acts u → ∃ a₁, WorldRel X a₁ u ∧ Extends a₁ a

/-- **Chronicles along a run.** Where the steps of a run are noted with a chronicle each, the last
one recounts the run. -/
theorem recounts_of_traced {χ : Type} (chron : χ → Chron)
    {N : χ → World σ → Action → χ → World σ → Prop} {c d : χ}
    (hN : ∀ {c v act c' v'}, N c v act c' v' →
      step X.setup v act = some v' ∧ WorldRel X (chron c') v' ∧ Extends (chron c) (chron c'))
    (hinit : WorldRel X (chron c) (World.init X.setup))
    (hpath : TracedPath N c (World.init X.setup) acts d w) : Recounts X acts (chron d) := by
  rintro u ⟨acts₁, ⟨acts₂, rfl⟩, hexec⟩
  obtain ⟨c₁, u', hfst, hsnd⟩ := hpath.split
  have hu : exec (step X.setup) (World.init X.setup) acts₁ = some u' :=
    TracedPath.exec_eq (T := N) (fun hn => (hN hn).1) hfst
  rw [hexec, Option.some.injEq] at hu
  subst hu
  refine ⟨chron c₁, hfst.invariant (I := fun c v => WorldRel X (chron c) v)
    (fun _ _ _ _ _ _ hn => (hN hn).2.1) hinit, ?_⟩
  exact hsnd.invariant (I := fun c _ => Extends (chron c₁) (chron c))
    (fun _ _ _ _ _ hx hn => hx.trans (hN hn).2.2) (Extends.refl (chron c₁))

/-- All states of one run. -/
theorem exists_recount (hv : X.Valid)
    (hrun : Run X.setup (Admissible X) (World.init X.setup) acts w) :
    ∃ a, WorldRel X a w ∧ Recounts X acts a := by
  obtain ⟨a, ha, hpath⟩ := StepPath.traced (R := WorldRel X)
    (T := fun a w act a' w' => step X.setup w act = some w' ∧ WorldRel X a' w' ∧ Extends a a')
    (fun _ _ _ _ hrel hok hstep =>
      have ⟨a', hadv⟩ := hrel.step hv hok hstep
      ⟨a', hadv.rel, hstep, hadv.rel, hadv.grown⟩) hrun (WorldRel.init hv)
  exact ⟨a, ha, recounts_of_traced (fun a => a) (fun hn => hn) (WorldRel.init hv) hpath⟩

/-- What a node takes to be committed in some state begins a settled history that goes as far. -/
theorem WorldRel.commit_isPrefix (hu : WorldRel X a₁ u) (hs : X.strict) (hx : Extends a₁ a)
    (hg : Good X a) (hH : Settled a T H) (id : String)
    (hle : (u.revived X.setup id).commitIndex ≤ H.length) :
    (a₁.log id).take (u.revived X.setup id).commitIndex.toNat <+: H := by
  have hp := (hu.nodes id).progress hs
  have hc := hp.commit_le
  have hset := hp.settled.mono hu.good.inv hx (le_refl _)
  rcases hset.comparable hH hg.inv (hg.inv.safe hs) with hpre | hpre
  · exact hpre
  · rw [hpre.eq_of_length_le (by rw [List.length_take]; omega)]

/-- The history of the run, seen from one of its states. -/
theorem WorldRel.history_eq (hu : WorldRel X a₁ u) (hs : X.strict) (hx : Extends a₁ a)
    (hg : Good X a) (hH : Settled a T H) (hhist : HistoryOf X.setup X.members acts H)
    (hpass : Passes X.setup acts u) (id : String) :
    (u.revived X.setup id).history H = a₁.log id :=
  (hu.nodes id).history_eq hs
    (hu.commit_isPrefix hs hx hg hH id (hhist.follows u hpass id).commit_le)

/-- What a node takes to be committed in some state, as part of the history of the run. -/
theorem WorldRel.take_commit_eq (hu : WorldRel X a₁ u) (hs : X.strict) (hx : Extends a₁ a)
    (hg : Good X a) (hH : Settled a T H) (hhist : HistoryOf X.setup X.members acts H)
    (hpass : Passes X.setup acts u) (id : String) :
    H.take (u.revived X.setup id).commitIndex.toNat =
      (a₁.log id).take (u.revived X.setup id).commitIndex.toNat := by
  rw [← (hhist.follows u hpass id).agrees, hu.history_eq hs hx hg hH hhist hpass id]

/-- **Every run has a history.** -/
theorem exists_history (hv : X.Valid) (hg : Good X a) (hs : X.strict)
    (hlaw : Lawful X.setup.machine) (hrec : Recounts X acts a) :
    ∃ H T, Settled a T H ∧ HistoryOf X.setup X.members acts H := by
  -- a state is known by the number of actions that lead to it
  let P : Nat × String → List LogEntry → Prop := fun x l =>
    (exec (step X.setup) (World.init X.setup) (acts.take x.1) = none ∧ l = []) ∨
      ∃ u, exec (step X.setup) (World.init X.setup) (acts.take x.1) = some u ∧
        Follows X.setup.machine X.members l (u.revived X.setup x.2) ∧
        (u.revived X.setup x.2).commitIndex = l.length
  obtain ⟨H, T, hH, hsome, hall⟩ := exists_settled_upper hg.inv (hg.inv.safe hs)
    (((List.range (acts.length + 1)).product
      (touchedIn X.setup (World.init X.setup) acts)).map P) (by
    intro Q hQ
    obtain ⟨⟨k, id⟩, _, rfl⟩ := List.mem_map.mp hQ
    cases hexec : exec (step X.setup) (World.init X.setup) (acts.take k) with
    | none => exact ⟨[], 0, Settled.nil, Or.inl ⟨hexec, rfl⟩⟩
    | some u =>
      obtain ⟨a₁, hu, hx⟩ := hrec u ⟨acts.take k, List.take_prefix _ _, hexec⟩
      have hp := (hu.nodes id).progress hs
      have hc := hp.commit_le
      have hnn := hp.applied_nonneg.trans hp.applied_le
      refine ⟨_, _, hp.settled.mono hu.good.inv hx (le_refl _), Or.inr ⟨u, hexec,
        (hu.nodes id).follows hu.good hs hlaw, ?_⟩⟩
      show (u.revived X.setup id).commitIndex = _
      rw [List.length_take]
      omega)
  refine ⟨H, T, hH, ?_, hsome.elim Or.inl ?_⟩
  · rintro u ⟨acts₁, hpre, hexec⟩ id
    by_cases hid : id ∈ touchedIn X.setup (World.init X.setup) acts
    · have htake : acts.take acts₁.length = acts₁ := (List.prefix_iff_eq_take.mp hpre).symm
      obtain ⟨l, hl, hlH⟩ := hall (P (acts₁.length, id)) (List.mem_map_of_mem
        (List.pair_mem_product.mpr ⟨List.mem_range.mpr (Nat.lt_succ_of_le hpre.length_le), hid⟩))
      simp only [P, htake, hexec] at hl
      rcases hl with ⟨hnone, _⟩ | ⟨v, hv', hf, _⟩
      · cases hnone
      · cases hv'
        exact hf.of_isPrefix hlH
    · -- the node is still as it was started, and has applied nothing
      rw [revived_of_notMem_touchedIn hid hpre hexec]
      have hinit := WorldRel.init hv
      have hf := (hinit.nodes id).follows hinit.good hs hlaw
      exact hf.of_isPrefix List.nil_prefix
  · rintro ⟨Q, hQ, hPH⟩
    obtain ⟨⟨k, id⟩, _, rfl⟩ := List.mem_map.mp hQ
    rcases hPH with ⟨_, hnil⟩ | ⟨u, hexec, _, hlen⟩
    · exact Or.inl hnil
    · exact Or.inr ⟨u, id, ⟨_, List.take_prefix _ _, hexec⟩, hlen⟩

/-- A run, its chronicle and its history. -/
theorem exists_history_of_run (hv : X.Valid) (hs : X.strict) (hlaw : Lawful X.setup.machine)
    (hrun : Run X.setup (Admissible X) (World.init X.setup) acts w) :
    ∃ a H T, WorldRel X a w ∧ Recounts X acts a ∧ Settled a T H ∧
      HistoryOf X.setup X.members acts H := by
  obtain ⟨a, hw, hrec⟩ := exists_recount hv hrun
  obtain ⟨H, T, hH, hhist⟩ := exists_history hv hw.good hs hlaw hrec
  exact ⟨a, H, T, hw, hrec, hH, hhist⟩

end Refine
