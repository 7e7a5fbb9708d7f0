import RaftStore.Refine.Histories

/-!
# Clusters with a fixed membership

The classical safety properties of Raft, for a cluster whose members are all started with
the same configuration and never change it: election safety and log matching with or
without compaction, leader completeness and state machine safety without it.

Two states of one run are given as a run from the initial state to the earlier one and a
run from there to the later one.
-/

namespace Cluster

open Raft Refine Consensus

variable {σ : Type} {S : Setup σ} {members : AddrMap} {w w' : World σ} {acts acts' : List Action}

/-! ## A sample run

Three nodes and a state machine that does nothing. `n1` is elected by `n2` and commits its
first entry with it; then either `n2` hears of the commit, or `n2` is elected by `n3`. -/

/-- The members of the sample. -/
def threeNodes : AddrMap := .ofList [("n1", "a1"), ("n2", "a2"), ("n3", "a3")]

/-- A machine that does nothing. -/
def idle : Machine Unit where
  init := ()
  apply := fun s _ => s
  snapshotter := { snapshot := fun _ => some [0], restore := fun _ _ => some () }

/-- Three nodes without compaction. -/
def sample : Setup Unit := uniform idle threeNodes 0

theorem sample_fixed : Fixed sample threeNodes := uniform_fixed idle 0 (by decide) (by decide)

/-- `n1` is elected by `n2`, and commits its first entry with it. -/
def firstCommit : List Action :=
  [.tick "n1" true, .go "n1" 0, .deliver 0, .reply 0, .go "n1" 1, .deliver 1, .reply 1]

/-- `n1` sends a heartbeat with what is committed. -/
def heardOf : List Action :=
  [.go "n1" 2, .tick "n1" true, .go "n1" 2, .deliver 2]

/-- `n2` is elected in term 2. -/
def secondTerm : List Action :=
  [.tick "n2" true, .go "n2" 1, .deliver 2, .reply 2]

/-- `n1` leads and has committed its first entry. -/
def sampleWorld : World Unit := after sample (World.init sample) firstCommit

theorem firstCommit_run : Run sample NoChange (World.init sample) firstCommit sampleWorld :=
  run_after (by simp [firstCommit, NoChange]) (by decide +kernel)

theorem heardOf_run : Run sample NoChange sampleWorld heardOf (after sample sampleWorld heardOf) :=
  run_after (by simp [heardOf, NoChange]) (by decide +kernel)

theorem secondTerm_run :
    Run sample NoChange sampleWorld secondTerm (after sample sampleWorld secondTerm) :=
  run_after (by simp [secondTerm, NoChange]) (by decide +kernel)

/-! ## Chronicles of a fixed cluster -/

/-- With or without compaction. -/
theorem fixed_chronicles (hS : Fixed S members) (hrun : Run S NoChange (World.init S) acts w)
    (hrun' : Run S NoChange w acts' w') : ∃ a a',
      WorldRel (fixedMode S members False True) a w ∧
      WorldRel (fixedMode S members False True) a' w' ∧ Extends a a' := by
  have hok : ∀ (v : World σ) (act : Action), NoChange v act →
      Admissible (fixedMode S members False True) v act :=
    fun v act hn => admissible_of_noChange hn (fun hs => hs.elim)
  exact exists_chronicles (X := fixedMode S members False True)
    (fixedMode_valid hS (fun hc => absurd trivial hc) (fun hs => hs.elim))
    (hrun.mono hok) (hrun'.mono hok)

/-- A state that a cluster of fixed members can be in. -/
def Reached (S : Setup σ) (w : World σ) : Prop := ∃ acts, Run S NoChange (World.init S) acts w

theorem Reached.step {act : Action} (h : Reached S w) (hok : NoChange w act)
    (hstep : step S w act = some w') : Reached S w' := by
  obtain ⟨acts, hrun⟩ := h
  exact ⟨acts ++ [act], hrun.append (.cons hok hstep (.nil _))⟩

/-- A reached state has a chronicle. -/
theorem Reached.rel (h : Reached S w) (hS : Fixed S members) :
    ∃ a, WorldRel (fixedMode S members False True) a w := by
  obtain ⟨acts, hrun⟩ := h
  obtain ⟨a, _, hw, _⟩ := fixed_chronicles hS hrun (.nil w)
  exact ⟨a, hw⟩

/-- Without compaction nothing has to be guarded, and commits are on record. -/
theorem uncompacted_chronicles (hS : Fixed S members) (hoff : Uncompacted S)
    (hrun : Run S NoChange (World.init S) acts w) (hrun' : Run S NoChange w acts' w') : ∃ a a',
      WorldRel (fixedMode S members True False) a w ∧
      WorldRel (fixedMode S members True False) a' w' ∧ Extends a a' := by
  have hok : ∀ (v : World σ) (act : Action), NoChange v act →
      Admissible (fixedMode S members True False) v act :=
    fun v act hn => admissible_of_noChange hn (fun _ hc => hc.elim)
  exact exists_chronicles (X := fixedMode S members True False)
    (fixedMode_valid hS (fun _ => hoff) (fun _ hc => hc.elim)) (hrun.mono hok) (hrun'.mono hok)

/-- With compaction, commits are on record if delivered snapshots keep the receiver's log. -/
theorem compacted_rel (hS : Fixed S members) (hsub : Substantial S)
    (hrun : Run S (fun w act => NoChange w act ∧ KeepsLogs w act) (World.init S) acts w) :
    ∃ a, WorldRel (fixedMode S members True True) a w := by
  obtain ⟨a, _, hw, _⟩ := exists_chronicles (X := fixedMode S members True True)
    (fixedMode_valid hS (fun hc => absurd trivial hc) (fun _ _ => hsub))
    (hrun.mono fun _ _ hn => admissible_of_noChange hn.1 (fun _ _ => hn.2)) (.nil w)
  exact ⟨a, hw⟩

/-- If snapshots restore what they were taken of, there is one history of commands. -/
theorem compacted_history (hS : Fixed S members) (hsub : Substantial S) (hlaw : Lawful S.machine)
    (hrun : Run S (fun w act => NoChange w act ∧ KeepsLogs w act) (World.init S) acts w) :
    ∃ a H T, WorldRel (fixedMode S members True True) a w ∧
      Recounts (fixedMode S members True True) acts a ∧ Settled a T H ∧
        HistoryOf S members acts H :=
  exists_history_of_run (X := fixedMode S members True True)
    (fixedMode_valid hS (fun hc => absurd trivial hc) (fun _ _ => hsub)) trivial hlaw
    (hrun.mono fun _ _ hn => admissible_of_noChange hn.1 (fun _ _ => hn.2))

/-! ## Elections -/

/-- **Election safety.** At most one node is ever leader of a term. -/
theorem election_safety (hS : Fixed S members) (hrun : Run S NoChange (World.init S) acts w)
    (hrun' : Run S NoChange w acts' w') {p q : String} (hp : w.up p = true) (hq : w'.up q = true)
    (hlp : (w.node p).state = .leader) (hlq : (w'.node q).state = .leader)
    (hterm : (w.node p).currentTerm = (w'.node q).currentTerm) : p = q := by
  obtain ⟨a, a', hw, hw', hx⟩ := fixed_chronicles hS hrun hrun'
  obtain ⟨Q, hwon⟩ := (hw.leader hp hlp).1
  obtain ⟨Q', hwon'⟩ := (hw'.leader hq hlq).1
  rw [hterm] at hwon
  exact (hw'.good.inv.ballots.won_unique (hx.won_mono hwon) hwon').1

theorem election_safety_sample : ((sampleWorld.node "n1").state = .leader ∧
    ((after sample sampleWorld heardOf).node "n1").state = .leader) ∧ "n1" = "n1" :=
  ⟨by decide +kernel, election_safety sample_fixed firstCommit_run heardOf_run
    (by decide +kernel) (by decide +kernel) (by decide +kernel) (by decide +kernel)
    (by decide +kernel)⟩

/-! ## Logs -/

/-- The log holds `e` at index `i` as an entry of its own, not as the dummy. -/
def Retains (l : Log) (i : Int) (e : LogEntry) : Prop :=
  l.lastIncludedIndexLocked < i ∧ l.entryAtLocked i = some e

/-- **Log matching**, in every state of a run. If two logs retain an entry of the same term
at an index, they agree on everything below that both retain, and the dummy of either log
carries the term that the other one has at its index. -/
theorem log_matching (hS : Fixed S members) (hrun : Run S NoChange (World.init S) acts w)
    {p q : String} (hp : w.up p = true) (hq : w.up q = true) {i : Int} {e e' : LogEntry}
    (he : Retains (w.node p).log i e) (he' : Retains (w.node q).log i e')
    (hterm : e.term = e'.term) :
    e = e' ∧
    (∀ j x y, j ≤ i → Retains (w.node p).log j x → Retains (w.node q).log j y → x = y) ∧
    ∀ t, (w.node p).log.lastIncludedIndexLocked < i →
      (w.node q).log.termAtLocked (w.node p).log.lastIncludedIndexLocked = some t →
      (w.node p).log.lastIncludedTermLocked = t := by
  obtain ⟨a, _, hw, _, _⟩ := fixed_chronicles hS hrun (StepPath.nil w)
  -- both entries stand in the chronicle, and have the same term
  obtain ⟨hi, hget⟩ := hw.entry_of_retained hp he.1 he.2
  obtain ⟨_, hget'⟩ := hw.entry_of_retained hq he'.1 he'.2
  have hagree := (hw.good.inv.logs.chained_log p).agree (hw.good.inv.logs.chained_log q)
    hget hget' hterm
  -- so the logs agree up to there
  have hbelow : ∀ k, k ≤ i.toNat → (a.log p).take k = (a.log q).take k := by
    intro k hk
    have := congrArg (List.take k) hagree
    rwa [List.take_take, List.take_take, Nat.min_eq_left (by omega)] at this
  -- and every entry that both retain is the same
  have hsame : ∀ j x y, j ≤ i → Retains (w.node p).log j x → Retains (w.node q).log j y →
      x = y := by
    intro j x y hj hx hy
    obtain ⟨hj0, hx'⟩ := hw.entry_of_retained hp hx.1 hx.2
    obtain ⟨_, hy'⟩ := hw.entry_of_retained hq hy.1 hy.2
    have h1 := getElem?_take_succ hx' (j := j.toNat) (by omega)
    rw [hbelow j.toNat (by omega)] at h1
    have h2 := getElem?_of_isPrefix (List.take_prefix _ _) h1
    rw [hy'] at h2
    exact (Option.some.inj h2).symm
  refine ⟨hsame i e e' (le_refl _) he he', hsame, ?_⟩
  -- the dummy carries the term of the entry it replaced
  intro t hlt ht
  obtain ⟨b, hst⟩ := (hw.node_rel hp).stored
  obtain ⟨b', hst'⟩ := (hw.node_rel hq).stored
  have hlen := (List.getElem?_eq_some_iff.mp hget').1
  rw [hst.log_eq, lastIncludedIndex_render] at hlt ht
  rw [hst.log_eq, lastIncludedTerm_render, hbelow b (by omega)]
  rw [hst'.log_eq] at ht
  obtain ⟨j, hj, hbj, _⟩ := termAt_render_some ht
  rw [termAt_render (by omega) (by omega), Option.some.injEq] at ht
  exact ht

theorem log_matching_sample :
    (Retains (sampleWorld.node "n1").log 1 { term := 1, index := 1 } ∧
      Retains (sampleWorld.node "n2").log 1 { term := 1, index := 1 }) ∧
      ∀ j x y, j ≤ 1 → Retains (sampleWorld.node "n1").log j x →
        Retains (sampleWorld.node "n2").log j y → x = y := by
  have h₁ : Retains (sampleWorld.node "n1").log 1 { term := 1, index := 1 } :=
    ⟨by decide +kernel, by decide +kernel⟩
  have h₂ : Retains (sampleWorld.node "n2").log 1 { term := 1, index := 1 } :=
    ⟨by decide +kernel, by decide +kernel⟩
  exact ⟨⟨h₁, h₂⟩, (log_matching sample_fixed firstCommit_run (by decide +kernel)
    (by decide +kernel) h₁ h₂ rfl).2.1⟩

/-! ## Committed entries -/

/-- What a leader of `w` has committed, every leader of `w'` with a later term holds. -/
def LeadersHold (w w' : World σ) : Prop :=
  ∀ p q i, w.up p = true → w'.up q = true → (w.node p).state = .leader →
    (w'.node q).state = .leader → (w.node p).currentTerm < (w'.node q).currentTerm →
    0 < i → i ≤ (w.node p).commitIndex →
    ∃ e, (w.node p).log.entryAtLocked i = some e ∧ (w'.node q).log.entryAtLocked i = some e

/-- The entry that two logs without a snapshot hold in common. -/
theorem entry_of_take_isPrefix {a a' : Chron}
    (hw : WorldRel (fixedMode S members True False) a w)
    (hw' : WorldRel (fixedMode S members True False) a' w') {p q : String} {i : Int}
    (hp : w.up p = true) (hq : w'.up q = true) (h0 : 0 < i) (hi : i ≤ (w.node p).commitIndex)
    (hpre : (a.log p).take (w.node p).commitIndex.toNat <+: a'.log q) :
    ∃ e, (w.node p).log.entryAtLocked i = some e ∧ (w'.node q).log.entryAtLocked i = some e := by
  -- nothing is compacted, so positions are indices
  have hn := hw.node_rel hp
  have hc := (hn.progress trivial).commit_le
  obtain ⟨b, hst⟩ := hn.stored
  obtain ⟨b', hst'⟩ := (hw'.node_rel hq).stored
  have hb : b = 0 := hst.base_zero (fun hf => hf)
  have hb' : b' = 0 := hst'.base_zero (fun hf => hf)
  obtain ⟨k, rfl⟩ : ∃ k : Nat, i = k := ⟨i.toNat, by omega⟩
  obtain ⟨e, he⟩ : ∃ e, (a.log p)[k - 1]? = some e := ⟨_, List.getElem?_eq_getElem (by omega)⟩
  refine ⟨e, ?_, ?_⟩
  · rw [hst.log_eq, entryAt_render (by omega)]
    exact he
  · rw [hst'.log_eq, entryAt_render (by omega)]
    exact getElem?_of_isPrefix hpre (getElem?_take_succ he (by omega))

/-- **Leader completeness**, whichever of the two states comes first. -/
theorem leader_completeness (hS : Fixed S members) (hoff : Uncompacted S)
    (hrun : Run S NoChange (World.init S) acts w) (hrun' : Run S NoChange w acts' w') :
    LeadersHold w w' ∧ LeadersHold w' w := by
  obtain ⟨a, a', hw, hw', hx⟩ := uncompacted_chronicles hS hoff hrun hrun'
  have hsafe := hw'.good.inv.safe trivial
  refine ⟨?_, ?_⟩
  -- what is committed is in the log of every later leader
  · intro p q i hp hq hlp hlq hterm h0 hi
    refine entry_of_take_isPrefix hw hw' hp hq h0 hi ?_
    obtain ⟨⟨Q, hwon⟩, hreign⟩ := hw'.leader hq hlq
    rw [← hreign]
    have hset := ((hw.node_rel hp).progress trivial).settled.mono hw.good.inv hx (le_refl _)
    exact hset.isPrefix_reign hw'.good.inv hsafe hwon hterm.le
  · -- the later term was won before: what is committed now was in the winner's bid
    intro p q i hp hq hlp hlq hterm h0 hi
    refine entry_of_take_isPrefix hw' hw hp hq h0 hi ?_
    obtain ⟨⟨Q, hwon⟩, hreign⟩ := hw.leader hq hlq
    obtain ⟨l, own, hbid, _, hown, _⟩ := hw.good.inv.logs.won_bid hwon
    rw [← hreign, hown]
    have hset := ((hw'.node_rel hp).progress trivial).settled
    exact (hset.isPrefix_bid hw'.good.inv hsafe (hx.won_mono hwon) (hx.bid_mono hbid) hterm).trans
      (List.prefix_append _ _)

theorem leader_completeness_sample :
    ∃ e, (sampleWorld.node "n1").log.entryAtLocked 1 = some e ∧
      ((after sample sampleWorld secondTerm).node "n2").log.entryAtLocked 1 = some e :=
  (leader_completeness sample_fixed (fun _ => le_refl _) firstCommit_run secondTerm_run).1
    "n1" "n2" 1 (by decide +kernel) (by decide +kernel) (by decide +kernel) (by decide +kernel)
    (by decide +kernel) (by decide) (by decide +kernel)

/-! ## Applied entries -/

/-- **State machine safety.** Two calls of `apply` for the same index, at whatever nodes and
in whatever states of a run, are for the same entry; and the calls since a node was started
are for the indexes `1, 2, 3, …`. -/
theorem state_machine_safety (hS : Fixed S members) (hoff : Uncompacted S)
    (hrun : Run S NoChange (World.init S) acts w) (hrun' : Run S NoChange w acts' w') :
    (∀ p q i e e', w.up p = true → w'.up q = true → (i, e) ∈ (w.node p).applies →
      (i, e') ∈ (w'.node q).applies → e = e') ∧
    ∀ p, w.up p = true → (w.node p).applies.map Prod.fst =
      (List.range (w.node p).applies.length).map (fun k : Nat => (k : Int) + 1) := by
  obtain ⟨a, a', hw, hw', hx⟩ := uncompacted_chronicles hS hoff hrun hrun'
  refine ⟨?_, ?_⟩
  -- an applied entry is settled, and only one entry is settled at an index
  · intro p q i e e' hp hq he he'
    obtain ⟨_, _, l, hset, hget⟩ := ((hw.node_rel hp).progress trivial).applied _ he
    obtain ⟨_, _, l', hset', hget'⟩ := ((hw'.node_rel hq).progress trivial).applied _ he'
    exact (hset.mono hw.good.inv hx (le_refl _)).getElem?_eq hset' hw'.good.inv
      (hw'.good.inv.safe trivial) hget hget'
  -- the calls were for the entries of the log, one after the other
  · intro p hp
    have hn := hw.node_rel hp
    have hnum := hw.good.numbered_log p
    rw [(hn.progress trivial).inOrder (fun hf => hf) (fun hf => hf)]
    apply List.ext_getElem?
    intro k
    rw [List.map_map, List.getElem?_map, List.getElem?_map, List.length_map]
    rcases Nat.lt_or_ge k ((a.log p).take (w.node p).lastApplied.toNat).length with hk | hk
    · rw [List.getElem?_eq_getElem hk, List.getElem?_range hk]
      have hlen : k < (a.log p).length := lt_of_lt_of_le hk (List.length_take_le' _ _)
      have := hnum k _ (List.getElem?_eq_getElem hlen)
      simp only [Option.map_some, Function.comp_apply, List.getElem_take, this]
    · rw [List.getElem?_eq_none hk, List.getElem?_eq_none (by rw [List.length_range]; exact hk)]
      rfl

theorem state_machine_safety_sample :
    (sampleWorld.node "n1").applies = [(1, { term := 1, index := 1 })] ∧
    ∀ e, (1, e) ∈ ((after sample sampleWorld heardOf).node "n2").applies →
      { term := 1, index := 1 } = e :=
  ⟨by decide +kernel, fun e he =>
    (state_machine_safety sample_fixed (fun _ => le_refl _) firstCommit_run heardOf_run).1
      "n1" "n2" 1 _ e (by decide +kernel) (by decide +kernel) (by decide +kernel) he⟩

end Cluster
