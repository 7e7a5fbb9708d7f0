import RaftStore.Refine.Acting

/-!
# Every step of the cluster keeps the relation

`WorldRel.step` is the simulation: a step of the cluster that respects `Admissible` leads
to a world that a later chronicle describes (`Advanced`). A step is one critical section of one
node (`Acted`), or it lets the network, a client or a process fail, which no chronicle notices.

`Admissible` is empty for a cluster whose members never change and that either takes no
snapshots or makes no claim under `strict`; what it asks otherwise are the precautions that
the source leaves out.
-/

namespace Refine

open Raft Consensus Cluster

variable {σ : Type} {X : Mode σ} {a a' : Chron} {id : String} {n n' : RaftNode σ} {w w' : World σ}
  {act : Action}

/-! ## What a step has to respect -/

/-- Membership changes only where nodes may join, and only with the precautions that the
mode depends on. -/
def Admissible (X : Mode σ) (w : World σ) : Action → Prop
  | .tick id due => X.joiners → Campaigns (w.node id) due → Configured X.members id (w.node id)
  | .deliver k => X.strict → X.compacting → KeepsLogs w (.deliver k)
  | .addServer id _ _ _ => X.strict ∧ X.joiners ∧ ChangesLate (w.node id)
  | .removeServer id _ => X.strict ∧ X.joiners ∧ ChangesLate (w.node id)
  | .crashDuring act _ => Admissible X w act
  | _ => True

/-! ## Crashes and restarts -/

/-- The storage a crashed process left behind holds a state that a chronicle after `a`
recorded: the last one saved, or an earlier one if the process died on the way. -/
theorem Saves.cut {st st' : Option Storage} (hs : Saves X id a n n') (h : NodeRel X a id n)
    (h' : NodeRel X a' id n') (hg : Good X a) (hst : n.storage = st) (hst' : n'.storage = st')
    (saves : Nat) : ∃ b d, Good X b ∧ Later id a b ∧ Recorded X b id d ∧
      Holds (X.setup.config id) (World.cutSaves st st' saves) d := by
  obtain ⟨s, s', new, hn, hn', hnew, hall⟩ := hs
  obtain rfl : st = some s := hst.symm.trans hn
  obtain rfl : st' = some s' := hst'.symm.trans hn'
  have hres : s'.results = [] := by
    obtain ⟨t, ht, hr, _⟩ := h'.synced
    rw [hn'] at ht
    rw [Option.some.inj ht]
    exact hr
  -- what is left is the end of the new saves on top of the old ones
  obtain ⟨k, hk⟩ : ∃ k, (World.cutSaves (some s) (some s') saves) =
      some { s' with saved := new.drop k ++ s.saved } := by
    refine ⟨s'.saved.length - s.saved.length - saves, ?_⟩
    unfold World.cutSaves
    dsimp only
    rw [hnew, List.length_append, List.drop_append_of_le_length (by omega)]
  rw [hk]
  cases hd : new.drop k with
  | cons d rest =>
    obtain ⟨b, hgb, hlb, hrec⟩ := hall d (List.mem_of_mem_drop (hd ▸ List.mem_cons_self))
    exact ⟨b, d, hgb, hlb, hrec, _, rfl, hres, Or.inl rfl⟩
  | nil =>
    obtain ⟨t, ht, _, hsv⟩ := h.synced
    obtain rfl : t = s := Option.some.inj (ht.symm.trans hn)
    exact ⟨a, n.durable, hg, Later.refl id a, h.toLive.recorded, _, rfl, hres, hsv⟩

/-- **A crash.** The process is related through what it left in its storage. -/
theorem WorldRel.crashed (h : WorldRel X a w) (hv : X.Valid) (hg : Good X a')
    (hl : Later id a a') {d : DurableState} {storage : Option Storage} (hrec : Recorded X a' id d)
    (hd : Holds (X.setup.config id) storage d) : WorldRel X a' (w.crashed id storage) := by
  refine ⟨hg, ?_, ?_, ?_, ?_⟩
  · intro j
    by_cases hj : j = id
    · subst hj
      have hst : ((w.crashed j storage).node j).storage = storage := by
        show (Function.update w.node j _ j).storage = storage
        rw [Function.update_self]
      rw [revived_of_down (Function.update_self ..), hst]
      exact boot_nodeRel hv hg hrec hd
    · rw [revived_congr (Function.update_of_ne hj ..) (Function.update_of_ne hj ..)]
      exact (h.nodes j).frame h.good hg hl hj
  · intro c hc
    obtain ⟨c₀, hc₀, rfl⟩ := List.mem_map.mp hc
    refine ((h.calls c₀ hc₀).mono h.good hl.toExtends).settle ?_ ?_ ?_ <;> split <;> rfl
  · intro p hp
    obtain ⟨p₀, hp₀, rfl⟩ := List.mem_map.mp hp
    have hrel := (h.puts p₀ hp₀).mono hl.toExtends
    split
    · exact (hrel.goto (by simp)).1
    · exact hrel
  · intro g hg
    obtain ⟨g₀, hg₀, rfl⟩ := List.mem_map.mp hg
    split
    · intro b hb
      cases hb
    · exact h.gets g₀ hg₀

theorem WorldRel.consume (h : WorldRel X a w) (act : Action) : WorldRel X a (consume w act) := by
  unfold Cluster.consume
  split
  · split
    · next k c hk =>
      refine h.same rfl rfl (fun c' hc' => ?_) (fun _ => Or.inl) (fun _ => Or.inl)
      rcases mem_setCall hc' with hold | rfl
      · exact Or.inl hold
      · exact Or.inr ((h.calls c (List.mem_of_getElem? hk)).settle rfl rfl rfl)
    · exact h
  · exact h

theorem WorldRel.restart (h : WorldRel X a w) (hup : w.up id = false) :
    WorldRel X a
      { w with
        node := Function.update w.node id
          (RaftNode.boot X.setup.machine (X.setup.config id) (w.node id).storage)
        up := Function.update w.up id true } := by
  refine ⟨h.good, ?_, h.calls, h.puts, h.gets⟩
  intro j
  have hj' := h.nodes j
  by_cases hj : j = id
  · subst hj
    rw [revived_of_down hup] at hj'
    rw [revived_of_up (Function.update_self ..)]
    show NodeRel X a j (Function.update w.node j _ j)
    rw [Function.update_self]
    exact hj'
  · rw [revived_congr (Function.update_of_ne hj ..) (Function.update_of_ne hj ..)]
    exact hj'

/-! ## The simulation -/

/-- **A critical section keeps the relation.** -/
theorem WorldRel.acted (h : WorldRel X a w) (hv : X.Valid)
    (hadm : Admissible X w act) (hact : actor w act = some id)
    (hstep : step X.setup w act = some w') :
    ∃ a', Acted X id (fun j => Undisturbed w id j act) a a' w w' := by
  cases stepped_of_step hstep with
  | tick hup =>
    cases hact
    obtain ⟨a', hr⟩ := (h.node_rel hup).tick h.good hv hadm
    exact ⟨a', h.lift_node hup hr⟩
  | go hup hk =>
    cases hact
    exact h.go hup hk
  | @deliver _ c hk _ hup =>
    obtain rfl : c.dst = id := by simpa [actor, hk] using hact
    exact h.deliverCall hv hk hup hadm
  | @reply _ c _ hk _ hup hreply =>
    obtain rfl : c.src = id := by simpa [actor, hk] using hact
    exact h.replyCall hv hk hup hreply
  | @propose _ cmd hup =>
    cases hact
    obtain ⟨a', hr, _⟩ := (h.node_rel hup).propose h.good hv cmd
    exact ⟨a', h.lift_node hup hr⟩
  | addServer hup =>
    cases hact
    obtain ⟨hs, hj, hcur⟩ := hadm
    obtain ⟨a', hr⟩ := (h.node_rel hup).addServer h.good hv hs hj _ _ _ hcur
    exact ⟨a', h.lift_node hup hr⟩
  | removeServer hup =>
    cases hact
    obtain ⟨hs, hj, hcur⟩ := hadm
    obtain ⟨a', hr⟩ := (h.node_rel hup).removeServer h.good hv hs hj _ hcur
    exact ⟨a', h.lift_node hup hr⟩
  | @stepGet _ g _ hk hup hrun =>
    obtain rfl : g.node = id := by simpa [actor, hk] using hact
    exact ⟨a, h.runGet hk hup hrun⟩
  | @beat _ _ g _ hk hup hrun =>
    obtain rfl : g.node = id := by simpa [actor, hk] using hact
    exact ⟨a, h.runBeat hk hup hrun⟩
  | @stepPut _ p _ hk hup hrun =>
    obtain rfl : p.node = id := by simpa [actor, hk] using hact
    exact h.runPut hv hk hup hrun
  -- the other actions run no section of a node
  | _ => cases hact

/-- What a step of the cluster leads to. The requests of clients are new, or their node's log
has kept what the step does not touch; and nobody who stays up un-applies an entry. -/
structure Advanced (X : Mode σ) (act : Action) (a a' : Chron) (w w' : World σ) : Prop where
  rel : WorldRel X a' w'
  grown : Extends a a'
  puts : ∀ p ∈ w'.puts, PutLogged X a' p ∨ p ∈ w.puts ∧
    ∀ j, Undisturbed w p.node j act → (a.log p.node).take j <+: a'.log p.node
  applied : X.strict → ∀ j, w.up j = true → w'.up j = true →
    (w.node j).lastApplied ≤ (w'.node j).lastApplied

theorem Acted.advanced (h : Acted X id (fun j => Undisturbed w id j act) a a' w w') :
    Advanced X act a a' w w' := by
  refine ⟨h.rel, h.reached.later.toExtends, fun p hp => ?_, fun hs j _ _ => ?_⟩
  · rcases h.puts p hp with hold | hnew
    · refine Or.inr ⟨hold, fun j hj => ?_⟩
      by_cases hid : p.node = id
      · rw [hid] at hj ⊢
        exact h.reached.kept j hj
      · rw [h.reached.later.log_eq hid]
        exact List.take_prefix _ _
    · exact Or.inl hnew
  · by_cases hid : j = id
    · subst hid
      exact h.reached.applied hs
    · rw [h.others j hid]

/-- A step that no chronicle notices. -/
theorem WorldRel.advanced_same (h : WorldRel X a w) (hnode : w'.node = w.node) (hup : w'.up = w.up)
    (hcalls : ∀ c ∈ w'.calls, c ∈ w.calls ∨ CallRel X a c)
    (hputs : ∀ p ∈ w'.puts, p ∈ w.puts ∨ PutLogged X a p)
    (hgets : ∀ g ∈ w'.gets, g ∈ w.gets ∨ GetRel g) : Advanced X act a a w w' := by
  refine ⟨h.same hnode hup hcalls (fun p hp => (hputs p hp).imp (fun h => h) And.left) hgets,
    Extends.refl a, fun p hp => ?_, fun _ j _ _ => by rw [hnode]⟩
  rcases hputs p hp with hold | hnew
  · exact Or.inr ⟨hold, fun _ _ => List.take_prefix _ _⟩
  · exact Or.inl hnew

/-- A crash: whoever waited at the node waits no longer. -/
theorem WorldRel.advanced_crashed (h : WorldRel X a w) (hv : X.Valid) (hg : Good X a')
    (hl : Later id a a') {d : DurableState} {storage : Option Storage} (hrec : Recorded X a' id d)
    (hd : Holds (X.setup.config id) storage d) (inner : Action) :
    Advanced X act a a' w ((Cluster.consume w inner).crashed id storage) := by
  refine ⟨(h.consume inner).crashed hv hg hl hrec hd, hl.toExtends, ?_, ?_⟩
  · obtain ⟨calls, hcons⟩ := consume_eq w inner
    rw [hcons]
    intro p hp
    obtain ⟨p₀, hp₀, rfl⟩ := List.mem_map.mp hp
    have hrel := (h.puts p₀ hp₀).mono hl.toExtends
    split
    · exact Or.inl (hrel.goto (by simp))
    next hrun =>
    by_cases hid : p₀.node = id
    · -- it had come to its end before
      refine Or.inl ⟨hrel, fun i t hi => absurd ⟨hid, ?_⟩ hrun⟩
      rw [hi]
      rfl
    · refine Or.inr ⟨hp₀, fun _ _ => ?_⟩
      rw [hl.log_eq hid]
      exact List.take_prefix _ _
  · obtain ⟨calls, hcons⟩ := consume_eq w inner
    rw [hcons]
    intro _ j _ hup
    have hj : j ≠ id := by
      rintro rfl
      have hdown : Function.update w.up j false j = true := hup
      rw [Function.update_self] at hdown
      cases hdown
    show _ ≤ (Function.update w.node id _ j).lastApplied
    rw [Function.update_of_ne hj]

/-- **The simulation.** Every admissible step of the cluster is described by a chronicle
after the one before. -/
theorem WorldRel.step (h : WorldRel X a w) (hv : X.Valid)
    (hadm : Admissible X w act) (hstep : step X.setup w act = some w') :
    ∃ a', Advanced X act a a' w w' := by
  cases hactor : actor w act with
  | some id =>
    obtain ⟨a', hacted⟩ := h.acted hv hadm hactor hstep
    exact ⟨a', hacted.advanced⟩
  | none =>
  cases stepped_of_step hstep with
  | giveUp hk _ hup => exact ⟨a, (h.giveUpCall hk hup).advanced⟩
  | startGet =>
    refine ⟨a, h.advanced_same rfl rfl (fun _ => Or.inl) (fun _ => Or.inl) (fun g hg => ?_)⟩
    rcases List.mem_append.mp hg with hold | hnew
    · exact Or.inl hold
    · rw [List.mem_singleton.mp hnew]
      exact Or.inr (fun b hb => by cases hb)
  | @abortGet _ g _ hk =>
    refine ⟨a, h.advanced_same rfl rfl (fun _ => Or.inl) (fun _ => Or.inl) (fun g' hg' => ?_)⟩
    rcases List.mem_or_eq_of_mem_set hg' with hold | rfl
    · exact Or.inl hold
    · exact Or.inr (h.gets g (List.mem_of_getElem? hk))
  | startPut =>
    refine ⟨a, h.advanced_same rfl rfl (fun _ => Or.inl) (fun p hp => ?_) (fun _ => Or.inl)⟩
    rcases List.mem_append.mp hp with hold | hnew
    · exact Or.inl hold
    · rw [List.mem_singleton.mp hnew]
      exact Or.inr (PutLogged.fresh _ _ _ _)
  | @abortPut _ p _ _ hk =>
    refine ⟨a, h.advanced_same rfl rfl (fun _ => Or.inl) (fun p' hp' => ?_) (fun _ => Or.inl)⟩
    rcases mem_setPut hp' with hold | rfl
    · exact Or.inl hold
    · exact Or.inr ((h.puts p (List.mem_of_getElem? hk)).goto (by simp))
  | @stop id hup =>
    have hn := h.node_rel hup
    refine ⟨a, Acted.advanced (h.lift_node hup ?_)⟩
    exact hn.reach h.good (Later.refl id a) { hn.toLive with } rfl rfl (fun _ => le_refl _) kept_log
  | @crash id hup =>
    have hn := h.node_rel hup
    exact ⟨a, h.advanced_crashed hv h.good (Later.refl id a) hn.toLive.recorded hn.synced
      (.crash id)⟩
  | @crashDuring inner saves _ _ hid hinner =>
    -- the section would have led to a chronicle, and the saves that were reached cut it short
    have hadm' : Admissible X w inner := hadm
    obtain ⟨a', hacted⟩ := h.acted hv hadm' hid hinner
    obtain ⟨b, d, hg, hl, hrec, hd⟩ := hacted.reached.saves.cut (h.node_rel hacted.up)
      hacted.reached.rel h.good rfl rfl saves
    exact ⟨b, h.advanced_crashed hv hg hl hrec hd inner⟩
  | @restart id hdown =>
    refine ⟨a, h.restart hdown, Extends.refl a,
      fun p hp => Or.inr ⟨hp, fun _ _ => List.take_prefix _ _⟩, fun _ j hj _ => ?_⟩
    have hne : j ≠ id := by
      rintro rfl
      rw [hdown] at hj
      cases hj
    show _ ≤ (Function.update w.node id _ j).lastApplied
    rw [Function.update_of_ne hne]
  -- the other actions have an actor
  | deliver hk => simp [actor, hk] at hactor
  | reply hk => simp [actor, hk] at hactor
  | stepGet hk => simp [actor, hk] at hactor
  | beat hk => simp [actor, hk] at hactor
  | stepPut hk => simp [actor, hk] at hactor
  | _ => cases hactor

/-! ## The start -/

/-- **The initial cluster.** -/
theorem WorldRel.init (hv : X.Valid) : WorldRel X Chronicle.init (World.init X.setup) := by
  have hg : Good X Chronicle.init := by
    refine ⟨Inv.init _ _, ?_, ?_, ?_⟩
    · intro T k e he
      cases he
    · intro T e he
      cases he
    · intro hj T e he
      cases he
  refine ⟨hg, ?_, ?_, ?_, ?_⟩
  · intro id
    rw [revived_of_up rfl]
    refine boot_nodeRel hv hg (d := initialState (X.setup.config id))
      ⟨0, ⟨{ term := 0, index := 0 }, []⟩, rfl, ?_⟩ ⟨{}, rfl, rfl, Or.inr ⟨rfl, rfl⟩⟩
    refine ⟨rfl, rfl, rfl, le_refl _, fun _ => rfl, ?_, fun _ => Settled.nil,
      fun _ h0 => absurd h0 (by decide), fun _ _ => rfl⟩
    rcases hv.peers id with hp | ⟨hj, hid, hp⟩
    · exact Or.inl hp
    · exact Or.inr ⟨hj, ⟨id, hid, hp⟩, fun e he => by cases he⟩
  · intro c hc
    cases hc
  · intro p hp
    cases hp
  · intro g hg
    cases hg

end Refine
