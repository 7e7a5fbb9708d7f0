import RaftStore.Lib.Linearization
import RaftStore.Results.Durability
import RaftStore.Results.Reads

/-!
# Linearizability

The client calls of a whole run, reads and writes together, are explained by one sequential
history of the store (`linearizable`): every `Get` that has returned finds exactly what was written
before it, every acknowledged write stands in it once, and a call that was over before another one
began comes first.

The order is that of the log, and a read stands where the node that served it had applied. Along
the run a `Diary` keeps one chronicle for every state and, for every read that has returned, the
part of the log it was served from. Four facts put the calls in order:

* what was acknowledged or read up to a state is settled there (`Consistent`);
* a read that begins later sees all that is settled (`Since.reads`);
* a write that begins later is proposed beyond the log of its term (`Since.puts`), so it cannot
  stand inside something that was settled before.

The precautions are those of `read_reflects_commits` and `acknowledged_write`.
-/

namespace Cluster

open Raft Refine Consensus Linear

variable {σ : Type} {S : Setup σ} {members : AddrMap} {X : Mode σ} {w w' v : World σ}
  {act : Action} {acts : List Action} {k : Nat} {d : Diary}

/-! ## Calls of clients -/

/-- A call of a client, by its number. -/
inductive ClientOp
  | get (k : Nat)
  | put (k : Nat)

namespace ClientOp

/-- What a call that has succeeded did. -/
def event (S : Setup σ) (w : World σ) : ClientOp → Option (Access LogEntry Nat)
  | .get k => (w.answer k).map (fun _ => .read k)
  | .put k => (w.puts[k]?).bind (fun p =>
      match p.phase, p.proposed with
      | .ok, some (i, t) => some (.write (p.entry S i t))
      | _, _ => none)

def Invoked (w : World σ) : ClientOp → Prop
  | .get k => k < w.gets.length
  | .put k => k < w.puts.length

def Succeeded (w : World σ) : ClientOp → Prop
  | .get k => ∃ store, w.answer k = some store
  | .put k => ∃ p, w.puts[k]? = some p ∧ p.phase = .ok

/-- In some state on the way `o` had succeeded, and `o'` had not been invoked. -/
def Precedes (S : Setup σ) (acts : List Action) (o o' : ClientOp) : Prop :=
  ∃ acts₁ acts₂ v, acts = acts₁ ++ acts₂ ∧ exec (step S) (World.init S) acts₁ = some v ∧
    o.Succeeded v ∧ ¬ o'.Invoked v

theorem event_put {x : Access LogEntry Nat} (h : (ClientOp.put k).event S w = some x) :
    ∃ p i t, w.puts[k]? = some p ∧ p.phase = .ok ∧ p.proposed = some (i, t) ∧
      x = .write (p.entry S i t) := by
  obtain ⟨p, hk, hp⟩ := Option.bind_eq_some_iff.mp h
  split at hp
  · next i t hok hprop =>
    cases hp
    exact ⟨p, i, t, hk, hok, hprop, rfl⟩
  · cases hp

theorem event_get {x : Access LogEntry Nat} (h : (ClientOp.get k).event S w = some x) :
    x = .read k ∧ ∃ store, w.answer k = some store := by
  obtain ⟨store, hans, rfl⟩ := Option.map_eq_some_iff.mp h
  exact ⟨rfl, store, hans⟩

end ClientOp

/-! ## The diary of a run -/

/-- The chronicle of a state, and what the reads that have returned were served from. -/
structure Diary where
  chron : Chron
  seen : Nat → List LogEntry

/-- A read that has not returned would be served from what its node has applied. -/
def Diary.next (d : Diary) (w : World σ) (a : Chron) : Diary where
  chron := a
  seen := fun k =>
    match w.answer k, w.gets[k]? with
    | none, some g => (d.chron.log g.node).take (w.node g.node).lastApplied.toNat
    | _, _ => d.seen k

theorem Diary.next_seen_of_answer (d : Diary) (a : Chron) {store : σ}
    (h : w.answer k = some store) :
    (d.next w a).seen k = d.seen k := by
  simp [Diary.next, h]

theorem Diary.next_seen_of_read (d : Diary) (a : Chron) {g : GetOp σ} (hk : w.gets[k]? = some g)
    (hphase : g.phase = .read) : (d.next w a).seen k =
      (d.chron.log g.node).take (w.node g.node).lastApplied.toNat := by
  have hnone : w.answer k = none := by simp [World.answer, hk, hphase]
  simp [Diary.next, hnone, hk]

/-- **What is known in every state.** -/
structure Consistent (X : Mode σ) (d : Diary) (w : World σ) : Prop where
  rel : WorldRel X d.chron w
  known : ReadsKnown w
  reads : ∀ {k store}, w.answer k = some store →
    store = replay X.setup.machine (d.seen k) ∧ ∃ T, Settled d.chron T (d.seen k)
  puts : ∀ p ∈ w.puts, Tracked X d.chron p
  once : ∀ {k k' : Nat} {p p' it}, w.puts[k]? = some p → w.puts[k']? = some p' →
    p.proposed = some it → p'.proposed = some it → k = k'

/-- A step of the run with what is written down for it. -/
structure Noted (X : Mode σ) (d : Diary) (w : World σ) (act : Action) (d' : Diary) (w' : World σ) :
    Prop where
  pre : Consistent X d w
  post : Consistent X d' w'
  step_eq : step X.setup w act = some w'
  adv : Advanced X act d.chron d'.chron w w'
  own : ReadsOwn w act
  seen_eq : d'.seen = (d.next w d'.chron).seen

/-- A proposal that is added is the only one at its place. -/
theorem Consistent.once_step (h : Consistent X d w)
    (hstep : step X.setup w act = some w') {k k' : Nat} {p p' : PutOp} {it : Int × Int}
    (hk : w'.puts[k]? = some p) (hk' : w'.puts[k']? = some p') (hit : p.proposed = some it)
    (hit' : p'.proposed = some it) : k = k' := by
  have hputs := puts_step hstep
  -- a proposal of this step lies beyond everything proposed before
  have hfresh : ∀ {q q' : PutOp} {j j' : Nat} {i t : Int}, w.puts[j]? = some q →
      w.puts[j']? = some q' → w.up q.node = true →
      ((w.node q.node).propose (X.setup.encode q.key q.value)).2 = .ok (i, t) →
      q'.proposed ≠ some (i, t) := by
    intro q q' j j' i t _ hq' hup hok hprop
    have hidx := h.rel.proposed_index hup hok
    obtain ⟨h0, hget⟩ := (h.rel.puts q' (List.mem_of_getElem? hq')).1 i t hprop
    have := (List.getElem?_eq_some_iff.mp hget).1
    omega
  have hold : ∀ {j : Nat} {q : PutOp}, w'.puts[j]? = some q → q.proposed = some it →
      ∃ q₀, w.puts[j]? = some q₀ := by
    intro j q hj hq
    rcases hputs.cases hj with ⟨q₀, hq₀, _⟩ | ⟨_, hnew⟩
    · exact ⟨q₀, hq₀⟩
    · rw [hnew.proposed_eq] at hq
      cases hq
  obtain ⟨p₀, hp₀⟩ := hold hk hit
  obtain ⟨p₀', hp₀'⟩ := hold hk' hit'
  rcases proposed_step hstep hp₀ hk with heq | ⟨rfl, hup, i, t, hok, hnew⟩
  · rcases proposed_step hstep hp₀' hk' with heq' | ⟨_, hup', i, t, hok', hnew'⟩
    · exact h.once hp₀ hp₀' (heq ▸ hit) (heq' ▸ hit')
    · rw [hit'] at hnew'
      cases hnew'
      exact absurd (heq ▸ hit) (hfresh hp₀' hp₀ hup' hok')
  · rcases proposed_step hstep hp₀' hk' with heq' | ⟨hact, _⟩
    · rw [hit] at hnew
      cases hnew
      exact absurd (heq' ▸ hit') (hfresh hp₀ hp₀' hup hok)
    · cases hact
      rfl

/-- What a read returns is the replay of what it was served from, and that is settled. -/
theorem Consistent.reads_step {a' : Chron} (h : Consistent X d w) (hs : X.strict)
    (hlaw : Lawful X.setup.machine) (hadv : Advanced X act d.chron a' w w')
    (hstep : step X.setup w act = some w') {store : σ} (hans : w'.answer k = some store) :
    store = replay X.setup.machine ((d.next w a').seen k) ∧
      ∃ T, Settled a' T ((d.next w a').seen k) := by
  rcases answer_cases hstep hans with hold | ⟨g, hg, hphase, hup, rfl⟩
  · obtain ⟨hstore, T, hset⟩ := h.reads hold
    rw [d.next_seen_of_answer a' hold]
    exact ⟨hstore, T, hset.mono h.rel.good.inv hadv.grown (le_refl _)⟩
  · rw [d.next_seen_of_read a' hg hphase]
    exact ⟨((h.rel.node_rel hup).progress hs).machine hlaw, (w.node g.node).currentTerm,
      (h.rel.settled_take hs hup).mono h.rel.good.inv hadv.grown (le_refl _)⟩

/-- **One step of the diary.** -/
theorem Consistent.step (h : Consistent X d w) (hv : X.Valid) (hs : X.strict)
    (hlaw : Lawful X.setup.machine) (hadm : Admissible X w act) (hkept : WritesKept w act)
    (hown : ReadsOwn w act) (hstep : step X.setup w act = some w') :
    ∃ d', Consistent X d' w' ∧ Noted X d w act d' w' := by
  obtain ⟨a', hadv⟩ := h.rel.step hv hadm hstep
  have hpost : Consistent X (d.next w a') w' := by
    refine ⟨hadv.rel, h.known.step (gets_step hstep), h.reads_step hs hlaw hadv hstep,
      fun p hp => ?_, h.once_step hstep⟩
    exact ⟨logged_step hadv hkept h.puts hp,
      settled_step h.rel hs hadv (puts_step hstep) h.puts hp⟩
  exact ⟨_, hpost, h, hpost, hstep, hadv, hown, rfl⟩

theorem Consistent.init (hv : X.Valid) :
    Consistent X ⟨Chronicle.init, fun _ => []⟩ (World.init X.setup) where
  rel := WorldRel.init hv
  known := fun c hc => by cases hc
  reads := fun h => by cases h
  puts := fun p hp => by cases hp
  once := fun h => by cases h

/-! ## What is known since a state -/

/-- **What is known of the calls since a state** `v` with diary `d₀`. -/
structure Since (X : Mode σ) (d₀ : Diary) (v : World σ) (d : Diary) (w : World σ) : Prop where
  later : Extends d₀.chron d.chron
  facts : ∀ {k : Nat} {g}, v.gets.length ≤ k → w.gets[k]? = some g →
    GetFacts X d₀.chron d.chron w k g
  reads : ∀ {k store}, v.gets.length ≤ k → w.answer k = some store →
    HasCommits d₀.chron (d.seen k)
  kept : ∀ {k store}, v.answer k = some store →
    w.answer k = some store ∧ d.seen k = d₀.seen k
  puts : ∀ {k : Nat} {p i t}, v.puts.length ≤ k → w.puts[k]? = some p → p.proposed = some (i, t) →
    ((d₀.chron.reign t).length : Int) < i
  acked : ∀ {k : Nat} {p}, v.puts[k]? = some p → p.phase = .ok → w.puts[k]? = some p

theorem Since.refl (X : Mode σ) (d : Diary) (w : World σ) : Since X d w d w where
  later := Extends.refl _
  facts := fun hk hg => absurd (List.getElem?_eq_some_iff.mp hg).1 (not_lt.mpr hk)
  reads := by
    intro k store hk hans
    obtain ⟨g, hg, _⟩ := answer_eq_some.mp hans
    exact absurd (List.getElem?_eq_some_iff.mp hg).1 (not_lt.mpr hk)
  kept := fun h => ⟨h, rfl⟩
  puts := fun hk hp => absurd (List.getElem?_eq_some_iff.mp hp).1 (not_lt.mpr hk)
  acked := fun h _ => h

theorem Since.facts_step {d₀ d d' : Diary} (h : Since X d₀ v d w) (hn : Noted X d w act d' w')
    (hs : X.strict) (hj : ¬ X.joiners) (hg₀ : Good X d₀.chron)
    {g' : GetOp σ} (hk : v.gets.length ≤ k) (hg' : w'.gets[k]? = some g') :
    GetFacts X d₀.chron d'.chron w' k g' := by
  have hgets := gets_step hn.step_eq
  rcases Nat.lt_or_ge k w.gets.length with hlt | hge
  · have hg := List.getElem?_eq_getElem hlt
    obtain ⟨x, hx, hmove⟩ := hgets.old hg
    rw [hg', Option.some.injEq] at hx
    subst hx
    exact (h.facts hk hg).step hn.pre.rel hs hj hg₀ h.later hn.adv hn.own hg hmove
  · -- a new one, for which nothing can have been sent
    obtain ⟨rfl, hphase, hbeats, hres, hcalls⟩ := hgets.new hg' hge
    unfold GetFacts
    rw [hphase]
    refine ⟨hbeats, hres, fun c hc hread => ?_⟩
    rw [hcalls] at hc
    exact absurd (hn.pre.known c hc _ hread) (lt_irrefl _)

/-- **One step since a state.** -/
theorem Since.step {d₀ d d' : Diary} (h : Since X d₀ v d w) (hn : Noted X d w act d' w')
    (hs : X.strict) (hj : ¬ X.joiners) (hg₀ : Good X d₀.chron) :
    Since X d₀ v d' w' := by
  refine ⟨h.later.trans hn.adv.grown, h.facts_step hn hs hj hg₀, ?_, ?_, ?_, ?_⟩
  · intro k store hk hans
    rw [hn.seen_eq]
    rcases answer_cases hn.step_eq hans with hold | ⟨g, hg, hphase, hup, rfl⟩
    · rw [d.next_seen_of_answer _ hold]
      exact h.reads hk hold
    · -- it is served now, and what it knows of its index is enough
      have hfacts := h.facts hk hg
      unfold GetFacts at hfacts
      rw [hphase] at hfacts
      obtain ⟨readIndex, hcon, hup', hle⟩ := hfacts
      rw [d.next_seen_of_read _ hg hphase]
      exact hcon.covers hn.pre.rel hs hup' hle
  · intro k store hans
    obtain ⟨hold, hseen⟩ := h.kept hans
    rw [hn.seen_eq, d.next_seen_of_answer _ hold]
    exact ⟨answer_step hn.step_eq hold, hseen⟩
  · intro k p i t hk hp hprop
    rcases (puts_step hn.step_eq).cases hp with ⟨p₀, hp₀, _⟩ | ⟨_, hnew⟩
    · rcases proposed_step hn.step_eq hp₀ hp with heq | ⟨_, hup, i', t', hok, heq⟩
      · exact h.puts hk hp₀ (heq ▸ hprop)
      · rw [hprop] at heq
        cases heq
        have hidx := hn.pre.rel.proposed_index hup hok
        have := (h.later.reign_mono t).length_le
        omega
    · rw [hnew.proposed_eq] at hprop
      cases hprop
  · intro k p hp hok
    obtain ⟨p', hp', hmove⟩ := (puts_step hn.step_eq).old (h.acked hp hok)
    rw [hmove.eq_of_ok hok] at hp'
    exact hp'

/-! ## Putting the calls in order -/

/-- What was settled in an earlier state lies below every write that began later. -/
theorem settled_lt_proposed {d₀ d : Diary} (hv : Consistent X d₀ v) (hw : Consistent X d w)
    (hsince : Since X d₀ v d w) (hs : X.strict) {T : Int} {l : List LogEntry}
    (hl : Settled d₀.chron T l) {p : PutOp} {i t : Int} (hk : v.puts.length ≤ k)
    (hp : w.puts[k]? = some p) (hok : p.phase = .ok) (hprop : p.proposed = some (i, t)) :
    (l.length : Int) < i := by
  have hfar := hsince.puts hk hp hprop
  obtain ⟨i', t', hprop', h0, T', l', hl', hget⟩ := (hw.puts p (List.mem_of_getElem? hp)).2 hok
  rw [hprop] at hprop'
  cases hprop'
  by_contra hle
  -- the entry would stand in `l`, so it would have been in the log of its term already
  obtain ⟨e, he⟩ : ∃ e, l[i.toNat - 1]? = some e := ⟨_, List.getElem?_eq_getElem (by omega)⟩
  have heq : e = p.entry X.setup i t :=
    (hl.mono hv.rel.good.inv hsince.later (le_refl _)).getElem?_eq hl' hw.rel.good.inv
      (hw.rel.good.inv.safe hs) he hget
  have hch := hl.chained hv.rel.good.inv (i.toNat - 1) e he
  rw [heq] at hch
  have hlen : (l.take (i.toNat - 1 + 1)).length ≤ (d₀.chron.reign t).length := hch.length_le
  rw [length_take_of_getElem? he] at hlen
  omega

/-- A call that was over before another one began, with what is known since. -/
theorem since_of_precedes {o o' : ClientOp} (hv : X.Valid) (hs : X.strict)
    (hj : ¬ X.joiners)
    (hpath : TracedPath (Noted X) ⟨Chronicle.init, fun _ => []⟩ (World.init X.setup) acts d w)
    (h : ClientOp.Precedes X.setup acts o o') :
    ∃ d₀ v, Consistent X d₀ v ∧ Since X d₀ v d w ∧ o.Succeeded v ∧ ¬ o'.Invoked v := by
  obtain ⟨acts₁, acts₂, v, rfl, hexec, hdone, hnew⟩ := h
  obtain ⟨d₀, u, hfst, hsnd⟩ := hpath.split
  have hu : exec (step X.setup) (World.init X.setup) acts₁ = some u :=
    hfst.exec_eq (fun hn => hn.step_eq)
  rw [hexec, Option.some.injEq] at hu
  subst hu
  have hcons : Consistent X d₀ v :=
    hfst.invariant (fun _ _ _ _ _ _ hn => hn.post) (Consistent.init hv)
  exact ⟨d₀, v, hcons, hsnd.invariant (fun _ _ _ _ _ hsince hn =>
    hsince.step hn hs hj hcons.rel.good) (Since.refl X d₀ v), hdone, hnew⟩

/-- The position of an entry and of a read. -/
def position (d : Diary) : Access LogEntry Nat → Nat ×ₗ WithBot Nat :=
  rank (fun e => e.index.toNat) (fun k => (d.seen k).length)

/-- An acknowledged write and what was settled with it. -/
theorem Consistent.settled_put (h : Consistent X d w) {p : PutOp} {i t : Int}
    (hp : w.puts[k]? = some p) (hok : p.phase = .ok) (hprop : p.proposed = some (i, t)) :
    0 < i ∧ ∃ T l, Settled d.chron T l ∧ l[i.toNat - 1]? = some (p.entry X.setup i t) := by
  obtain ⟨i', t', hprop', h0, hset⟩ := (h.puts p (List.mem_of_getElem? hp)).2 hok
  rw [hprop] at hprop'
  cases hprop'
  exact ⟨h0, hset⟩

/-- **Positions agree with time.** -/
theorem position_lt {d₀ d : Diary} {o o' : ClientOp} {x x' : Access LogEntry Nat}
    (hv : Consistent X d₀ v) (hw : Consistent X d w) (hsince : Since X d₀ v d w) (hs : X.strict)
    (hdone : o.Succeeded v) (hnew : ¬ o'.Invoked v) (hx : o.event X.setup w = some x)
    (hx' : o'.event X.setup w = some x') : position d x < position d x' := by
  -- what the earlier call did was settled in `v`
  obtain ⟨T, l, hl, hpos⟩ : ∃ T l, Settled d₀.chron T l ∧
      ((∃ e, x = .write e ∧ e.index.toNat ≤ l.length) ∨
        ∃ k, x = .read k ∧ d.seen k = l ∧ k < v.gets.length) := by
    cases o with
    | get k =>
      obtain ⟨rfl, _⟩ := ClientOp.event_get hx
      obtain ⟨store, hans⟩ := hdone
      obtain ⟨_, T, hset⟩ := hv.reads hans
      obtain ⟨g, hg, _⟩ := answer_eq_some.mp hans
      exact ⟨T, _, hset, Or.inr ⟨k, rfl, (hsince.kept hans).2, (List.getElem?_eq_some_iff.mp hg).1⟩⟩
    | put k =>
      obtain ⟨p, hp, hok⟩ := hdone
      obtain ⟨q, i, t, hq, _, hprop, rfl⟩ := ClientOp.event_put hx
      rw [hsince.acked hp hok, Option.some.injEq] at hq
      subst hq
      obtain ⟨h0, T, l, hset, hget⟩ := hv.settled_put hp hok hprop
      have := (List.getElem?_eq_some_iff.mp hget).1
      exact ⟨T, l, hset, Or.inl ⟨_, rfl, by show i.toNat ≤ _; omega⟩⟩
  -- and the later one lies beyond it
  cases o' with
  | get k' =>
    obtain ⟨rfl, store, hans⟩ := ClientOp.event_get hx'
    have hle := ((hsince.reads (not_lt.mp hnew) hans).settled hl).length_le
    rcases hpos with ⟨e, rfl, he⟩ | ⟨k, rfl, rfl, hk⟩
    · exact rank_write_lt_read.mpr (he.trans hle)
    · have : k < k' := hk.trans_le (not_lt.mp hnew)
      exact rank_read_lt_read.mpr (hle.lt_or_eq.imp_right fun heq => ⟨heq, this⟩)
  | put k' =>
    obtain ⟨p, i, t, hp, hok, hprop, rfl⟩ := ClientOp.event_put hx'
    have hlt := settled_lt_proposed hv hw hsince hs hl (not_lt.mp hnew) hp hok hprop
    have hlt' : l.length < (p.entry X.setup i t).index.toNat := by
      show _ < i.toNat
      omega
    rcases hpos with ⟨e, rfl, he⟩ | ⟨k, rfl, rfl, _⟩
    · exact rank_write_lt_write.mpr (he.trans_lt hlt')
    · exact rank_read_lt_write.mpr hlt'

/-- Different calls did different things. -/
theorem Consistent.event_injective (h : Consistent X d w) {o o' : ClientOp}
    {x : Access LogEntry Nat} (hx : o.event X.setup w = some x)
    (hx' : o'.event X.setup w = some x) :
    o = o' := by
  cases o with
  | get k =>
    obtain ⟨rfl, _⟩ := ClientOp.event_get hx
    cases o' with
    | get k' =>
      obtain ⟨heq, _⟩ := ClientOp.event_get hx'
      cases heq
      rfl
    | put k' =>
      obtain ⟨_, _, _, _, _, _, heq⟩ := ClientOp.event_put hx'
      cases heq
  | put k =>
    obtain ⟨p, i, t, hp, _, hprop, rfl⟩ := ClientOp.event_put hx
    cases o' with
    | get k' =>
      obtain ⟨heq, _⟩ := ClientOp.event_get hx'
      cases heq
    | put k' =>
      obtain ⟨p', i', t', hp', _, hprop', heq⟩ := ClientOp.event_put hx'
      have hentry : p.entry X.setup i t = p'.entry X.setup i' t' := by injection heq
      obtain rfl : i = i' := congrArg LogEntry.index hentry
      obtain rfl : t = t' := congrArg LogEntry.term hentry
      rw [h.once hp hp' hprop hprop']

/-! ## The theorem -/

/-- Nobody changes the membership, delivered snapshots keep the receiver's log, reads are captured
after a commit of the leader's term, and nothing overwrites an entry that a client waits for. -/
def Orderly (w : World σ) (act : Action) : Prop :=
  Steady w act ∧ WritesKept w act

/-- The diary's path is an execution. -/
theorem passes_of_noted
    (hpath : TracedPath (Noted X) ⟨Chronicle.init, fun _ => []⟩ (World.init X.setup) acts d w) :
    Passes X.setup acts w :=
  ⟨acts, List.prefix_refl _, hpath.exec_eq fun hn => hn.step_eq⟩

/-- What a read was served from, its node took to be committed in some state. -/
theorem seen_le_commit (hs : X.strict)
    (hpath : TracedPath (Noted X) ⟨Chronicle.init, fun _ => []⟩ (World.init X.setup) acts d w)
    {store : σ} (hans : w.answer k = some store) :
    ∃ u id, Passes X.setup acts u ∧
      ((d.seen k).length : Int) ≤ (u.revived X.setup id).commitIndex := by
  refine (hpath.invariant_along (I := fun acts d w =>
    TracedPath (Noted X) ⟨Chronicle.init, fun _ => []⟩ (World.init X.setup) acts d w ∧
      ∀ store, w.answer k = some store → ∃ u id, Passes X.setup acts u ∧
        ((d.seen k).length : Int) ≤ (u.revived X.setup id).commitIndex)
    (fun past d v act d' v' hinv hn => ?_) ⟨.nil _ _, fun store h => by cases h⟩).2 store hans
  obtain ⟨hpast, hold⟩ := hinv
  refine ⟨hpast.append (.cons hn (.nil _ _)), fun store hans => ?_⟩
  rw [hn.seen_eq]
  rcases answer_cases hn.step_eq hans with hans₀ | ⟨g, hg, hphase, hup, _⟩
  · obtain ⟨u, id, hpass, hle⟩ := hold store hans₀
    rw [d.next_seen_of_answer _ hans₀]
    exact ⟨u, id, hpass.append, hle⟩
  · -- served now, from what its node has applied
    refine ⟨v, g.node, (passes_of_noted hpast).append, ?_⟩
    have hp := (hn.pre.rel.node_rel hup).progress hs
    have hle := hp.applied_le
    have hnn := hp.applied_nonneg
    rw [d.next_seen_of_read _ hg hphase, List.length_take, revived_of_up hup]
    omega

/-- **All calls have their place in the history of the run.** -/
theorem Consistent.exists_log (h : Consistent X d w) (hv : X.Valid) (hs : X.strict)
    (hlaw : Lawful X.setup.machine) {ok : World σ → Action → Prop}
    (hrun : Run X.setup ok (World.init X.setup) acts w)
    (hpath : TracedPath (Noted X) ⟨Chronicle.init, fun _ => []⟩ (World.init X.setup) acts d w) :
    ∃ H T, Settled d.chron T H ∧ HistoryOf X.setup X.members acts H ∧
      (∀ k store, w.answer k = some store → d.seen k <+: H) ∧
      ∀ (k : Nat) p i t, w.puts[k]? = some p → p.phase = .ok → p.proposed = some (i, t) →
        p.entry X.setup i t ∈ H := by
  have hsafe := h.rel.good.inv.safe hs
  obtain ⟨H, T, hH, hhist⟩ := exists_history hv h.rel.good hs hlaw
    (recounts_of_traced Diary.chron (fun hn => ⟨hn.step_eq, hn.post.rel, hn.adv.grown⟩)
      (WorldRel.init hv) hpath)
  refine ⟨H, T, hH, hhist, fun k store hans => ?_, fun k p i t hp hok hprop => ?_⟩
  · obtain ⟨_, T', hset⟩ := h.reads hans
    obtain ⟨u, id, hpass, hle⟩ := seen_le_commit hs hpath hans
    have hlen := (hhist.follows u hpass id).commit_le
    rcases hset.comparable hH h.rel.good.inv hsafe with hpre | hpre
    · exact hpre
    · rw [hpre.eq_of_length_le (by omega)]
  · obtain ⟨h0, T', l, hset, hget⟩ := h.settled_put hp hok hprop
    obtain ⟨e, he⟩ := hhist.reaches hrun (List.mem_of_getElem? hp) hok hprop h0
    rw [← hH.getElem?_eq hset h.rel.good.inv hsafe he hget]
    exact List.mem_of_getElem? he

/-- The calls that return, read off the state. -/
def World.returned (w : World σ) : List Nat :=
  (List.range w.gets.length).filter (fun k => (w.answer k).isSome)

theorem mem_returned : k ∈ w.returned ↔ ∃ store, w.answer k = some store := by
  unfold World.returned
  rw [List.mem_filter, List.mem_range, Option.isSome_iff_exists, and_iff_right_iff_imp]
  rintro ⟨store, hans⟩
  obtain ⟨g, hg, _⟩ := answer_eq_some.mp hans
  exact (List.getElem?_eq_some_iff.mp hg).1

/-- **Every call has its position in the log.** -/
theorem Consistent.positions (h : Consistent X d w) (hv : X.Valid) (hs : X.strict)
    (hj : ¬ X.joiners)
    (hpath : TracedPath (Noted X) ⟨Chronicle.init, fun _ => []⟩ (World.init X.setup) acts d w)
    {H : List LogEntry} {T : Int} (hH : Settled d.chron T H)
    (hreads : ∀ k store, w.answer k = some store → d.seen k <+: H)
    (hputs : ∀ (k : Nat) p i t, w.puts[k]? = some p → p.phase = .ok → p.proposed = some (i, t) →
      p.entry X.setup i t ∈ H) :
    Positions (replay X.setup.machine) w.answer (ClientOp.event X.setup w)
      (ClientOp.Precedes X.setup acts) (fun e => e.index.toNat) H w.returned
      (fun k => (d.seen k).length) where
  numbered := by
    intro i e he
    have := h.rel.good.numbered_of_chained (hH.chained h.rel.good.inv) i e he
    omega
  nodup := List.nodup_range.filter _
  answers := by
    intro k hk
    obtain ⟨store, hans⟩ := mem_returned.mp hk
    have hpre := hreads k store hans
    refine ⟨hpre.length_le, ?_⟩
    rw [← List.prefix_iff_eq_take.mp hpre, hans, (h.reads hans).1]
  logged := by
    intro o e ho
    cases o with
    | get k => cases (ClientOp.event_get ho).1
    | put k =>
      obtain ⟨p, i, t, hp, hok, hprop, heq⟩ := ClientOp.event_put ho
      cases heq
      exact hputs k p i t hp hok hprop
  listed := by
    intro o k ho
    cases o with
    | get k' =>
      obtain ⟨heq, hans⟩ := ClientOp.event_get ho
      cases heq
      exact mem_returned.mpr hans
    | put k' =>
      obtain ⟨_, _, _, _, _, _, heq⟩ := ClientOp.event_put ho
      cases heq
  distinct := fun o o' x => h.event_injective
  order := by
    intro o o' x x' hprec hx hx'
    obtain ⟨d₀, v, hcons, hsince, hdone, hnew⟩ := since_of_precedes hv hs hj hpath hprec
    exact position_lt hcons h hsince hs hdone hnew hx hx'

/-- A call that has succeeded did something. -/
theorem Consistent.exists_event (h : Consistent X d w) {o : ClientOp}
    (ho : o.Succeeded w) : ∃ x, o.event X.setup w = some x := by
  cases o with
  | get k =>
    obtain ⟨store, hans⟩ := ho
    exact ⟨.read k, by simp [ClientOp.event, hans]⟩
  | put k =>
    obtain ⟨p, hp, hok⟩ := ho
    obtain ⟨i, t, hprop, _⟩ := (h.puts p (List.mem_of_getElem? hp)).2 hok
    exact ⟨.write (p.entry X.setup i t), by simp [ClientOp.event, hp, hok, hprop]⟩

/-- **Linearizability.** One sequential history of the store explains all client calls of the run.
What it writes is the history that all nodes follow in all states, and a majority of the members
holds it. -/
theorem linearizable (hS : Fixed S members) (hsub : Substantial S) (hlaw : Lawful S.machine)
    (hrun : Run S Orderly (World.init S) acts w) :
    ∃ L, Linearization (replay S.machine) w.answer (ClientOp.event S w)
        (ClientOp.Precedes S acts) L ∧
      (∀ o, ClientOp.Succeeded w o → ∃ x, o.event S w = some x) ∧
      HistoryOf S members acts (writes L) ∧ Held S members (writes L) w (writes L) := by
  have hv : (fixedMode S members True True).Valid :=
    fixedMode_valid hS (fun hc => absurd trivial hc) (fun _ _ => hsub)
  obtain ⟨d, hd, hpath⟩ := StepPath.traced (R := Consistent (fixedMode S members True True))
    (T := Noted (fixedMode S members True True))
    (fun d w act w' hd hok hstep => hd.step hv trivial hlaw
      (admissible_of_noChange hok.1.1 (fun _ _ => hok.1.2.1)) hok.2 hok.1.2.2 hstep)
    hrun (Consistent.init hv)
  obtain ⟨H, T, hH, hhist, hreads, hputs⟩ := hd.exists_log hv trivial hlaw hrun hpath
  have hpos := hd.positions hv trivial (fun hj => hj) hpath hH hreads hputs
  have hwrites : writes (merge _ (fun k => (d.seen k).length) H w.returned) = H :=
    writes_merge hpos.numbered
  refine ⟨_, hpos.linearization, fun o => hd.exists_event, ?_, ?_⟩
  · rw [hwrites]
    exact hhist
  · rw [hwrites]
    exact hd.rel.held hv trivial (fun hj => hj) (hd.rel.history_eq trivial (Extends.refl d.chron)
      hd.rel.good hH hhist (passes_of_run hrun)) hH

/-! A client writes through `n1`, which commits with `n3`; then a read is confirmed by `n3`. -/

def writeThenRead : List Action :=
  [.tick "n1" true, .go "n1" 0, .deliver 0, .reply 0, .go "n1" 1, .deliver 1, .reply 1,
    .startPut "n1" [0x6b] putText, .stepPut 0, .stepPut 0, .go "n1" 1, .deliver 2, .reply 2,
    .stepPut 0] ++ readHere

def writeThenReadWorld : World Kv.Store := after kvSample (World.init kvSample) writeThenRead

theorem orderly_of_tests (w : World σ) (act : Action)
    (h : (calm w act && plain threeNodes w act) = true) : Orderly w act := by
  rw [Bool.and_eq_true] at h
  exact ⟨steady_of_calm w act h.1, writesKept_of_plain h.2⟩

theorem linearizable_sample :
    (writeThenReadWorld.answer 0 = some oneStore ∧
      (ClientOp.put 0).event kvSample writeThenReadWorld =
        some (.write { term := 1, index := 2, command := putText })) ∧
    ∃ L, Linearization (replay (Kv.machine sampleJson)) writeThenReadWorld.answer
        (ClientOp.event kvSample writeThenReadWorld)
        (ClientOp.Precedes kvSample writeThenRead) L ∧
      (∀ o, ClientOp.Succeeded writeThenReadWorld o →
        ∃ x, o.event kvSample writeThenReadWorld = some x) ∧
      HistoryOf kvSample threeNodes writeThenRead (writes L) ∧
      Held kvSample threeNodes (writes L) writeThenReadWorld (writes L) :=
  ⟨by decide +kernel, linearizable kvSample_fixed kvSample_substantial kvSample_lawful
    (run_checked orderly_of_tests (by decide +kernel) (by decide +kernel))⟩

end Cluster
