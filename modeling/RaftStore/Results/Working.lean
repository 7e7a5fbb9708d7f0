import RaftStore.Results.Applying
import RaftStore.Results.CatchUp
import RaftStore.Results.Replicating

/-!
# A majority that works

The setting of the results about progress: a cluster with fixed members (`Quorate`), a state that it
has reached, and a majority `Q` of members that are up, were not stopped and have joined
(`Working`). Whether the others are up does not matter.

From there on nodes of `Q` tick and send, deliver and answer RPCs to each other, and clients send
writes (`Smooth`); nothing crashes. Such steps keep a majority working (`Working.step`), and in a
state in which it works, the nodes of `Q` have all that the results about runs say of them.
-/

namespace Cluster

open Raft Refine Consensus Node

variable {σ : Type} {S : Setup σ} {members : AddrMap} {Q : Finset String} {w w' : World σ}
  {act : Action} {q p : String}

/-- A cluster with fixed members, whose snapshots are not empty, and a majority of the members. -/
structure Quorate (S : Setup σ) (members : AddrMap) (Q : Finset String) : Prop where
  fixed : Fixed S members
  substantial : Substantial S
  subset : ∀ q ∈ Q, q ∈ members.keys
  majority : members.keys.length < 2 * Q.card

/-- The process runs, and takes part. -/
structure Willing (w : World σ) (q : String) : Prop where
  up : w.up q = true
  running : (w.node q).stopped = false
  joined : (w.node q).joining = false

/-- A state that the cluster can reach, in which all of `Q` take part. -/
structure Working (S : Setup σ) (Q : Finset String) (w : World σ) : Prop where
  reached : ∃ acts, Run S (fun w act => NoChange w act ∧ KeepsLogs w act) (World.init S) acts w
  willing : ∀ q ∈ Q, Willing w q

/-- What nodes do when nothing fails. -/
def Action.ordinary : Action → Bool
  | .tick _ _ | .go _ _ | .deliver _ | .reply _ | .giveUp _ | .startPut _ _ _ | .stepPut _ => true
  | _ => false

/-- The action hands over the request or the reply of call `k`. -/
def Action.carries : Action → Nat → Prop
  | .deliver k, k' | .reply k, k' => k = k'
  | _, _ => False

/-- A step of nodes of `Q` among themselves in which nothing fails: other nodes take no step, and no
message from or to another node arrives. -/
structure Smooth (Q : Finset String) (w : World σ) (act : Action) : Prop where
  ordinary : act.ordinary = true
  keeps : KeepsLogs w act
  within : ∀ j, touched w act = some j → j ∈ Q
  among : ∀ k c, act.carries k → w.calls[k]? = some c → c.src ∈ Q ∧ c.dst ∈ Q

/-! ## Steps -/

theorem ofProcess_of_ordinary (h : act.ordinary = true) : act.ofProcess = false := by
  cases act with
  | crash | crashDuring | restart => cases h
  | _ => rfl

theorem noChange_of_ordinary (h : act.ordinary = true) : NoChange w act := by
  cases act with
  | addServer | removeServer | crashDuring => cases h
  | _ => trivial

theorem Willing.step (h : Willing w q) (hok : act.ordinary = true)
    (hstep : step S w act = some w') :
    Willing w' q := by
  have hproc := ofProcess_of_ordinary hok
  have hstop : act ≠ .stop q := by rintro rfl; cases hok
  have hflags : FlagsKept (w.node q) (w'.node q) := flags_step hstep hproc hstop
  refine ⟨?_, hflags.stopped_eq.trans h.running, hflags.joined h.joined⟩
  rw [(heard_step hstep hproc).up_eq]
  exact h.up

/-- **Smooth steps keep the majority working.** -/
theorem Working.step (h : Working S Q w) (hok : Smooth Q w act) (hstep : step S w act = some w') :
    Working S Q w' := by
  obtain ⟨acts, hrun⟩ := h.reached
  refine ⟨⟨acts ++ [act], ?_⟩, fun q hq => (h.willing q hq).step hok.ordinary hstep⟩
  exact hrun.append (.cons ⟨noChange_of_ordinary hok.ordinary, hok.keeps⟩ hstep (.nil _))

theorem smooth_tick (hq : q ∈ Q) (due : Bool) : Smooth Q w (.tick q due) :=
  ⟨rfl, trivial, fun _ hj => Option.some.inj hj ▸ hq, fun _ _ h => h.elim⟩

theorem smooth_go (hq : q ∈ Q) (k : Nat) : Smooth Q w (.go q k) :=
  ⟨rfl, trivial, fun _ hj => Option.some.inj hj ▸ hq, fun _ _ h => h.elim⟩

theorem smooth_reply {k : Nat} {c : Call} (hk : w.calls[k]? = some c) (hq : c.src ∈ Q)
    (hq' : c.dst ∈ Q) : Smooth Q w (.reply k) := by
  refine ⟨rfl, trivial, fun j hj => ?_, fun k' c' hcarries hk' => ?_⟩
  · simp only [touched, hk, Option.map_some, Option.some.injEq] at hj
    exact hj ▸ hq
  · obtain rfl : k = k' := hcarries
    obtain rfl : c = c' := Option.some.inj (hk.symm.trans hk')
    exact ⟨hq, hq'⟩

theorem smooth_stepPut {k : Nat} {b : PutOp} (hk : w.puts[k]? = some b) (hb : b.node ∈ Q) :
    Smooth Q w (.stepPut k) := by
  refine ⟨rfl, trivial, fun j hj => ?_, fun _ _ h => h.elim⟩
  simp only [touched, hk, Option.map_some, Option.some.injEq] at hj
  exact hj ▸ hb

/-- A delivery is smooth if a snapshot that it brings keeps the receiver's log. -/
theorem smooth_deliver {k : Nat} {c : Call} (hk : w.calls[k]? = some c) (hq : c.src ∈ Q)
    (hq' : c.dst ∈ Q)
    (hkeeps : ∀ req resp, c.rpc = .installSnapshot req resp → InstallKeeps (w.node c.dst) req) :
    Smooth Q w (.deliver k) := by
  refine ⟨rfl, fun c' req resp hk' hrpc => ?_, fun j hj => ?_, fun k' c' hcarries hk' => ?_⟩
  · obtain rfl : c = c' := Option.some.inj (hk.symm.trans hk')
    exact hkeeps req resp hrpc
  · simp only [touched, hk, Option.map_some, Option.some.injEq] at hj
    exact hj ▸ hq'
  · obtain rfl : k = k' := hcarries
    obtain rfl : c = c' := Option.some.inj (hk.symm.trans hk')
    exact ⟨hq, hq'⟩

/-- The steps of a leader for its loops are smooth. -/
theorem smooth_of_forLoops (hq : q ∈ Q) (h : ForLoops q w act) : Smooth Q w act := by
  cases act with
  | go j k =>
    obtain rfl : j = q := h
    exact smooth_go hq k
  | tick j due =>
    obtain rfl : j = q := h
    exact smooth_tick hq due
  | giveUp k =>
    obtain ⟨c, hk, rfl⟩ := h
    refine ⟨rfl, trivial, fun j hj => ?_, fun _ _ h => h.elim⟩
    simp only [touched, hk, Option.map_some, Option.some.injEq] at hj
    exact hj ▸ hq
  | _ => exact h.elim

/-- Some smooth steps lead to a state with `P`, in which the majority works. -/
abbrev Can (S : Setup σ) (Q : Finset String) (w : World σ) (P : World σ → Prop) : Prop :=
  Leads (step S) (Smooth Q) w P

theorem Can.working {P : World σ → Prop} (h : Can S Q w P) (hw : Working S Q w) :
    Can S Q w (fun v => Working S Q v ∧ P v) :=
  h.keeping (fun _ _ _ hw hok hstep => hw.step hok hstep) hw

/-! ## What is known of a node -/

/-- The chronicle of the run. -/
theorem Working.rel (h : Working S Q w) (hc : Quorate S members Q) :
    ∃ a, WorldRel (fixedMode S members True True) a w := by
  obtain ⟨acts, hrun⟩ := h.reached
  exact compacted_rel hc.fixed hc.substantial hrun

/-- A node of the majority, as the results about runs describe it. -/
structure Sound (members : AddrMap) (w : World σ) (q : String) : Prop where
  id_eq : (w.node q).id = q
  peerIDs_eq : (w.node q).peerIDs = members.keys
  voter : (w.node q).isVoterLocked = true
  contiguous : (w.node q).log.Contiguous
  base_nonneg : 0 ≤ (w.node q).log.head.index
  terms : ∀ i t, (w.node q).log.termAtLocked i = some t → t ≤ (w.node q).currentTerm
  inOrder : InOrder (w.node q)
  level : Level (w.node q)
  equipped : Equipped w q
  positioned : Positioned members.keys (w.node q)

theorem Working.sound (h : Working S Q w) (hc : Quorate S members Q) (hq : q ∈ Q) :
    Sound members w q := by
  have hup := (h.willing q hq).up
  obtain ⟨acts, hrun⟩ := h.reached
  obtain ⟨a, hrel⟩ := h.rel hc
  have hnode := hrel.node_rel hup
  obtain ⟨b, hst⟩ := hnode.stored
  have hids : (w.node q).peerIDs = members.keys :=
    hnode.toLive.peerIDs_members hrel.good (fun hf => hf)
  have hprep := prepared_of_run hc.fixed (hrun.mono (fun _ _ hok => hok.1))
  have habreast : Abreast (fixedMode S members True True) w := by
    have hv : (fixedMode S members True True).Valid :=
      fixedMode_valid hc.fixed (fun hoff => absurd trivial hoff) (fun _ _ => hc.substantial)
    have hok : ∀ (v : World σ) (act : Action), NoChange v act ∧ KeepsLogs v act →
        Admissible (fixedMode S members True True) v act :=
      fun v act hn => admissible_of_noChange hn.1 (fun _ _ => hn.2)
    exact StepPath.invariant (fun _ _ _ h hadm hstep => h.step trivial hv hadm hstep)
      (hrun.mono hok) (abreast_init hv)
  refine ⟨hnode.id_eq, hids, ?_, hnode.toLive.contiguous hrel.good, ?_, ?_,
    inOrder_of_rel hrel trivial hup, habreast.level q hup, equipped_run hrun hup,
    hprep.positioned q hup⟩
  · have hmem : q ∈ (w.node q).peerAddrs.keys := by
      rw [← hnode.peerIDs_eq, hids]
      exact hc.subset q hq
    unfold RaftNode.isVoterLocked
    rw [hnode.id_eq]
    exact (OrdMap.get?_isSome_iff _ _).mpr hmem
  · rw [hst.log_eq]
    show (0 : Int) ≤ (b : Int)
    omega
  · -- an entry of the log, or the dummy, which has the term of the entry it replaced
    intro i t ht
    rw [hst.log_eq] at ht
    obtain ⟨j, rfl, hbj, hlen⟩ := termAt_render_some ht
    have hj : j ≤ (a.log q).length := by
      rcases hbj.lt_or_eq with hlt | rfl
      · exact hlen hlt
      · exact hst.base_le
    rw [termAt_render hbj hj, Option.some.injEq] at ht
    rw [← ht, ← hst.term_eq]
    unfold endTerm
    cases hlast : ((a.log q).take j).getLast? with
    | none => exact hrel.good.inv.ballots.term_nonneg q
    | some e =>
      exact hrel.good.inv.logs.log_le (List.mem_of_mem_take (List.mem_of_getLast? hlast))

/-- Two nodes of the majority do not lead in one term. -/
theorem Working.one_leader (h : Working S Q w) (hc : Quorate S members Q) (hp : p ∈ Q) (hq : q ∈ Q)
    (hlp : (w.node p).state = .leader) (hlq : (w.node q).state = .leader)
    (hterm : (w.node p).currentTerm = (w.node q).currentTerm) : p = q := by
  obtain ⟨a, hrel⟩ := h.rel hc
  obtain ⟨R, hwon⟩ := (hrel.leader (h.willing p hp).up hlp).1
  obtain ⟨R', hwon'⟩ := (hrel.leader (h.willing q hq).up hlq).1
  rw [hterm] at hwon
  exact (hrel.good.inv.ballots.won_unique hwon hwon').1

/-- The leader holds what a node of the majority has compacted. -/
theorem Working.agree (h : Working S Q w) (hc : Quorate S members Q) (hq : q ∈ Q) (hp : p ∈ Q)
    (hlead : (w.node q).state = .leader)
    (hterm : (w.node p).currentTerm ≤ (w.node q).currentTerm)
    (hle : (w.node q).log.head.index ≤ (w.node p).log.head.index) :
    (w.node q).log.termAtLocked (w.node p).log.head.index = some (w.node p).log.head.term := by
  obtain ⟨acts, hrun⟩ := h.reached
  exact compacted_agreement hc.fixed hc.substantial hrun (h.willing q hq).up
    (h.willing p hp).up hlead
    hterm hle

end Cluster
