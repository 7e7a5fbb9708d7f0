import RaftStore.Results.Electing

/-!
# A write can always be completed

From every state in which a majority works, a client's write can be completed. A leader that is able
to replicate to all of the majority accepts the write (`Leading.accepts`). Its loops then bring the
entry to one node of the majority after the other (`Serving.completes`), none of which undoes what
another has achieved (`Kept`). When all have it, it is committed, applied and acknowledged.
-/

namespace Cluster

open Raft Refine Consensus Node

variable {σ : Type} {S : Setup σ} {members : AddrMap} {Q : Finset String} {w v u : World σ}
  {acts : List Action} {c f p : String} {k i : Nat} {b : PutOp} {L T : Int}

/-! ## While the entry is replicated -/

/-- The leader `c` of term `T` holds the entry of the write number `k` at the end of its log. -/
structure Holding (S : Setup σ) (Q : Finset String) (c : String) (k : Nat) (b : PutOp) (L T : Int)
    (v : World σ) : Prop where
  working : Working S Q v
  mem : c ∈ Q
  leader : (v.node c).state = .leader
  term_eq : (v.node c).currentTerm = T
  term_le : ∀ p ∈ Q, (v.node p).currentTerm ≤ T
  last_eq : (v.node c).log.lastLogIndexLocked = L
  own : (v.node c).log.termAtLocked L = some T
  self : L ≤ (v.node c).matchIndex c
  commits : (v.node c).majority ≤ (v.node c).replicas L → L ≤ (v.node c).commitIndex
  put : v.puts[k]? = some b

/-- The leader knows that `p` has the entry. -/
def Has (c : String) (L : Int) (p : String) (v : World σ) : Prop :=
  L ≤ (v.node c).matchIndex p

/-- The loop for `p` has not begun. It will start with the entry before, the first of the term. -/
structure Todo (c : String) (L T : Int) (p : String) (v : World σ) : Prop where
  loop : .replicateTo p ∈ (v.node c).goroutines
  next_eq : (v.node c).next p = L - 1
  first : (v.node c).log.head.index ≤ L - 1 → (v.node c).log.termAtLocked (L - 1) = some T
  old : Outdated T p v

/-- What a loop for `f` keeps for the others. -/
def Kept (c : String) (L T : Int) (f : String) (v u : World σ) : Prop :=
  ∀ p, p ≠ f → (Has c L p v → Has c L p u) ∧ (p ≠ c → Todo c L T p v → Todo c L T p u)

theorem Kept.trans (h : Kept c L T f w v) (h' : Kept c L T f v u) : Kept c L T f w u := fun p hp =>
  ⟨fun hhas => (h' p hp).1 ((h p hp).1 hhas),
    fun hpc htodo => (h' p hp).2 hpc ((h p hp).2 hpc htodo)⟩

/-- **A round for `f` leaves the write and the others alone.** -/
theorem Holding.rounded (h : Holding S Q c k b L T v) (hc : Quorate S members Q) (hne : f ≠ c)
    (hi : (v.node c).goroutines[i]? = some (.replicateTo f))
    (hs : Session (v.node c) (v.node f) f) (hu : Working S Q u) (hr : Rounded v c f i u) :
    Holding S Q c k b L T u ∧ Kept c L T f v u := by
  have hsession : Session (taken (v.node c) i) (v.node f) f := { hs with }
  obtain ⟨hone, hpeer⟩ := hsession.oneRound
  rw [← hr.sender] at hone
  rw [← hr.peer] at hpeer
  have hsound := h.working.sound hc h.mem
  have hsound' := hu.sound hc h.mem
  have hlog : (v.node c).log.Compacted (u.node c).log := hone.log
  have hlast : (u.node c).log.lastLogIndexLocked = L :=
    (hlog.lastLogIndex_eq hsound.contiguous).trans h.last_eq
  have hlen := Log.lastLogIndex_of_contiguous hsound'.contiguous
  have hmatch : ∀ q, q ≠ f → (u.node c).matchIndex q = (v.node c).matchIndex q := hone.match_ne
  constructor
  · refine ⟨hu, h.mem, hone.state_eq.trans h.leader, hone.term_eq.trans h.term_eq, fun p hp => ?_,
      hlast, ?_, ?_, fun hmaj => ?_, ?_⟩
    · by_cases hpc : p = c
      · rw [hpc]
        exact (hone.term_eq.trans h.term_eq).le
      by_cases hpf : p = f
      · rw [hpf]
        exact hpeer.trans h.term_eq.le
      · rw [hr.others p hpc hpf]
        exact h.term_le p hp
    · rw [hlog.termAt_eq (by omega)]
      exact h.own
    · rw [hmatch c hne.symm]
      exact h.self
    · refine hone.commits L ?_ h.last_eq.ge h.commits ?_
      · exact h.own.trans (congrArg some h.term_eq.symm)
      · -- the members are the same before and after the round
        have hids : (u.node c).peerIDs = (v.node c).peerIDs := by
          rw [hsound.peerIDs_eq, hsound'.peerIDs_eq]
        unfold RaftNode.majority RaftNode.replicas at hmaj
        rw [hids] at hmaj
        exact hmaj
    · rw [hr.puts_eq]
      exact h.put
  · intro p hp
    refine ⟨fun hhas => ?_, fun hpc htodo => ⟨?_, ?_, fun hle => ?_, ?_⟩⟩
    · unfold Has
      rw [hmatch p hp]
      exact hhas
    · obtain ⟨g, hg⟩ := hone.goroutines
      rw [hg]
      exact List.mem_append_left _ (mem_eraseIdx_of_ne hi htodo.loop (by simpa using hp))
    · exact (hone.next_ne p hp).trans htodo.next_eq
    · rw [hlog.termAt_eq hle]
      exact htodo.first (hlog.head_le.trans hle)
    · unfold Outdated
      rw [hr.others p hpc hp]
      exact htodo.old

/-! ## The loop for one node -/

/-- The loop for `f` is at its head. -/
structure Serving (S : Setup σ) (Q : Finset String) (c : String) (k : Nat) (b : PutOp) (L T : Int)
    (f : String) (v : World σ) : Prop extends Holding S Q c k b L T v where
  loop : .replicateTo f ∈ (v.node c).goroutines
  led : Led (v.node c) (v.node f) f

/-- The loop for `f` has achieved what it is for. -/
def Served (S : Setup σ) (Q : Finset String) (c : String) (k : Nat) (b : PutOp) (L T : Int)
    (f : String) (v u : World σ) : Prop :=
  Holding S Q c k b L T u ∧ Kept c L T f v u ∧ Has c L f u

/-- **A loop that has not begun is on its way.** The other node has no entry of the leader's term
yet, so its snapshot ends before those. -/
theorem Holding.serving (h : Holding S Q c k b L T v) (hc : Quorate S members Q) (hf : f ∈ Q)
    (htodo : Todo c L T f v) : Serving S Q c k b L T f v := by
  have hsound := h.working.sound hc h.mem
  have hsound' := h.working.sound hc hf
  have hterm : (v.node f).currentTerm ≤ (v.node c).currentTerm := by
    rw [h.term_eq]
    exact h.term_le f hf
  have hagree := h.working.agree hc h.mem hf h.leader hterm
  have hnext := htodo.next_eq
  have hlast := h.last_eq
  have hlen := Log.lastLogIndex_of_contiguous hsound.contiguous
  -- an index of the leader's log from which on all entries are of its term
  have hlate : ∀ j, (v.node c).log.head.index ≤ j → L - 1 ≤ j → j ≤ L →
      (v.node c).log.termAtLocked j = some T := by
    intro j hge hlo hhi
    rcases (show j = L - 1 ∨ j = L by omega) with rfl | rfl
    · exact htodo.first hge
    · exact h.own
  have hearly : (v.node c).log.head.index ≤ (v.node f).log.head.index →
      (v.node f).log.head.index < L - 1 := by
    intro hle
    by_contra hge
    obtain ⟨q, hq, hidx⟩ := Log.exists_position (l := (v.node c).log) hle (hagree hle)
    have heq := hagree hle
    rw [hlate _ hle (not_lt.mp hge) (by omega), Option.some.injEq] at heq
    exact absurd (htodo.old _ _ (termAt_head (v.node f).log)) (by omega)
  refine ⟨h, htodo.loop, ⟨⟨⟨h.leader, hterm, hsound.contiguous, hsound.base_nonneg,
    hsound.positioned h.leader f (hc.subset f hf)⟩, hsound'.base_nonneg, hagree, ?_⟩,
      fun hle => ⟨?_, ?_⟩⟩⟩
  · omega
  · omega
  · refine Or.inr fun heq => ?_
    have hhead := hlate _ le_rfl (by omega) (by omega)
    rw [termAt_head, Option.some.injEq] at hhead
    exact absurd (htodo.old _ _ heq) (by omega)

/-- A round of the loop. -/
theorem Serving.round (h : Serving S Q c k b L T f v) (hc : Quorate S members Q) (hf : f ∈ Q)
    (hne : f ≠ c) : ∃ i, Can S Q v (fun u => Rounded v c f i u ∧ Holding S Q c k b L T u ∧
      Kept c L T f v u) := by
  obtain ⟨i, hi⟩ := List.mem_iff_getElem?.mp h.loop
  have hled : Led (taken (v.node c) i) (v.node f) f := { h.led with }
  have hkeeps : ∀ m req, (taken (v.node c) i).replicateToHead f = (m, some (.install req)) →
      InstallKeeps (v.node f) req := by
    intro m req hhead _ _ hlt
    rcases head_cases hled.leader hled.log hled.base_nonneg hled.next_pos with
      ⟨hle, heq⟩ | ⟨_, req', heq, _⟩
    · rw [heq] at hhead
      cases hhead
      exact (hled.behind hle).2.resolve_left (not_le.mpr hlt)
    · rw [heq] at hhead
      cases hhead
  refine ⟨i, ((rounds h.mem hf hne (h.working.willing c h.mem).up (h.working.willing f hf).up hi
    hkeeps).working h.working).imp ?_⟩
  rintro u ⟨hu, hr⟩
  exact ⟨hr, h.toHolding.rounded hc hne hi h.led.toSession hu hr⟩

/-- The entries fit: this was the last round. -/
theorem Serving.accepted (h : Serving S Q c k b L T f v) (hc : Quorate S members Q) (hf : f ∈ Q)
    (hne : f ≠ c) (hlt : (v.node c).log.head.index < (v.node c).next f)
    (hfit : Attaches (v.node c) (v.node f) f) : Can S Q v (Served S Q c k b L T f v) := by
  obtain ⟨i, hround⟩ := h.round hc hf hne
  refine hround.imp ?_
  rintro u ⟨hr, hu, hkept⟩
  refine ⟨hu, hkept, ?_⟩
  have hled : Led (taken (v.node c) i) (v.node f) f := { h.led with }
  have hconf := confirmed ((taken (v.node c) i).clampNext f) f (v.node c).log.lastLogIndexLocked
  unfold Has
  rw [hr.sender, hled.toSession.accepted hlt hfit]
  exact (hconf.match_eq.trans h.last_eq).ge

/-- The leader sends its snapshot, and again if it has compacted more of its log meanwhile; the log
behind it gets shorter each time. -/
theorem Serving.completes_of_le (h : Serving S Q c k b L T f v) (hc : Quorate S members Q)
    (hf : f ∈ Q)
    (hne : f ≠ c) (hle : (v.node c).next f ≤ (v.node c).log.head.index) :
    Can S Q v (Served S Q c k b L T f v) := by
  induction hm : (L - (v.node c).log.head.index).toNat
    using Nat.strong_induction_on generalizing v with
  | _ m ih =>
    obtain ⟨i, hround⟩ := h.round hc hf hne
    refine hround.bind ?_
    rintro u ⟨hr, hu, hkept⟩
    have hled : Led (taken (v.node c) i) (v.node f) f := { h.led with }
    obtain ⟨l', f', heq, hconf, hled', hidx⟩ := hled.sent hle
    have hl' : l' = u.node c := by rw [hr.sender, heq]
    have hf' : f' = u.node f := by rw [hr.peer, heq]
    rw [hl'] at hconf hled'
    rw [hf'] at hled' hidx
    have hmove : (v.node c).log.head.index ≤ (u.node c).log.head.index := hconf.log.head_le
    have hmatch : (u.node c).matchIndex f = (v.node c).log.head.index := hconf.match_eq
    have hnext : (u.node c).next f = (v.node c).log.head.index + 1 := hconf.next_eq
    have hat : (u.node f).log.head.index = (v.node c).log.head.index := hidx
    have hlen := Log.lastLogIndex_of_contiguous (hu.working.sound hc hu.mem).contiguous
    have hlast := hu.last_eq
    by_cases hend : L ≤ (v.node c).log.head.index
    · exact Leads.here ⟨hu, hkept, by unfold Has; omega⟩
    have hgo : Goroutine.replicateTo f ∈ (u.node c).goroutines := by
      have hlonger : (u.node c).log.lastLogIndexLocked > (taken (v.node c) i).log.head.index := by
        show (u.node c).log.lastLogIndexLocked > (v.node c).log.head.index
        omega
      rw [hconf.goroutines_eq, if_pos hlonger]
      exact List.mem_append_right _ List.mem_cons_self
    have hserving : Serving S Q c k b L T f u := ⟨hu, hgo, hled'⟩
    have hdone : Can S Q u (Served S Q c k b L T f u) := by
      rcases hmove.eq_or_lt with hsame | hmoved
      · -- the peer stands at the leader's snapshot
        refine hserving.accepted hc hf hne (by omega) (hled'.attaches (by omega) ?_)
        unfold RaftNode.startIndex
        omega
      · exact ih _ (by omega) hserving (by omega) rfl
    exact hdone.imp (fun _ ht => ⟨ht.1, hkept.trans ht.2.1, ht.2.2⟩)

/-- **The loop for one node achieves its end.** Every refusal moves the start back, until the
entries fit or the leader's snapshot is next. -/
theorem Serving.completes (h : Serving S Q c k b L T f v) (hc : Quorate S members Q) (hf : f ∈ Q)
    (hne : f ≠ c) : Can S Q v (Served S Q c k b L T f v) := by
  induction hm : ((v.node c).startIndex f - (v.node c).log.head.index).toNat
    using Nat.strong_induction_on generalizing v with
  | _ m ih =>
    rcases le_or_gt ((v.node c).next f) (v.node c).log.head.index with hle | hlt
    · exact h.completes_of_le hc hf hne hle
    by_cases hfit : Attaches (v.node c) (v.node f) f
    · exact h.accepted hc hf hne hlt hfit
    obtain ⟨i, hround⟩ := h.round hc hf hne
    refine hround.bind ?_
    rintro u ⟨hr, hu, hkept⟩
    have hled : Led (taken (v.node c) i) (v.node f) f := { h.led with }
    obtain ⟨l', f', heq, hled', hlog, hgo, hmoved⟩ := hled.refused hlt hfit
    have hl' : l' = u.node c := by rw [hr.sender, heq]
    have hf' : f' = u.node f := by rw [hr.peer, heq]
    rw [hl'] at hled' hlog hgo hmoved
    rw [hf'] at hled'
    have hlog' : (u.node c).log = (v.node c).log := hlog
    have hserving : Serving S Q c k b L T f u :=
      ⟨hu, by rw [hgo]; exact List.mem_append_right _ List.mem_cons_self, hled'⟩
    have hdone : Can S Q u (Served S Q c k b L T f u) := by
      rcases hmoved with hle | hback
      · exact hserving.completes_of_le hc hf hne (by rw [hlog']; exact hle)
      · have hstart : (u.node c).next f = (v.node c).startIndex f - 1 := hback
        have hlen := Log.lastLogIndex_of_contiguous h.led.log
        refine ih _ ?_ hserving rfl
        rw [← hm, hlog']
        unfold RaftNode.startIndex at hstart ⊢
        rw [hlog']
        omega
    exact hdone.imp (fun _ ht => ⟨ht.1, hkept.trans ht.2.1, ht.2.2⟩)

/-! ## All of the majority -/

/-- Every node of the majority has the entry, or its loop has not begun. -/
structure Writing (S : Setup σ) (Q : Finset String) (c : String) (k : Nat) (b : PutOp) (L T : Int)
    (v : World σ) : Prop extends Holding S Q c k b L T v where
  peers : ∀ p ∈ Q, p ≠ c → Has c L p v ∨ Todo c L T p v

theorem Writing.one (h : Writing S Q c k b L T v) (hc : Quorate S members Q) (hf : f ∈ Q)
    (hne : f ≠ c) :
    Can S Q v (fun u => Writing S Q c k b L T u ∧ Has c L f u ∧ ∀ p, Has c L p v →
      Has c L p u) := by
  rcases h.peers f hf hne with hhas | htodo
  · exact Leads.here ⟨h, hhas, fun _ hp => hp⟩
  refine ((h.toHolding.serving hc hf htodo).completes hc hf hne).imp ?_
  rintro u ⟨hu, hkept, hhas⟩
  refine ⟨⟨hu, fun p hp hpc => ?_⟩, hhas, fun p hp => ?_⟩
  · by_cases hpf : p = f
    · rw [hpf]
      exact Or.inl hhas
    · exact (h.peers p hp hpc).imp (hkept p hpf).1 ((hkept p hpf).2 hpc)
  · by_cases hpf : p = f
    · rw [hpf]
      exact hhas
    · exact (hkept p hpf).1 hp

/-- An entry that all of the majority have is committed and applied. -/
theorem Holding.applied (h : Holding S Q c k b L T v) (hc : Quorate S members Q)
    (hall : ∀ p ∈ Q, Has c L p v) : L ≤ (v.node c).lastApplied := by
  have hsound := h.working.sound hc h.mem
  have hmany : (v.node c).majority ≤ (v.node c).replicas L := by
    have hsub : Q ⊆
        ((v.node c).peerIDs.filter (fun p => decide (L ≤ (v.node c).matchIndex p))).toFinset := by
      intro p hp
      rw [List.mem_toFinset, List.mem_filter, hsound.peerIDs_eq]
      exact ⟨hc.subset p hp, decide_eq_true (hall p hp)⟩
    have hcard := (Finset.card_le_card hsub).trans (List.toFinset_card_le _)
    have hmaj := hc.majority
    unfold RaftNode.majority RaftNode.replicas
    rw [List.countP_eq_length_filter]
    rw [hsound.peerIDs_eq] at hcard ⊢
    omega
  have hcommit := h.commits hmany
  have hlevel := hsound.level
  unfold Level at hlevel
  omega

/-- The write is acknowledged. -/
theorem Writing.finishes (h : Writing S Q c k b L T v) (hc : Quorate S members Q) (hb : b.node = c)
    (hphase : b.phase = .waitApplied L) : Can S Q v (fun u => Working S Q u ∧
      u.puts[k]? = some { b with phase := .ok }) := by
  have hone : ∀ f ∈ (Q.erase c).toList, ∀ u, Writing S Q c k b L T u →
      Can S Q u (fun t => Writing S Q c k b L T t ∧ Has c L f t ∧ ∀ p, Has c L p u →
        Has c L p t) := by
    intro f hf u hu
    obtain ⟨hne, hf⟩ := Finset.mem_erase.mp (Finset.mem_toList.mp hf)
    exact hu.one hc hf hne
  refine (Leads.each _ hone h).bind ?_
  rintro u ⟨hu, _, hall⟩
  have happ : L ≤ (u.node c).lastApplied := by
    refine hu.toHolding.applied hc fun p hp => ?_
    by_cases hpc : p = c
    · rw [hpc]
      exact hu.self
    · exact hall p (Finset.mem_toList.mpr (Finset.mem_erase.mpr ⟨hpc, hp⟩))
  have hstep : step S u (.stepPut k) = some (u.setPut k { b with phase := .ok }) := by
    have hup := (hu.working.willing c hu.mem).up
    simp [step, hu.put, hb, hup, World.runPut, hphase, RaftNode.waitAppliedPoll, happ]
  have hok : Smooth Q u (.stepPut k) := smooth_stepPut hu.put (by rw [hb]; exact hu.mem)
  refine Leads.cons hok hstep (Leads.here ⟨hu.working.step hok hstep, ?_⟩)
  have hlt := (List.getElem?_eq_some_iff.mp hu.put).1
  simp [World.setPut, hlt]

/-! ## The client's request -/

/-- The request once the leader has accepted it. -/
def acceptedPut (c : String) (key body : Bytes) (L T : Int) : PutOp :=
  { node := c, key := key, value := Http.readBody body, proposed := some (L, T)
    phase := .waitApplied L }

/-- The leader has accepted the request, and is `n` now. -/
structure Submitted (S : Setup σ) (Q : Finset String) (c : String) (b : PutOp) (n : RaftNode σ)
    (v u : World σ) : Prop where
  working : Working S Q u
  node : u.node c = n
  others : ∀ p, p ≠ c → u.node p = v.node p
  put : u.puts[v.puts.length]? = some b

/-- The request arrives, finds the leader, and is proposed. -/
theorem submits {n : RaftNode σ} {key : Bytes} (hw : Working S Q v) (hcQ : c ∈ Q)
    (hlead : (v.node c).state = .leader) (hkey : key ≠ []) (body : Bytes)
    (hprop : (v.node c).propose (S.encode key (Http.readBody body)) = (n, .ok (L, T))) :
    Can S Q v (Submitted S Q c (acceptedPut c key body L T) n v) := by
  have hup := (hw.willing c hcQ).up
  let b₀ : PutOp := { node := c, key := key, value := Http.readBody body }
  let v₁ : World σ := { v with puts := v.puts ++ [b₀] }
  let v₂ : World σ := v₁.setPut v.puts.length { b₀ with phase := .propose }
  let v₃ : World σ := (v₂.setNode c n).setPut v.puts.length (acceptedPut c key body L T)
  have hput₁ : v₁.puts[v.puts.length]? = some b₀ := by simp [v₁]
  have hput₂ : v₂.puts[v.puts.length]? = some { b₀ with phase := .propose } := by
    simp [v₂, v₁, World.setPut]
  have hstart : step S v (.startPut c key body) = some v₁ := by
    simp [step, hup, v₁, b₀]
  have hcheck : step S v₁ (.stepPut v.puts.length) = some v₂ := by
    have hup₁ : v₁.up c = true := hup
    have hlead₁ : (v₁.node c).state = .leader := hlead
    simp [step, hput₁, World.runPut, b₀, hup₁, hlead₁, hkey, v₂]
  have hpropose : step S v₂ (.stepPut v.puts.length) = some v₃ := by
    have hup₂ : v₂.up c = true := hup
    have hsame : v₂.node c = v.node c := rfl
    simp [step, hput₂, World.runPut, b₀, hup₂, hsame, hprop, v₃, acceptedPut]
  have hok₁ : Smooth Q v (.startPut c key body) :=
    ⟨rfl, trivial, by simp [touched], fun _ _ h => h.elim⟩
  have hok₂ : Smooth Q v₁ (.stepPut v.puts.length) := smooth_stepPut hput₁ hcQ
  have hok₃ : Smooth Q v₂ (.stepPut v.puts.length) := smooth_stepPut hput₂ hcQ
  refine Leads.cons hok₁ hstart (Leads.cons hok₂ hcheck (Leads.cons hok₃ hpropose (Leads.here ?_)))
  refine ⟨((hw.step hok₁ hstart).step hok₂ hcheck).step hok₃ hpropose, ?_, fun p hp => ?_, ?_⟩
  · simp [v₃, World.setPut, World.setNode]
  · simp [v₃, v₂, v₁, World.setPut, World.setNode, hp]
  · simp [v₃, v₂, v₁, World.setPut, World.setNode]

/-- **A leader that is able to replicate accepts a write.** -/
theorem Leading.accepts (h : Leading S Q c v) (hc : Quorate S members Q) {key : Bytes}
    (hkey : key ≠ [])
    (body : Bytes) : Can S Q v (fun u => ∃ L T,
      Writing S Q c v.puts.length (acceptedPut c key body L T) L T u) := by
  have hsound := h.working.sound hc h.mem
  obtain ⟨n, hprop, hn⟩ := proposed h.leader (h.working.willing c h.mem).running
    (S.encode key (Http.readBody body))
  obtain ⟨e, hidx, hterm, hlog⟩ := hn.log
  obtain ⟨hlast, hown⟩ := newest hsound.contiguous hidx hlog
  refine (submits h.working h.mem h.leader hkey body hprop).imp ?_
  rintro u ⟨hwork, hnode, hother, hput⟩
  refine ⟨(v.node c).log.lastLogIndexLocked + 1, (v.node c).currentTerm, ?_⟩
  have hids : (v.node c).peerIDs = n.peerIDs := by
    rw [hsound.peerIDs_eq, ← hnode, (hwork.sound hc h.mem).peerIDs_eq]
  refine ⟨⟨hwork, h.mem, ?_, ?_, fun p hp => ?_, ?_, ?_, ?_, fun hmaj => ?_, hput⟩,
    fun p hp hpc => Or.inr ⟨?_, ?_, fun hle => ?_, ?_⟩⟩
  · rw [hnode, hn.state_eq]
    exact h.leader
  · rw [hnode]
    exact hn.term_eq
  · by_cases hpc : p = c
    · rw [hpc, hnode]
      exact hn.term_eq.le
    · rw [hother p hpc]
      exact h.term_le p hp
  · rw [hnode]
    exact hlast
  · rw [hnode, hown, hterm]
  · rw [hnode]
    exact (hsound.id_eq ▸ hn.match_self).ge
  · -- a leader that is a majority by itself has committed the entry
    rw [hnode] at hmaj ⊢
    refine hn.commits hsound.contiguous ?_
    unfold RaftNode.majority RaftNode.replicas at *
    rw [hids]
    exact hmaj
  · rw [hnode]
    exact hn.mem _ (h.loops p hp hpc)
  · rw [hnode, hn.next_ne p (by rw [hsound.id_eq]; exact hpc), (h.next_eq p hp hpc).1]
    omega
  · -- the entry before is the one with which the leader began its term
    rw [hnode] at hle ⊢
    rw [termAt_older hsound.contiguous hlog (by omega) hle]
    have hbefore : (v.node c).log.lastLogIndexLocked + 1 - 1 =
        (v.node c).log.lastLogIndexLocked := by
      omega
    rw [hbefore]
    exact (h.next_eq p hp hpc).2
  · unfold Outdated
    rw [hother p hpc]
    exact h.old p hp hpc

/-! ## The results -/

/-- The number of requests only grows. -/
theorem puts_length_le {act : Action} (hstep : step S w act = some v) :
    w.puts.length ≤ v.puts.length := by
  cases hlen : w.puts.length with
  | zero => exact Nat.zero_le _
  | succ m =>
    have hm : m < w.puts.length := by omega
    obtain ⟨p', hp', _⟩ := (puts_step hstep).old (List.getElem?_eq_getElem hm)
    exact (List.getElem?_eq_some_iff.mp hp').1

/-- **A leader can always be elected.** From every state in which a majority works, its nodes can
get to a state in which one of them leads, no node of the majority is in a later term, and the loops
to all others are ready. -/
theorem leader_always_possible (hc : Quorate S members Q)
    (hrun : Run S (fun w act => NoChange w act ∧ KeepsLogs w act) (World.init S) acts w)
    (hwill : ∀ q ∈ Q, Willing w q) :
    ∃ acts' v, Run S (Smooth Q) w acts' v ∧ ∃ c ∈ Q, (v.node c).state = .leader ∧
      (∀ p ∈ Q, (v.node p).currentTerm ≤ (v.node c).currentTerm) ∧
      ∀ p ∈ Q, p ≠ c → .replicateTo p ∈ (v.node c).goroutines := by
  have hw : Working S Q w := ⟨⟨acts, hrun⟩, hwill⟩
  obtain ⟨acts', v, hpath, c, hlead⟩ := leads hw hc
  exact ⟨acts', v, hpath, c, hlead.mem, hlead.leader, hlead.term_le, hlead.loops⟩

/-! The leader has crashed after its first commit; the two others are a majority. -/

def orphaned : World Unit := after sample sampleWorld [.crash "n1"]

theorem orphaned_run :
    Run sample (fun w act => NoChange w act ∧ KeepsLogs w act) (World.init sample)
    (firstCommit ++ [.crash "n1"]) orphaned :=
  run_checked (fun _ _ hg => ⟨noChange_of_calm hg, keepsLogs_of_calm hg⟩) (g := calm)
    (by decide +kernel) (by decide +kernel)

theorem orphaned_quorate : Quorate sample threeNodes {"n2", "n3"} :=
  ⟨sample_fixed, openSample_substantial, by decide, by decide⟩

theorem orphaned_willing : ∀ q ∈ ({"n2", "n3"} : Finset String), Willing orphaned q := by
  intro q hq
  rcases Finset.mem_insert.mp hq with rfl | hq
  · exact ⟨by decide +kernel, by decide +kernel, by decide +kernel⟩
  · rw [Finset.mem_singleton.mp hq]
    exact ⟨by decide +kernel, by decide +kernel, by decide +kernel⟩

theorem leader_always_possible_sample : (orphaned.node "n2").state = .follower ∧
    ∃ acts' v, Run sample (Smooth {"n2", "n3"}) orphaned acts' v ∧
      ∃ c ∈ ({"n2", "n3"} : Finset String), (v.node c).state = .leader ∧
        (∀ p ∈ ({"n2", "n3"} : Finset String), (v.node p).currentTerm ≤ (v.node c).currentTerm) ∧
        ∀ p ∈ ({"n2", "n3"} : Finset String), p ≠ c → .replicateTo p ∈ (v.node c).goroutines :=
  ⟨by decide +kernel, leader_always_possible orphaned_quorate orphaned_run orphaned_willing⟩

/-- **A write can always be completed.** From every state in which a majority works, its nodes can
get to a state in which a new request for the key and the value has been acknowledged. -/
theorem write_always_possible (hc : Quorate S members Q)
    (hrun : Run S (fun w act => NoChange w act ∧ KeepsLogs w act) (World.init S) acts w)
    (hwill : ∀ q ∈ Q, Willing w q) {key : Bytes} (hkey : key ≠ []) (body : Bytes) :
    ∃ acts' v, Run S (Smooth Q) w acts' v ∧ ∃ c ∈ Q, ∃ k b, w.puts.length ≤ k ∧
      v.puts[k]? = some b ∧ b.node = c ∧ b.key = key ∧ b.value = Http.readBody body ∧
      b.phase = .ok := by
  have hw : Working S Q w := ⟨⟨acts, hrun⟩, hwill⟩
  have hnew : Can S Q w (fun v => w.puts.length ≤ v.puts.length ∧ ∃ c, Leading S Q c v) :=
    (leads hw hc).keeping (fun _ _ _ hle _ hstep => hle.trans (puts_length_le hstep)) le_rfl
  have hdone : Can S Q w (fun v => ∃ c ∈ Q, ∃ k b, w.puts.length ≤ k ∧ v.puts[k]? = some b ∧
      b.node = c ∧ b.key = key ∧ b.value = Http.readBody body ∧ b.phase = .ok) := by
    refine hnew.bind ?_
    rintro v ⟨hle, c, hlead⟩
    refine (hlead.accepts hc hkey body).bind ?_
    rintro u ⟨L, T, hwriting⟩
    refine (hwriting.finishes hc rfl rfl).imp ?_
    rintro t ⟨_, hput⟩
    exact ⟨c, hlead.mem, _, _, hle, hput, rfl, rfl, rfl, rfl⟩
  exact hdone

theorem write_always_possible_sample : orphaned.puts.length = 0 ∧
    ∃ acts' v, Run sample (Smooth {"n2", "n3"}) orphaned acts' v ∧
      ∃ c ∈ ({"n2", "n3"} : Finset String), ∃ k b, orphaned.puts.length ≤ k ∧
        v.puts[k]? = some b ∧ b.node = c ∧
        b.key = [107] ∧ b.value = Http.readBody [118] ∧ b.phase = .ok :=
  ⟨by decide +kernel,
    write_always_possible orphaned_quorate orphaned_run orphaned_willing (by decide) [118]⟩

end Cluster
