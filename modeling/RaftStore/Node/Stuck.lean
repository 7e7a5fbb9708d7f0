import RaftStore.Node.Round
import RaftStore.Node.Phases

/-!
# Rounds that lead nowhere

A peer that has compacted more of its log than the leader, or other entries, can refuse every
request of the leader and ignore every snapshot (`Barred`). A refusal moves the next index back
(`Barred.refused`). A snapshot that is ignored counts as received (`Barred.sent`), and that may make
the leader commit, apply and compact, which is the only way out. But it happens once: after it,
nothing of the kind is left to do (`Spent`, `spent_matched`), and counting the snapshot again
changes nothing (`Spent.matched`). So a leader which has still something to send then is `Stuck`,
and stays so (`Stuck.round`).
-/

namespace Node

open Raft Cluster RaftNode

variable {σ : Type} {l f n m : RaftNode σ} {peer : String} {i : Int}

/-! ## What does not matter for a confirmation -/

/-- The two nodes differ in next indexes and goroutines at most. -/
def Retimed (n m : RaftNode σ) : Prop := ∃ nx g, m = { n with nextIndex := nx, goroutines := g }

theorem Retimed.refl (n : RaftNode σ) : Retimed n n := ⟨_, _, rfl⟩

theorem Retimed.trans {k : RaftNode σ} (h : Retimed n m) (h' : Retimed m k) : Retimed n k := by
  obtain ⟨_, _, rfl⟩ := h
  obtain ⟨_, _, rfl⟩ := h'
  exact ⟨_, _, rfl⟩

theorem Retimed.advanceCommit (h : Retimed n m) :
    Retimed n.advanceCommitLocked m.advanceCommitLocked := by
  obtain ⟨nx, g, rfl⟩ := h
  have hloop : ∀ k idx, Retimed (advanceLoop n k idx)
      (advanceLoop { n with nextIndex := nx, goroutines := g } k idx) := by
    intro k
    induction k with
    | zero => exact fun _ => ⟨nx, g, rfl⟩
    | succ k ih =>
      intro idx
      unfold advanceLoop
      exact rel_ite Iff.rfl
        (fun _ => rel_ite Iff.rfl (fun _ => ⟨nx, g, rfl⟩) (fun _ => ih (idx - 1)))
        (fun _ => ⟨nx, g, rfl⟩)
  exact hloop _ _

theorem Retimed.applyNext (h : Retimed n m) (next : Int) (e : LogEntry) :
    Retimed (n.applyNext next e) (m.applyNext next e) := by
  obtain ⟨nx, g, rfl⟩ := h
  refine ⟨nx, g, ?_⟩
  unfold RaftNode.applyNext
  dsimp only
  split
  · rfl
  · rfl

theorem Retimed.applyLoop (h : Retimed n m) (k : Nat) :
    Retimed (applyLoop k n) (applyLoop k m) := by
  induction k generalizing n m with
  | zero => exact h
  | succ k ih =>
    have hnext := fun e => ih (h.applyNext (n.lastApplied + 1) e)
    obtain ⟨nx, g, rfl⟩ := h
    unfold RaftNode.applyLoop
    dsimp only
    split
    · split
      · exact ⟨nx, g, rfl⟩
      · exact hnext _
    · exact ⟨nx, g, rfl⟩

theorem Retimed.maybeCompact (h : Retimed n m) :
    Retimed n.maybeCompactLocked m.maybeCompactLocked := by
  obtain ⟨nx, g, rfl⟩ := h
  refine ⟨nx, g, ?_⟩
  unfold maybeCompactLocked compactLocked
  dsimp only
  split
  · rfl
  split
  · rfl
  split
  · rfl
  split
  · split
    · rfl
    · rfl
  · rfl

/-- **A confirmation looks at neither.** -/
theorem Retimed.matched (h : Retimed n m) (peer : String) (i : Int) :
    Retimed (n.matched peer i) (m.matched peer i) := by
  have hset : Retimed ((n.setMatch peer i).setNext peer (i + 1))
      ((m.setMatch peer i).setNext peer (i + 1)) := by
    obtain ⟨nx, g, rfl⟩ := h
    exact ⟨_, g, rfl⟩
  have hadvance := hset.advanceCommit
  have hsettle : Retimed
      ((n.setMatch peer i).setNext peer (i + 1)).advanceCommitLocked.applyCommittedLocked
      ((m.setMatch peer i).setNext peer (i + 1)).advanceCommitLocked.applyCommittedLocked := by
    have hloop := hadvance.applyLoop
    obtain ⟨nx, g, heq⟩ := hadvance
    unfold applyCommittedLocked
    refine Retimed.maybeCompact ?_
    rw [heq] at hloop ⊢
    exact hloop _
  obtain ⟨nx, g, heq⟩ := hsettle
  unfold RaftNode.matched
  dsimp only
  rw [heq]
  exact ⟨nx, _, rfl⟩

/-! ## Nothing left to do -/

/-- Counting the snapshot as received changes nothing more: there is nothing to commit, to apply or
to compact, and either it is counted already, or it lies within what is committed. -/
structure Spent (n : RaftNode σ) (peer : String) : Prop where
  committed : ∀ i, n.commitIndex < i → i ≤ n.log.lastLogIndexLocked → ¬ n.Committable i
  applied : n.lastApplied < n.commitIndex → n.log.entryAtLocked (n.lastApplied + 1) = none
  compacted : ∀ e data, ¬ n.Due e data
  counted : n.matchIndex peer = n.log.head.index ∨ n.log.head.index ≤ n.commitIndex

theorem Spent.retimed (h : Spent n peer) (hm : Retimed n m) : Spent m peer := by
  obtain ⟨nx, g, rfl⟩ := hm
  exact
    { committed := fun i hlo hhi hc => h.committed i hlo hhi ⟨hc.term, hc.held⟩
      applied := h.applied
      compacted := fun e data hdue =>
        h.compacted e data ⟨hdue.hook, hdue.positive, hdue.reached, hdue.entry⟩
      counted := h.counted }

/-- The snapshot is counted once more. -/
theorem Spent.setMatch (h : Spent n peer) : Spent (n.setMatch peer n.log.head.index) peer := by
  refine ⟨fun i hlo hhi hc => h.committed i hlo hhi ⟨hc.term, hc.held.trans ?_⟩, h.applied,
    fun e data hdue => h.compacted e data ⟨hdue.hook, hdue.positive, hdue.reached, hdue.entry⟩,
    Or.inl (by simp [RaftNode.setMatch])⟩
  -- no index beyond the commit index gets another vote
  refine List.countP_mono_left fun p _ hp => ?_
  have hle : i ≤ Function.update n.matchIndex peer n.log.head.index p := of_decide_eq_true hp
  refine decide_eq_true ?_
  by_cases heq : p = peer
  · subst heq
    rw [Function.update_self] at hle
    replace hlo : n.commitIndex < i := hlo
    rcases h.counted with hcount | hwithin
    · rwa [hcount]
    · omega
  · rwa [Function.update_of_ne heq] at hle

theorem Spent.settle_eq (h : Spent n peer) : n.advanceCommitLocked.applyCommittedLocked = n := by
  have hadvance : n.advanceCommitLocked = n := by
    rcases n.advanceCommit_cases with ⟨heq, _⟩ | ⟨j, _, hlo, hhi, hc, _⟩
    · exact heq
    · exact absurd hc (h.committed j hlo hhi)
  have hloop : ∀ k, applyLoop k n = n := by
    intro k
    cases k with
    | zero => rfl
    | succ k =>
      unfold applyLoop
      split
      · next hlt => rw [h.applied hlt]
      · rfl
  rw [hadvance]
  unfold applyCommittedLocked
  rw [hloop]
  rcases n.maybeCompact_cases with ⟨hsame, _⟩ | ⟨e, data, hdue, _⟩
  · exact hsame
  · exact absurd hdue (h.compacted e data)

/-- **Once is enough.** -/
theorem Spent.matched (h : Spent n peer) : (n.matched peer n.log.head.index).log = n.log ∧
    Spent (n.matched peer n.log.head.index) peer := by
  have hset : Spent ((n.setMatch peer n.log.head.index).setNext peer (n.log.head.index + 1)) peer :=
    h.setMatch.retimed ⟨_, _, rfl⟩
  unfold RaftNode.matched
  dsimp only
  rw [hset.settle_eq]
  exact ⟨rfl, hset.retimed ⟨_, _, rfl⟩⟩

/-! ## The first time -/

/-- The loop stops at the commit index, or where the log has no entry. -/
theorem applyLoop_stops (k : Nat) (hk : n.commitIndex ≤ n.lastApplied + k)
    (hlt : (applyLoop k n).lastApplied < n.commitIndex) :
    n.log.entryAtLocked ((applyLoop k n).lastApplied + 1) = none := by
  induction k generalizing n with
  | zero =>
    have hlow : n.lastApplied < n.commitIndex := hlt
    omega
  | succ k ih =>
    unfold applyLoop at hlt ⊢
    split
    · next hless =>
      rw [if_pos hless] at hlt
      split
      · next hnone => exact hnone
      · next e he =>
        rw [he] at hlt
        obtain ⟨x, applies, heq⟩ := n.applyNext_eq (n.lastApplied + 1) e
        dsimp only at hlt
        rw [heq] at hlt ⊢
        refine ih (n := { n with
          lastApplied := n.lastApplied + 1, machine := x, applies := applies }) ?_ hlt
        show n.commitIndex ≤ n.lastApplied + 1 + k
        push_cast at hk
        omega
    · next hge =>
      rw [if_neg hge] at hlt
      exact absurd hlt hge

theorem applied_applyCommitted (n : RaftNode σ)
    (hlt : n.applyCommittedLocked.lastApplied < n.commitIndex) :
    n.applyCommittedLocked.log.entryAtLocked (n.applyCommittedLocked.lastApplied + 1) = none := by
  have hstops := applyLoop_stops (n := n) (n.commitIndex - n.lastApplied).toNat (by omega)
  obtain ⟨la, x, applies, hloop⟩ := n.applyLoop_eq (n.commitIndex - n.lastApplied).toNat
  unfold applyCommittedLocked at hlt ⊢
  rw [hloop] at hlt hstops ⊢
  rcases maybeCompact_cases { n with lastApplied := la, machine := x, applies := applies } with
    ⟨hsame, _⟩ | ⟨e, data, hdue, hcompact⟩
  · rw [hsame] at hlt ⊢
    exact hstops hlt
  · -- the entry behind the new snapshot is the one that was there
    have hcopy : n.log.Compacted
        ⟨{ term := e.term, index := la }, n.log.slice (n.log.sliceIndexLocked la + 1)⟩ :=
      (Log.Compacted.refl n.log).drop hdue.head_lt.le hdue.entry
    rw [hcompact] at hlt ⊢
    exact (hcopy.entryAt_eq (lt_add_one la)).trans (hstops hlt)

/-- A log that is compacted begins at a committed index. -/
theorem Undue.head_applyCommitted (h : Undue (body n)) :
    n.log.head.index = n.applyCommittedLocked.log.head.index ∨
      n.applyCommittedLocked.log.head.index ≤ n.commitIndex := by
  rcases h.applyCommitted_cases with
    heq | ⟨la, x, applies, hle, _, ⟨heq, _⟩ | ⟨e, data, _, heq⟩⟩
  · rw [heq]
    exact Or.inl rfl
  · rw [heq]
    exact Or.inl rfl
  · rw [heq]
    exact Or.inr hle

/-- **Settling leaves nothing to do**, provided the configuration stays. -/
theorem spent_settle (hundue : Undue (body n)) (hlog : n.log.Contiguous)
    (hpeers : n.advanceCommitLocked.applyCommittedLocked.peerIDs = n.peerIDs)
    (hcount : n.matchIndex peer = n.log.head.index) :
    Spent n.advanceCommitLocked.applyCommittedLocked peer := by
  obtain ⟨c, hadvance, hnone⟩ : ∃ c, n.advanceCommitLocked = { n with commitIndex := c } ∧
      ∀ j, c < j → j ≤ n.log.lastLogIndexLocked → ¬ n.Committable j := by
    rcases n.advanceCommit_cases with ⟨heq, hnone⟩ | ⟨c, heq, _, _, _, hnone⟩
    · exact ⟨n.commitIndex, heq, hnone⟩
    · exact ⟨c, heq, hnone⟩
  have hstanding := standing_settle n
  rw [hadvance] at hpeers hstanding ⊢
  have hundue' : Undue (body { n with commitIndex := c }) := hundue
  have hcopy := compacted_applyCommitted { n with commitIndex := c }
  have hcommit := commitIndex_applyCommitted { n with commitIndex := c }
  have hstops := applied_applyCommitted { n with commitIndex := c }
  have hwithin := hundue'.head_applyCommitted
  have hdue := hundue'.applyCommitted.not_due
  generalize ({ n with commitIndex := c } : RaftNode σ).applyCommittedLocked = m
    at hpeers hstanding hcopy hcommit hstops hwithin hdue ⊢
  simp only [standing, Prod.mk.injEq] at hstanding
  obtain ⟨_, hterm, _, hmatch, _⟩ := hstanding
  replace hcommit : m.commitIndex = c := hcommit
  refine ⟨fun j hlo hhi hc => hnone j (hcommit ▸ hlo) ?_ ⟨?_, ?_⟩,
    fun hlt => hstops (hcommit ▸ hlt),
    hdue, ?_⟩
  · rwa [hcopy.lastLogIndex_eq hlog] at hhi
  · -- what is still in the log is what was there
    have hfound := hc.term
    rw [hterm] at hfound
    rcases le_or_gt m.log.head.index j with hle | hlt
    · rwa [hcopy.termAt_eq hle] at hfound
    · unfold Log.termAtLocked at hfound
      rw [Log.entryAt_of_lt hlt] at hfound
      cases hfound
  · have hheld := hc.held
    unfold majority replicas at hheld ⊢
    rwa [hpeers, hmatch] at hheld
  · rw [hmatch, hcommit]
    rcases hwithin with heq | hle
    · exact Or.inl (hcount.trans heq)
    · exact Or.inr hle

/-- **After the first time nothing is left to do.** -/
theorem spent_matched (hundue : Undue (body n)) (hlog : n.log.Contiguous)
    (hpeers : (n.matched peer n.log.head.index).peerIDs = n.peerIDs) :
    Spent (n.matched peer n.log.head.index) peer := by
  have hset : Spent ((n.setMatch peer n.log.head.index).setNext peer
      (n.log.head.index + 1)).advanceCommitLocked.applyCommittedLocked peer :=
    spent_settle hundue hlog hpeers (by simp [RaftNode.setMatch, setNext])
  exact hset.retimed ⟨_, _, rfl⟩

/-! ## Rounds -/

/-- No request of the leader fits the log of the peer: the peer has compacted at least as much as
the leader, and the two logs have nothing in common from there on, or the next request starts
before. -/
structure Barred (l f : RaftNode σ) (peer : String) : Prop extends Session l f peer where
  ahead : l.log.head.index ≤ f.log.head.index
  apart : (∀ i, f.log.head.index ≤ i → i ≤ l.log.lastLogIndexLocked →
      f.log.termAtLocked i ≠ l.log.termAtLocked i) ∨
    (l.log.head.index < f.log.head.index ∧ l.next peer ≤ f.log.head.index)

theorem Barred.not_attaches (h : Barred l f peer) : ¬ Attaches l f peer := by
  have hstart : l.startIndex peer ≤ l.next peer ∧
      l.startIndex peer - 1 ≤ l.log.lastLogIndexLocked := by
    unfold startIndex
    omega
  rintro ⟨hle, heq⟩
  rcases h.apart with hapart | ⟨_, hbehind⟩
  · exact hapart _ hle hstart.2 heq
  · omega

/-- A request is refused, and the next one starts further back. -/
theorem Barred.refused (h : Barred l f peer) (hlt : l.log.head.index < l.next peer) : ∃ l' f',
    round l f peer = (l', f') ∧ Barred l' f' peer ∧ Retimed l l' ∧
      l'.goroutines = l.goroutines ++ [.replicateTo peer] ∧ f'.log = f.log ∧
      (0 < l.log.head.index →
        l'.next peer ≤ l.log.head.index ∨ l'.next peer = l.startIndex peer - 1) := by
  obtain ⟨nx, f', hround, hnext, hterm, hlog⟩ := h.toSession.refused hlt h.not_attaches
  have hbase := h.base_nonneg
  have hahead := h.ahead
  have hpos := h.next_pos
  have hlen := Log.lastLogIndex_of_contiguous h.log
  have hmoved : 0 < (nx peer).getD 0 ∧ (0 < l.log.head.index →
        (nx peer).getD 0 ≤ l.log.head.index ∨ (nx peer).getD 0 = l.startIndex peer - 1) ∧
      ((nx peer).getD 0 ≤ l.next peer ∨ (nx peer).getD 0 ≤ l.log.head.index) := by
    rw [hnext]
    unfold startIndex
    split
    · omega
    split
    · omega
    · omega
  refine ⟨_, f', hround, ⟨⟨h.leader, hterm.le, h.log, hbase, hmoved.1⟩, ?_, ?_⟩, ⟨_, _, rfl⟩, rfl,
    hlog,
    hmoved.2.1⟩
  · rw [hlog]
    exact hahead
  · rw [hlog]
    rcases h.apart with hapart | ⟨hless, hbehind⟩
    · exact Or.inl hapart
    · refine Or.inr ⟨hless, ?_⟩
      show (nx peer).getD 0 ≤ f.log.head.index
      omega

/-- A snapshot is ignored, and counts as received. -/
theorem Barred.sent (h : Barred l f peer) (hle : l.next peer ≤ l.log.head.index) : ∃ f',
    round l f peer = (l.matched peer l.log.head.index, f') ∧ f'.currentTerm = l.currentTerm ∧
      f'.log = f.log := by
  obtain ⟨f', hround, hterm, ⟨hlt, _⟩ | ⟨_, hlog⟩⟩ := h.toSession.sent hle
  · exact absurd h.ahead (not_le.mpr hlt)
  · exact ⟨f', hround, hterm, hlog⟩

/-- The leader after the snapshot has been counted as received, in a round with the same peer. -/
theorem Session.counted {f' : RaftNode σ} (h : Session l f peer)
    (hterm : f'.currentTerm = l.currentTerm) :
    Session (l.matched peer l.log.head.index) f' peer := by
  have hconf := confirmed l peer l.log.head.index
  have hbase := h.base_nonneg
  have hmove := hconf.log.head_le
  refine ⟨hconf.state_eq.trans h.leader, ?_, hconf.log.contiguous h.log, by omega, ?_⟩
  · rw [hconf.term_eq, hterm]
  · rw [hconf.next_eq]
    omega

/-- No way out: the leader has no snapshot, or has done all that counting it as received makes it do
and has entries to send still. -/
structure Stuck (l f : RaftNode σ) (peer : String) : Prop extends Barred l f peer where
  spent : 0 < l.log.head.index → Spent l peer ∧ l.log.head.index < l.log.lastLogIndexLocked

/-- **A round leads nowhere**, and the next one will not either. -/
theorem Stuck.round (h : Stuck l f peer) : ∃ l' f', round l f peer = (l', f') ∧
    Stuck l' f' peer ∧ l'.goroutines = l.goroutines ++ [.replicateTo peer] := by
  have hpos := h.next_pos
  rcases le_or_gt (l.next peer) l.log.head.index with hle | hlt
  · -- the snapshot is sent once more
    obtain ⟨hspent, hmore⟩ := h.spent (by omega)
    obtain ⟨f', hround, hterm, hlog⟩ := h.toBarred.sent hle
    have hconf := confirmed l peer l.log.head.index
    obtain ⟨hsame, hspent'⟩ := hspent.matched
    refine ⟨_, f', hround, ⟨⟨h.toSession.counted hterm, ?_, ?_⟩, ?_⟩, ?_⟩
    · rw [hsame, hlog]
      exact h.ahead
    · rw [hsame, hlog, hconf.next_eq]
      rcases h.apart with hapart | ⟨hless, _⟩
      · exact Or.inl hapart
      · exact Or.inr ⟨hless, hless⟩
    · rw [hsame]
      exact fun _ => ⟨hspent', hmore⟩
    · rw [hconf.goroutines_eq, hsame, if_pos hmore]
  · obtain ⟨l', f', hround, hbarred, hsame, hgo, _, _⟩ := h.toBarred.refused hlt
    refine ⟨l', f', hround, ⟨hbarred, ?_⟩, hgo⟩
    intro hpos'
    have hlog : l'.log = l.log := by
      obtain ⟨_, _, rfl⟩ := hsame
      rfl
    rw [hlog] at hpos' ⊢
    obtain ⟨hspent, hmore⟩ := h.spent hpos'
    exact ⟨hspent.retimed hsame, hmore⟩

end Node
