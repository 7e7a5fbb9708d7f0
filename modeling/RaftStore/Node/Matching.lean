import RaftStore.Node.Life

/-!
# Requests cut from one leader's log

A leader's log only grows while it leads, so every request of its term is cut from a prefix of its
last log `G`. A follower may receive these requests in any order, late and repeatedly. `Tracks` is
the state of a follower between them: its log agrees with `G` up to some index `m`, and wherever an
entry has the term of the one in `G`, all entries before it are those of `G` (log matching).

* `Agreed.merge`: the merge loop lengthens the part that agrees, or leaves it alone;
* `Agreed.compact`: compaction keeps it;
* `mergeEntries_keeps`: the loop removes entries only behind a conflict.
-/

namespace Node

open Raft Cluster

variable {σ : Type} {n m n' : RaftNode σ} {G : List LogEntry} {log : Log} {b b' i j T : Int}
  {req : AppendEntriesRequest}

/-- The log of a leader from index 1 on, with the dummy it was made with. -/
def full (G : List LogEntry) : Log := ⟨{ term := 0, index := 0 }, G⟩

/-- The log retains nothing at the index, or what `G` has there; of the dummy the term counts. -/
def AgreesAt (G : List LogEntry) (log : Log) (i : Int) : Prop :=
  ∀ x, log.entryAtLocked i = some x → (full G).termAtLocked i = some x.term ∧
    (log.lastIncludedIndexLocked < i → (full G).entryAtLocked i = some x)

/-- Agreement on all indexes that are retained up to `b`. -/
def AgreesTo (G : List LogEntry) (log : Log) (b : Int) : Prop := ∀ i ≤ b, AgreesAt G log i

/-- A log that agrees with `G` up to `b` and matches it. -/
structure Agreed (G : List LogEntry) (b : Int) (log : Log) : Prop where
  contiguous : log.Contiguous
  agrees : AgreesTo G log b
  matching : ∀ i x, log.entryAtLocked i = some x → (full G).termAtLocked i = some x.term →
    AgreesTo G log i

/-- A request of term `T`, cut from the first `e` entries of `G` behind index `p`. -/
def CutFrom (G : List LogEntry) (T : Int) (req : AppendEntriesRequest) : Prop :=
  ∃ p e : Nat, p ≤ e ∧ e ≤ G.length ∧ req.term = T ∧ req.prevLogIndex = p ∧
    (full G).termAtLocked p = some req.prevLogTerm ∧ req.entries = (G.take e).drop p ∧
    req.leaderCommit ≤ e

/-- A follower of the leader with the log `G`. -/
structure Tracks (G : List LogEntry) (T b : Int) (n : RaftNode σ) : Prop where
  term_le : n.currentTerm ≤ T
  commit_le : n.commitIndex ≤ b
  agreed : Agreed G b n.log

/-! ## Positions -/

theorem entryAt_full (k : Nat) : (full G).entryAtLocked (k + 1) = G[k]? := by
  have h := Log.entryAt_tail (l := full G) k
  rw [show ((full G).head.index : Int) + 1 + k = k + 1 from by
    show (0 : Int) + 1 + k = k + 1
    omega] at h
  exact h

theorem termAt_full {k : Nat} {e : LogEntry} (h : G[k]? = some e) :
    (full G).termAtLocked (k + 1) = some e.term := by
  unfold Log.termAtLocked
  rw [entryAt_full, h]
  rfl

theorem AgreesTo.mono (h : AgreesTo G log b) (hle : b' ≤ b) : AgreesTo G log b' :=
  fun i hi => h i (hi.trans hle)

/-- Copies of entries that carry their index already are the entries. -/
theorem renumber_of_numbered {es : List LogEntry} {i : Int}
    (h : ∀ (k : Nat) (e : LogEntry), es[k]? = some e → e.index = i + k) :
    Log.renumber i es = es := by
  refine List.ext_getElem? (fun k => ?_)
  rw [Log.getElem?_renumber]
  cases hk : es[k]? with
  | none => rfl
  | some e =>
    obtain ⟨term, index, command, change⟩ := e
    have hidx := h k _ hk
    dsimp only at hidx
    rw [Option.map_some, hidx]

/-! ## The merge loop -/

/-- **What the loop removes** lies behind a conflict. -/
theorem mergeEntries_keeps {q : Nat} (hq : req.prevLogIndex + 1 = log.head.index + 1 + q)
    (hlen : q ≤ log.tail.length) {x : LogEntry} (hx : log.entryAtLocked i = some x) :
    (log.mergeEntries req.entries (req.prevLogIndex + 1)).1.entryAtLocked i = some x ∨
      ∃ (k : Nat) (e y : LogEntry), req.entries[k]? = some e ∧
        log.entryAtLocked (req.prevLogIndex + 1 + k) = some y ∧ y.term ≠ e.term ∧
        req.prevLogIndex + 1 + k ≤ i := by
  obtain ⟨j, _, hmatch, ⟨_, heq⟩ | ⟨hless, hne, heq⟩⟩ := Log.mergeEntries_cases req.entries hq hlen
  · rw [heq]
    exact Or.inl hx
  rw [heq]
  have hcut := hmatch.length_take hlen
  rcases Log.entryAt_cases hx with ⟨rfl, rfl⟩ | ⟨k, rfl, hget⟩
  · exact Or.inl Log.entryAt_head
  have hk := (List.getElem?_eq_some_iff.mp hget).1
  rcases Nat.lt_or_ge k (q + j) with hlt | hge
  · left
    have hkeep : (log.tail.take (q + j) ++
        Log.renumber (req.prevLogIndex + 1 + j) (req.entries.drop j))[k]? = some x := by
      rw [List.getElem?_append_left (by omega), List.getElem?_take, if_pos hlt]
      exact hget
    exact (Log.entryAt_tail (l := ⟨log.head, _⟩) k).trans hkeep
  · -- there is an entry where the loop stopped, so it stopped at a conflict
    right
    have hthere : log.tail[q + j]? = some log.tail[q + j] := List.getElem?_eq_getElem (by omega)
    have hentry : req.entries[j]? = some req.entries[j] := List.getElem?_eq_getElem hless
    refine ⟨j, _, _, hentry, ?_, hne _ _ hthere hentry, by omega⟩
    rw [show req.prevLogIndex + 1 + (j : Int) = log.head.index + 1 + ((q + j : Nat) : Int) from by
      omega, Log.entryAt_tail]
    exact hthere

/-- The entries of a request are those of `G`. -/
theorem CutFrom.entry {p e k : Nat} (hentries : req.entries = (G.take e).drop p)
    {x : LogEntry} (hx : req.entries[k]? = some x) : G[p + k]? = some x ∧ p + k < e := by
  rw [hentries, List.getElem?_drop, List.getElem?_take] at hx
  split at hx
  · next hlt => exact ⟨hx, hlt⟩
  · cases hx

/-- What matches an entry of the request is followed by agreement. -/
theorem Agreed.matched (h : Agreed G b log) {p e q j : Nat}
    (hprev : log.termAtLocked p = some req.prevLogTerm)
    (hG : (full G).termAtLocked p = some req.prevLogTerm)
    (hentries : req.entries = (G.take e).drop p) (hq : (p : Int) = log.head.index + q)
    (hmatch : Log.Matches log.tail req.entries q j) : AgreesTo G log (p + j) := by
  cases j with
  | zero =>
    obtain ⟨x, hx, hterm⟩ := Option.map_eq_some_iff.mp hprev
    have hagree := h.matching p x hx (by rw [hG, hterm])
    simpa using hagree
  | succ j =>
    obtain ⟨x, y, hx, hy, hterm⟩ := hmatch j (Nat.lt_succ_self j)
    obtain ⟨hget, _⟩ := CutFrom.entry hentries hy
    have hat : log.entryAtLocked ((p + j : Nat) + 1) = some x := by
      rw [← hx, ← Log.entryAt_tail]
      congr 1
      push_cast
      omega
    have htG := termAt_full hget
    rw [← hterm] at htG
    have hagree := h.matching _ x hat htG
    rwa [show ((p : Int) + ((j + 1 : Nat) : Int)) = ((p + j : Nat) : Int) + 1 from by omega]

/-- The part that agrees ends before the first entry that is missing or in conflict. -/
theorem Agreed.le_of_stop (h : Agreed G b log) {p e q j : Nat}
    (hpos : (p : Int) = log.head.index + q)
    (hentries : req.entries = (G.take e).drop p) (hless : j < req.entries.length)
    (hle : b ≤ log.lastLogIndexLocked)
    (hne : ∀ x y, log.tail[q + j]? = some x → req.entries[j]? = some y → x.term ≠ y.term) :
    b ≤ p + j := by
  by_contra hgt
  push Not at hgt
  rw [Log.lastLogIndex_of_contiguous h.contiguous] at hle
  have hget := List.getElem?_eq_getElem (show q + j < log.tail.length by omega)
  have hentry := List.getElem?_eq_getElem hless
  have hat : log.entryAtLocked ((p + j : Nat) + 1) = some log.tail[q + j] := by
    rw [← hget, ← Log.entryAt_tail]
    congr 1
    push_cast
    omega
  obtain ⟨hterm, _⟩ := h.agrees ((p + j : Nat) + 1) (by push_cast; omega) _ hat
  rw [termAt_full (CutFrom.entry hentries hentry).1] at hterm
  exact hne _ _ hget hentry (Option.some.inj hterm).symm

/-- A log that goes on with entries of `G` where it has agreed so far agrees throughout. -/
theorem AgreesTo.replace {p e q j : Nat} (hagree : AgreesTo G log (p + j))
    (hpos : (p : Int) = log.head.index + q) (hcut : (log.tail.take (q + j)).length = q + j)
    (i : Int) : AgreesAt G ⟨log.head, log.tail.take (q + j) ++ (G.take e).drop (p + j)⟩ i := by
  intro x hx
  rcases Log.entryAt_cases hx with ⟨hi, rfl⟩ | ⟨k, rfl, hget⟩
  · -- the dummy
    dsimp only at hi
    subst hi
    exact hagree _ (by omega) _ Log.entryAt_head
  · dsimp only at hget ⊢
    rcases Nat.lt_or_ge k (q + j) with hk | hk
    · rw [List.getElem?_append_left (by omega), List.getElem?_take, if_pos hk] at hget
      exact hagree _ (by omega) x ((Log.entryAt_tail k).trans hget)
    · rw [List.getElem?_append_right (by omega), hcut, List.getElem?_drop,
        List.getElem?_take] at hget
      split at hget
      · rw [show log.head.index + 1 + (k : Int) = ((p + j + (k - (q + j)) : Nat) : Int) + 1 from by
          omega]
        exact ⟨termAt_full hget, fun _ => (entryAt_full _).trans hget⟩
      · cases hget

/-- The entries of `G` carry their index, so a copy of them is the same. -/
theorem renumber_cut (hG : (full G).Contiguous) (e k : Nat) :
    Log.renumber (k + 1) ((G.take e).drop k) = (G.take e).drop k := by
  refine renumber_of_numbered (fun i x hx => ?_)
  rw [List.getElem?_drop, List.getElem?_take] at hx
  split at hx
  · have hidx := hG (k + i) x hx
    have hhead : (full G).head.index = 0 := rfl
    push_cast at hidx
    omega
  · cases hx

/-- **Merging a request of the leader** lengthens the part that agrees, or leaves it alone. -/
theorem Agreed.merge (hG : (full G).Contiguous) (h : Agreed G b log) (hreq : CutFrom G T req)
    (hlo : log.lastIncludedIndexLocked ≤ req.prevLogIndex)
    (hprev : log.termAtLocked req.prevLogIndex = some req.prevLogTerm) :
    Agreed G (max b (req.prevLogIndex + req.entries.length))
        (log.mergeEntries req.entries (req.prevLogIndex + 1)).1 ∧
      req.prevLogIndex + req.entries.length ≤
        (log.mergeEntries req.entries (req.prevLogIndex + 1)).1.lastLogIndexLocked ∧
      (b ≤ log.lastLogIndexLocked →
        b ≤ (log.mergeEntries req.entries (req.prevLogIndex + 1)).1.lastLogIndexLocked) := by
  obtain ⟨p, e, hpe, heG, _, hp, htG, hentries, _⟩ := hreq
  obtain ⟨q, hq, hpos⟩ := Log.exists_position hlo hprev
  have hstart : req.prevLogIndex + 1 = log.head.index + 1 + q := by omega
  have hlen : req.entries.length = e - p := by
    rw [hentries, List.length_drop, List.length_take, min_eq_left heG]
  rw [hp] at hprev hpos
  have hcont : (log.mergeEntries req.entries (req.prevLogIndex + 1)).1.Contiguous :=
    h.contiguous.merge hstart hq
  obtain ⟨j, hj, hmatch, hres⟩ := Log.mergeEntries_cases req.entries hstart hq
  have hagree := h.matched hprev htG hentries hpos hmatch
  have hcut := hmatch.length_take hq
  rcases hres with ⟨rfl, heq⟩ | ⟨hless, hne, heq⟩
  · -- everything is there: the log stays
    rw [heq, hp]
    refine ⟨⟨h.contiguous, ?_, h.matching⟩, ?_, id⟩
    · intro i hi
      rcases le_max_iff.mp hi with hb | hr
      · exact h.agrees i hb
      · exact hagree i hr
    · rw [List.length_take] at hcut
      rw [Log.lastLogIndex_of_contiguous h.contiguous]
      omega
  · -- the rest of the log gives way to the rest of the request
    have hnew : Log.renumber (req.prevLogIndex + 1 + j) (req.entries.drop j) =
        (G.take e).drop (p + j) := by
      rw [hentries, List.drop_drop, hp,
        show (p : Int) + 1 + j = ((p + j : Nat) : Int) + 1 from by omega]
      exact renumber_cut hG e (p + j)
    rw [hnew] at heq
    rw [heq] at hcont ⊢
    have hlast : Log.lastLogIndexLocked
        ⟨log.head, log.tail.take (q + j) ++ (G.take e).drop (p + j)⟩ = e := by
      rw [Log.lastLogIndex_of_contiguous hcont]
      dsimp only
      rw [List.length_append, hcut, List.length_drop, List.length_take, min_eq_left heG]
      omega
    refine ⟨⟨hcont, fun i _ => hagree.replace hpos hcut i,
      fun _ _ _ _ i _ => hagree.replace hpos hcut i⟩, ?_, fun hle => ?_⟩
    · rw [hlast, hp, hlen]
      omega
    · have hshort := h.le_of_stop hpos hentries hless hle hne
      rw [hlast]
      omega

/-- Compaction keeps what agrees. -/
theorem Agreed.compact (h : Agreed G b log) {e : LogEntry}
    (hidx : log.lastIncludedIndexLocked < i) (he : log.entryAtLocked i = some e) :
    Agreed G b ⟨{ term := e.term, index := i }, log.slice (log.sliceIndexLocked i + 1)⟩ ∧
      Log.lastLogIndexLocked
        ⟨{ term := e.term, index := i }, log.slice (log.sliceIndexLocked i + 1)⟩ =
        log.lastLogIndexLocked := by
  have hle : log.head.index ≤ i := hidx.le
  have hcont : Log.Contiguous
      ⟨{ term := e.term, index := i }, log.slice (log.sliceIndexLocked i + 1)⟩ :=
    h.contiguous.drop hle
  -- an entry of the new log is one of the old, the dummy one as far as its term goes
  have hold : ∀ j x, Log.entryAtLocked
      ⟨{ term := e.term, index := i }, log.slice (log.sliceIndexLocked i + 1)⟩ j = some x →
      ∃ y, log.entryAtLocked j = some y ∧ y.term = x.term ∧ (i < j → y = x) := by
    intro j x hx
    rcases lt_trichotomy j i with hlt | rfl | hgt
    · rw [Log.entryAt_of_lt hlt] at hx
      cases hx
    · have hdummy : some _ = some x := Log.entryAt_head.symm.trans hx
      obtain rfl := Option.some.inj hdummy
      exact ⟨e, he, rfl, fun hjj => absurd hjj (lt_irrefl _)⟩
    · rw [Log.entryAt_drop hle hgt] at hx
      exact ⟨x, hx, rfl, fun _ => rfl⟩
  have hat : ∀ j, AgreesAt G log j →
      AgreesAt G ⟨{ term := e.term, index := i }, log.slice (log.sliceIndexLocked i + 1)⟩ j := by
    intro j hj x hx
    obtain ⟨y, hy, hterm, heq⟩ := hold j x hx
    obtain ⟨hty, hey⟩ := hj y hy
    refine ⟨hterm ▸ hty, fun hlt => ?_⟩
    have hlt' : i < j := hlt
    rw [← heq hlt']
    exact hey (hidx.trans hlt')
  refine ⟨⟨hcont, fun j hj => hat j (h.agrees j hj), ?_⟩, ?_⟩
  · intro j x hx hterm k hk
    obtain ⟨y, hy, hty, _⟩ := hold j x hx
    exact hat k (h.matching j y hy (by rw [hterm, hty]) k hk)
  · have hlast := Log.le_last_of_entryAt h.contiguous he
    rw [Log.lastLogIndex_of_contiguous h.contiguous] at hlast
    rw [Log.lastLogIndex_of_contiguous h.contiguous, Log.lastLogIndex_of_contiguous hcont]
    dsimp only
    rw [Log.slice_tail hle, List.length_drop]
    omega

/-! ## One request -/

/-- What a section does to a log that agrees. -/
theorem Agreed.minor (hstep : Minor m n') (h : Agreed G b m.log) :
    Agreed G b n'.log ∧ n'.log.lastLogIndexLocked = m.log.lastLogIndexLocked := by
  cases hstep with
  | volatile v => exact ⟨h, rfl⟩
  | ballot term vote _ => exact ⟨h, rfl⟩
  | apply e _ _ =>
    obtain ⟨_, _, heq⟩ := m.applyNext_eq (m.lastApplied + 1) e
    rw [heq]
    exact ⟨h, rfl⟩
  | compact e data s hidx he _ _ => exact h.compact hidx he

/-- Entries that are retained are the ones of `log`. -/
def Retains (log log' : Log) : Prop :=
  ∀ i x, log.entryAtLocked i = some x → log'.lastIncludedIndexLocked < i →
    log'.entryAtLocked i = some x

theorem Retains.minor (hstep : Minor m n') (h : Retains log m.log) : Retains log n'.log := by
  cases hstep with
  | volatile v => exact h
  | ballot term vote _ => exact h
  | apply e _ _ =>
    obtain ⟨_, _, heq⟩ := m.applyNext_eq (m.lastApplied + 1) e
    rw [heq]
    exact h
  | compact e data s hidx he _ _ =>
    intro i x hx hlt
    have hlt' : m.lastApplied < i := hlt
    show Log.entryAtLocked ⟨_, _⟩ i = some x
    rw [Log.entryAt_drop hidx.le hlt']
    exact h i x hx (hidx.trans hlt')

/-- Following the leader's commit index, and applying what it covers. -/
theorem commitIndex_followCommit_le (n : RaftNode σ) (leaderCommit : Int) :
    (n.followCommitLocked leaderCommit).commitIndex ≤ max n.commitIndex leaderCommit := by
  rw [RaftNode.commitIndex_followCommit]
  split <;> omega

/-- **The entries of a request that were taken over**, and what became of the others. -/
theorem Tracks.taken (hG : (full G).Contiguous) (h : Tracks G T b n) (hreq : CutFrom G T req)
    (hprev : n.PrevMatches req) :
    Tracks G T (max b (req.prevLogIndex + req.entries.length))
        (((n.hearLeader req.term req.leaderID).mergeLocked req).followCommitLocked
          req.leaderCommit) ∧
      (((n.hearLeader req.term req.leaderID).mergeLocked req).followCommitLocked
          req.leaderCommit).log.lastLogIndexLocked =
        (n.log.mergeEntries req.entries (req.prevLogIndex + 1)).1.lastLogIndexLocked ∧
      Retains (n.log.mergeEntries req.entries (req.prevLogIndex + 1)).1
        (((n.hearLeader req.term req.leaderID).mergeLocked req).followCommitLocked
          req.leaderCommit).log := by
  have hmerged : ((n.hearLeader req.term req.leaderID).mergeLocked req).log =
      (n.log.mergeEntries req.entries (req.prevLogIndex + 1)).1 := by
    rw [RaftNode.log_mergeLocked, RaftNode.log_hearLeader]
  have hquiet := quiet_followCommit ((n.hearLeader req.term req.leaderID).mergeLocked req)
    req.leaderCommit
  -- the merge has its own lemma; what follows may compact, which `Agreed.minor` covers
  have hagreed := (h.agreed.merge hG hreq hprev.1 hprev.2).1
  rw [← hmerged] at hagreed ⊢
  obtain ⟨hend, hlast⟩ := hquiet.invariant
    (P := fun k => Agreed G (max b (req.prevLogIndex + req.entries.length)) k.log ∧
      k.log.lastLogIndexLocked =
        ((n.hearLeader req.term req.leaderID).mergeLocked req).log.lastLogIndexLocked)
    (fun _ _ hstep hk => ⟨(hk.1.minor hstep).1, (hk.1.minor hstep).2.trans hk.2⟩) ⟨hagreed, rfl⟩
  obtain ⟨p, e, hpe, heG, hT, hp, _, hentries, hcommit⟩ := hreq
  refine ⟨⟨?_, ?_, hend⟩, hlast, ?_⟩
  · rw [RaftNode.currentTerm_followCommit, RaftNode.currentTerm_mergeLocked,
      (n.hearLeader_fields (not_lt.mpr (hT ▸ h.term_le)) req.leaderID).1]
    exact hT.le
  · have hle := commitIndex_followCommit_le ((n.hearLeader req.term req.leaderID).mergeLocked req)
      req.leaderCommit
    have hsame : ((n.hearLeader req.term req.leaderID).mergeLocked req).commitIndex =
        n.commitIndex := by
      rw [commitIndex_mergeLocked, commitIndex_hearLeader]
    have hlen : req.entries.length = e - p := by
      rw [hentries, List.length_drop, List.length_take, min_eq_left heG]
    have hc := h.commit_le
    rw [hsame] at hle
    refine hle.trans (max_le (le_max_of_le_left hc) (le_max_of_le_right ?_))
    omega
  · exact hquiet.invariant (P := fun k => Retains _ k.log) (fun _ _ hstep => Retains.minor hstep)
      (fun i x hx _ => hx)

end Node
