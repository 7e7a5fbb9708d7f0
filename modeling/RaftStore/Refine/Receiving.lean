import RaftStore.Refine.Sending

/-!
# The receiver's side of replication

`HandleAppendEntries` leaves the receiver's history alone if that already starts with what
the leader's request stands for, and otherwise makes it the receiver's history; either way
the receiver then holds what it acknowledges. `HandleInstallSnapshot` always makes the
snapshot's history the receiver's, so it may drop entries that the receiver has already
acknowledged: `Cluster.InstallKeeps` is the condition that it does not.
-/

namespace Refine

open Raft Consensus Cluster

variable {σ : Type} {X : Mode σ} {a a' : Chron} {id src : String} {n n' : RaftNode σ}
  {K : Nat → Prop}

/-! ## Hearing of a leader -/

theorem NodeRel.hearLeader (h : NodeRel X a id n) (hg : Good X a) (term : Int)
    (leaderID : String) : ∃ a', Reached X id K a a' n (n.hearLeader term leaderID) := by
  have hmark : ∀ {a' : Chron} {m : RaftNode σ}, Good X a' → NodeRel X a' id m →
      Reached X id K a' a' m { m with leaderID := leaderID, joining := false } :=
    fun hg' hm => hm.reach hg' (Later.refl id _) { hm.toLive with } rfl rfl
      (fun _ => le_refl _) kept_log
  unfold RaftNode.hearLeader
  dsimp only
  split
  · obtain ⟨a', hr⟩ := h.becomeFollower hg term leaderID
    exact ⟨a', hr.trans (hmark hr.good hr.rel)⟩
  · exact ⟨a, hmark hg h⟩

/-! ## Taking over a leader's log -/

/-- A follower acknowledges a prefix `g` of its leader's log. -/
theorem NodeRel.acknowledge (h : NodeRel X a id n) (hg : Good X a) (hf : n.state = .follower)
    {g : List LogEntry} (hpre : g <+: a.reign n.currentTerm) (hlog : g <+: a.log id) :
    Reached X id K a (a.acknowledge id g.length) n n := by
  obtain ⟨b, hst⟩ := h.stored
  have hstep : Step (scheme X.members) X.strict id a (a.acknowledge id g.length) := by
    refine Step.ack ?_ ?_
    · rw [hst.term_eq]
      exact hpre.length_le
    · rw [hst.term_eq, ← List.prefix_iff_eq_take.mp hpre]
      exact hlog
  obtain ⟨hg', hl⟩ := hg.of_step hstep (fun _ => rfl)
  have hx := hl.toExtends
  exact h.reach hg' hl { h.toLive with
    stored := ⟨b, hst.mono hx rfl hg hst.term_eq hst.vote_eq (le_refl _)⟩
    candidate := fun hc => absurd (hf.symm.trans hc) (by decide)
    leader := fun hc => absurd (hf.symm.trans hc) (by decide)
    progress := fun hs => (h.progress hs).mono hx rfl hg (le_refl _)
    threads := fun x hgr => (h.threads x hgr).mono hx } rfl rfl (fun _ => le_refl _) kept_log

theorem ack_acknowledge (a : Chron) (id : String) (m : Nat) :
    (a.acknowledge id m).ack id (a.term id) m := Or.inr ⟨rfl, rfl, rfl⟩

/-- What a follower knows to be committed is part of any leader's log it has not yet
passed, so a log that its own does not extend covers it. -/
theorem Live.commit_isPrefix (h : Live X a id n) (hg : Good X a) (hs : X.strict)
    {Q : Finset String} {g : List LogEntry} (hwon : a.won n.currentTerm src Q)
    (hpre : g <+: a.reign n.currentTerm) (hnot : ¬ g <+: a.log id) :
    (a.log id).take n.commitIndex.toNat <+: g := by
  have hset := (h.progress hs).settled.isPrefix_reign hg.inv (hg.inv.safe hs) hwon (le_refl _)
  rcases List.prefix_or_prefix_of_prefix hset hpre with hle | hge
  · exact hle
  · exact absurd (hge.trans (List.take_prefix _ _)) hnot

/-- The step of the chronicle behind a log that is replaced. -/
theorem Live.adopt_step (h : Live X a id n) (hg : Good X a) {Q : Finset String}
    {g : List LogEntry} (hwon : a.won n.currentTerm src Q) (hne : src ≠ id)
    (hpre : g <+: a.reign n.currentTerm) (hkeep : X.strict → ¬ g <+: a.log id) :
    Good X (a.adopt id g) ∧ Later id a (a.adopt id g) := by
  obtain ⟨b, hst⟩ := h.stored
  refine hg.of_step (Step.adopt (Q := Q) ?_ hne ?_ hkeep) (fun _ => rfl)
  · rw [hst.term_eq]
    exact hwon
  · rw [hst.term_eq]
    exact hpre

theorem log_adopt (a : Chron) (id : String) (g : List LogEntry) : (a.adopt id g).log id = g :=
  Function.update_self ..

/-- Progress carries over to a log that covers what is committed. -/
theorem Progress.adopt {term base commitIndex lastApplied : Int} {applies : List (Int × LogEntry)}
    {machine : σ} (h : Progress X a id term base commitIndex lastApplied applies machine)
    (hg : Good X a) {g : List LogEntry} (hx : Extends a (a.adopt id g))
    (hcov : (a.log id).take commitIndex.toNat <+: g) :
    Progress X (a.adopt id g) id term base commitIndex lastApplied applies machine := by
  have hlen := hcov.length_le
  have hc := h.commit_le
  have hl := h.applied_le
  rw [List.length_take] at hlen
  -- up to the commit index both logs are the same
  have htake : ∀ k : Int, k ≤ commitIndex → g.take k.toNat = (a.log id).take k.toNat := by
    intro k hk
    have := take_eq_of_isPrefix hcov (i := k.toNat) (by rw [List.length_take]; omega)
    rwa [List.take_take, Nat.min_eq_left (by omega)] at this
  refine ⟨h.applied_nonneg, h.base_le, hl, ?_, ?_, ?_, ?_, ?_⟩
  · rw [log_adopt]
    have := h.applied_nonneg
    omega
  · rw [log_adopt, htake _ (le_refl _)]
    exact h.settled.mono hg.inv hx (le_refl _)
  · intro e he
    obtain ⟨h0, hi, l, hset, hget⟩ := h.applied e he
    exact ⟨h0, hi, l, hset.mono hg.inv hx (le_refl _), hget⟩
  · rw [log_adopt, htake _ hl]
    exact h.inOrder
  · rw [log_adopt, htake _ hl]
    exact h.machine

/-- **A conflicting or shorter log gives way to the leader's.** The compacted part stays. -/
theorem NodeRel.adopt (h : NodeRel X a id n) (hg : Good X a) (hf : n.state = .follower) {b p : Nat}
    (hst : Stored X a id b n.currentTerm n.votedFor n.log n.snapshot n.basePeers)
    {Q : Finset String} {g : List LogEntry} (hwon : a.won n.currentTerm src Q) (hne : src ≠ id)
    (hpre : g <+: a.reign n.currentTerm) (hnot : ¬ g <+: a.log id) (hb : b ≤ p)
    (hp : p ≤ g.length) (heq : (a.log id).take p = g.take p)
    (hK : ∀ j, K j → (a.log id).take j <+: g) :
    Reached X id K a (a.adopt id g) n
      { n with log := render g b }.rebuildMembershipLocked.notifyPeersLocked.persistLocked := by
  obtain ⟨hg', hl⟩ := h.toLive.adopt_step hg hwon hne hpre (fun _ => hnot)
  have hx := hl.toExtends
  -- the snapshot covers the same entries in both
  have hbase : g.take b = (a.log id).take b := by
    have := congrArg (List.take b) heq
    rwa [List.take_take, List.take_take, Nat.min_eq_left hb, eq_comm] at this
  refine h.reach_persist hg' hl ?_ rfl (fun _ => le_refl _)
    (fun j hj => by rw [log_adopt]; exact hK j hj)
  refine { h.toLive with
    -- the fields that speak of the log
    stored := ⟨b, ⟨hst.term_eq, hst.vote_eq, ?_, ?_, hst.base_zero, ?_, ?_, hst.nonempty, ?_⟩⟩
    peers_eq := peerAddrs_rebuild _
    peerIDs_eq := rfl
    candidate := fun hc => absurd (hf.symm.trans hc) (by decide)
    leader := fun hc => absurd (hf.symm.trans hc) (by decide)
    progress := fun hs => ?_
    threads := fun x hgr => (h.threads x hgr).mono hx }
  · rw [log_adopt]
    rfl
  · rw [log_adopt]
    omega
  · rw [log_adopt, hbase]
    exact hst.placed
  · intro hs
    rw [log_adopt, hbase]
    exact (hst.settled hs).mono hg.inv hx (le_refl _)
  · rw [log_adopt, hbase]
    exact hst.snap
  · have hp' := (h.progress hs).adopt hg hx (h.toLive.commit_isPrefix hg hs hwon hpre hnot)
    rw [hst.log_eq, lastIncludedIndex_render] at hp'
    exact hp'

/-! ## AppendEntries -/

/-- Two logs of the run with the same term at an index agree up to it. -/
theorem take_eq_of_endTerm {l g : List LogEntry} (hl : Chained (scheme X.members) a l)
    (hg : Chained (scheme X.members) a g) {p : Nat} (hpl : p ≤ l.length) (hpg : p ≤ g.length)
    (ht : endTerm (l.take p) = endTerm (g.take p)) : l.take p = g.take p := by
  rcases p with _ | k
  · rfl
  obtain ⟨x, hx⟩ : ∃ x, l[k]? = some x := ⟨_, List.getElem?_eq_getElem (by omega)⟩
  obtain ⟨y, hy⟩ : ∃ y, g[k]? = some y := ⟨_, List.getElem?_eq_getElem (by omega)⟩
  rw [endTerm_take_succ hx, endTerm_take_succ hy] at ht
  exact hl.agree hg hx hy ht

/-- What the consistency check of `HandleAppendEntries` establishes. -/
theorem Stored.prev_agrees {b p : Nat}
    (hst : Stored X a id b n.currentTerm n.votedFor n.log n.snapshot n.basePeers) (hg : Good X a)
    {g : List LogEntry} (hpre : g <+: a.reign n.currentTerm) (hp : p ≤ g.length) {prev : LogEntry}
    (hlo : ¬ (p : Int) < n.log.lastIncludedIndexLocked) (he : n.log.entryAtLocked p = some prev)
    (ht : prev.term = endTerm (g.take p)) :
    b ≤ p ∧ p ≤ (a.log id).length ∧ (a.log id).take p = g.take p := by
  have hlog := hst.log_eq
  rw [hlog, lastIncludedIndex_render] at hlo
  -- the test was made at the dummy or above it
  have hb : b ≤ p := by omega
  have hterm : (render (a.log id) b).termAtLocked p = some prev.term := by
    unfold Log.termAtLocked
    rw [← hlog, he]
    rfl
  obtain ⟨j, hj, _, hjlen⟩ := termAt_render_some hterm
  have hlen : p ≤ (a.log id).length := by
    rcases hb.lt_or_eq with hlt | heq
    · have := hjlen (by omega)
      omega
    · have := hst.base_le
      omega
  -- entries of one term at one position, so the logs agree up to there
  rw [termAt_render hb hlen, Option.some.injEq, ht] at hterm
  exact ⟨hb, hlen, take_eq_of_endTerm (hg.inv.logs.chained_log id)
    ((hg.inv.chained_reign _).of_isPrefix hpre) hlen hp hterm⟩

/-- A log that replaces another one, and has the same terms as far as index `j`, keeps it so
far. -/
theorem take_isPrefix_of_terms {l g : List LogEntry} (hl : Chained (scheme X.members) a l)
    (hg : Chained (scheme X.members) a g) {p j : Nat} (heq : l.take p = g.take p)
    (hnot : ¬ g <+: l) (hterms : ∀ k x y, p ≤ k → k < j → l[k]? = some x → g[k]? = some y →
      x.term = y.term) : l.take j <+: g := by
  -- both logs have an entry at the last index below `j` that they share
  have hsame : l.take (min j (min l.length g.length)) = g.take (min j (min l.length g.length)) := by
    rcases Nat.lt_or_ge p (min j (min l.length g.length)) with hlt | hge
    · obtain ⟨k, hk⟩ : ∃ k, min j (min l.length g.length) = k + 1 := ⟨_, (Nat.sub_add_cancel
        (by omega)).symm⟩
      obtain ⟨x, hx⟩ : ∃ x, l[k]? = some x := ⟨_, List.getElem?_eq_getElem (by omega)⟩
      obtain ⟨y, hy⟩ : ∃ y, g[k]? = some y := ⟨_, List.getElem?_eq_getElem (by omega)⟩
      rw [hk]
      exact hl.agree hg hx hy (hterms k x y (by omega) (by omega) hx hy)
    · have := congrArg (List.take (min j (min l.length g.length))) heq
      rwa [List.take_take, List.take_take, Nat.min_eq_left hge] at this
  -- the shorter log ends there
  rcases Nat.lt_or_ge g.length (min j l.length) with hlt | hge
  · rw [show min j (min l.length g.length) = g.length from by omega, List.take_length] at hsame
    exact absurd (hsame ▸ List.take_prefix _ _) hnot
  · rw [show min j (min l.length g.length) = min j l.length from by omega,
      ← List.take_take, List.take_length] at hsame
    rw [hsame]
    exact List.take_prefix _ _

/-- **The merge.** Afterwards the receiver holds the log `g` the request was cut from, and
that is acknowledged. -/
theorem NodeRel.mergeLocked (h : NodeRel X a id n) (hg : Good X a) (hf : n.state = .follower)
    {req : AppendEntriesRequest} {Q : Finset String} {g : List LogEntry} {p : Nat} {prev : LogEntry}
    (hwon : a.won n.currentTerm src Q) (hne : src ≠ id) (hpre : g <+: a.reign n.currentTerm)
    (hp : p ≤ g.length) (hprev : req.prevLogIndex = p) (hes : req.entries = g.drop p)
    (hlo : ¬ req.prevLogIndex < n.log.lastIncludedIndexLocked)
    (he : n.log.entryAtLocked req.prevLogIndex = some prev)
    (ht : prev.term = endTerm (g.take p))
    (hK : ∀ j, K j → ∀ (k : Nat) e x, req.entries[k]? = some e →
      req.prevLogIndex + 1 + k ≤ j → n.log.entryAtLocked (req.prevLogIndex + 1 + k) = some x →
      x.term = e.term) :
    ∃ a', Reached X id K a a' n (n.mergeLocked req) ∧ g <+: a'.log id ∧
      a'.ack id n.currentTerm g.length := by
  obtain ⟨b, hst⟩ := h.stored
  rw [hprev] at hlo he
  obtain ⟨hb, hlen, heq⟩ := hst.prev_agrees hg hpre hp hlo he ht
  have hchg := (hg.inv.chained_reign n.currentTerm).of_isPrefix hpre
  -- merging writes all of `g`, or nothing
  have hmerge : n.log.mergeEntries req.entries (req.prevLogIndex + 1) =
      if g <+: a.log id then (render (a.log id) b, false) else (render g b, true) := by
    rw [hst.log_eq, hes, hprev]
    exact mergeEntries_render (hg.numbered_of_chained hchg)
      (fun k e e' hek hek' hterm => (hg.inv.logs.chained_log id).agree hchg hek hek' hterm)
      hb hlen hp heq
  unfold RaftNode.mergeLocked
  rw [hmerge]
  by_cases hpg : g <+: a.log id
  · -- nothing new
    rw [if_pos hpg]
    have hself : ({ n with log := render (a.log id) b } : RaftNode σ) = n := by rw [← hst.log_eq]
    refine ⟨a.acknowledge id g.length, ?_, hpg, hst.term_eq ▸ ack_acknowledge a id g.length⟩
    show Reached X id K a _ n { n with log := render (a.log id) b }
    rw [hself]
    exact h.acknowledge hg hf hpre hpg
  -- something new, which is saved and then acknowledged
  · rw [if_neg hpg]
    -- what is kept agrees with the leader's log
    have hkept : ∀ j, K j → (a.log id).take j <+: g := by
      intro j hj
      refine take_isPrefix_of_terms (hg.inv.logs.chained_log id) hchg heq hpg ?_
      intro k x y hpk hkj hx hy
      refine hK j hj (k - p) y x ?_ ?_ ?_
      · rw [hes, List.getElem?_drop, Nat.add_sub_cancel' hpk]
        exact hy
      · omega
      · rw [hst.log_eq, hprev, show ((p : Int) + 1 + ((k - p : Nat) : Int)) = ((k + 1 : Nat) : Int)
          from by omega, entryAt_render (by omega)]
        exact hx
    have hr := h.adopt hg hf hst hwon hne hpre hpg hb hp heq hkept
    have hlog : g <+: (a.adopt id g).log id := by rw [log_adopt]
    have hr' := hr.rel.acknowledge (K := K) hr.good hf hpre hlog
    exact ⟨(a.adopt id g).acknowledge id g.length, hr.trans hr', hlog,
      hst.term_eq ▸ ack_acknowledge (a.adopt id g) id g.length⟩

/-- **The follower's commit rule.** The leader's commit index lies within the log the
request was cut from, so the clamp does not bite. -/
theorem NodeRel.followCommit (h : NodeRel X a id n) (hg : Good X a) (hv : X.Valid)
    (hf : n.state = .follower) {g : List LogEntry} {lc : Int} (hlog : g <+: a.log id)
    (hlc : X.strict → 0 ≤ lc ∧ lc ≤ g.length ∧ Settled a n.currentTerm (g.take lc.toNat)) :
    Reached X id K a a n (n.followCommitLocked lc) := by
  unfold RaftNode.followCommitLocked
  split
  swap
  · exact h.reach_self hg
  next hgt =>
  have hr : Reached X id K a a n
      { n with
        commitIndex :=
          if lc > n.log.lastLogIndexLocked then n.log.lastLogIndexLocked else lc } := by
    refine h.reach hg (Later.refl id a) { h.toLive with
      leader := fun hc => absurd (hf.symm.trans hc) (by decide), progress := fun hs => ?_ } rfl rfl
      (fun _ => le_refl _) kept_log
    -- the leader has sent all that it calls committed
    obtain ⟨h0, hle, hset⟩ := hlc hs
    have hp := h.progress hs
    have hlen := hlog.length_le
    have hlast := h.toLive.lastLogIndex_eq hg
    rw [if_neg (by omega)]
    refine { hp with applied_le := hp.applied_le.trans hgt.le, commit_le := ?_, settled := ?_ }
    · show lc ≤ _
      omega
    · show Settled a n.currentTerm ((a.log id).take lc.toNat)
      rw [take_eq_of_isPrefix hlog (by omega)]
      exact hset
  exact hr.trans (hr.rel.applyCommitted hg hv)

/-- **`HandleAppendEntries`.** A positive reply is on record as an acknowledgement. -/
theorem NodeRel.handleAppendEntries (h : NodeRel X a id n) (hg : Good X a) (hv : X.Valid)
    {req : AppendEntriesRequest} (hreq : AppendReq X a src req) (hne : src ≠ id)
    (hK : ∀ j, K j → AppendAgrees n req j) :
    ∃ a', Reached X id K a a' n (n.handleAppendEntries req).1 ∧
      ((n.handleAppendEntries req).2.success = true → X.strict →
        a'.ack id req.term (req.prevLogIndex.toNat + req.entries.length)) := by
  obtain ⟨a₁, hr₁⟩ := h.hearLeader (K := K) hg req.term req.leaderID
  rcases n.handleAppendEntries_cases req with
    ⟨_, heq⟩ | ⟨_, _, heq⟩ | ⟨hle, ⟨hlo, hat⟩, heq⟩
  -- an old term, a gap, or a match
  · rw [heq]
    exact ⟨a, h.reach_self hg, fun hc => Bool.noConfusion hc⟩
  · rw [heq]
    exact ⟨a₁, hr₁, fun hc => Bool.noConfusion hc⟩
  rw [heq]
  obtain ⟨hterm, hf, hsame⟩ := n.hearLeader_fields (not_lt.mpr hle) req.leaderID
  obtain ⟨⟨Q, hwon⟩, g, p, hpre, hp, hprev, hpt, hes, hlc⟩ := hreq.mono hg hr₁.later.toExtends
  generalize n.hearLeader req.term req.leaderID = m at hr₁ hterm hf hsame ⊢
  rw [← hterm] at hwon hpre hlc
  -- the test has read the log as it was before the leader was heard
  have hagree := fun j hj => hK j hj hle hlo hat
  rw [← hsame] at hlo hat hagree
  obtain ⟨prev, he, ht⟩ := Option.map_eq_some_iff.mp hat
  obtain ⟨a₂, hr₂, hlog, hack⟩ := hr₁.rel.mergeLocked (K := K) hr₁.good hf hwon hne hpre hp hprev
    hes (not_lt.mpr hlo) he (ht.trans hpt) hagree
  have hterm₂ := m.currentTerm_mergeLocked req
  have hf₂ := m.state_mergeLocked req
  have hlc₂ : X.strict → 0 ≤ req.leaderCommit ∧ req.leaderCommit ≤ g.length ∧
      Settled a₂ (m.mergeLocked req).currentTerm (g.take req.leaderCommit.toNat) := by
    intro hs
    obtain ⟨h0, hle, hset⟩ := hlc hs
    rw [hterm₂]
    exact ⟨h0, hle, hset.mono hr₁.good.inv hr₂.later.toExtends (le_refl _)⟩
  -- the commit index comes last, over the merged log
  have hr₃ := hr₂.rel.followCommit (K := K) hr₂.good hv (hf₂.trans hf) hlog hlc₂
  refine ⟨a₂, hr₁.trans (hr₂.trans hr₃), fun _ _ => ?_⟩
  have hlen : req.prevLogIndex.toNat + req.entries.length = g.length := by
    rw [hprev, hes, List.length_drop, Int.toNat_natCast]
    omega
  rw [hlen, ← hterm]
  exact hack

/-! ## InstallSnapshot -/

theorem eq_of_installKeeps {req : InstallSnapshotRequest} {b : Nat} {g : List LogEntry}
    (hk : InstallKeeps n req) (hg : Good X a)
    (hst : Stored X a id b n.currentTerm n.votedFor n.log n.snapshot n.basePeers)
    (hterm : n.currentTerm ≤ req.term) (hgt : n.log.lastIncludedIndexLocked < req.lastIncludedIndex)
    (hidx : req.lastIncludedIndex = g.length) (hend : req.lastIncludedTerm = endTerm g)
    (hpre : g <+: a.log id) : g = a.log id := by
  have hle := hpre.length_le
  by_contra hne
  -- the log goes on behind the snapshot
  have hlt : g.length < (a.log id).length := by
    rcases hle.lt_or_eq with hlt | heq
    · exact hlt
    · exact absurd (hpre.eq_of_length heq) hne
  have hlast : n.log.lastLogIndexLocked = (a.log id).length := by
    rw [hst.log_eq, lastLogIndex_render (hg.numbered_log id) hst.base_le]
  refine hk hterm hgt (by omega) ?_
  rw [hst.log_eq, lastIncludedIndex_render] at hgt
  rw [hst.log_eq, hidx, termAt_render (by omega) hle, hend, ← List.prefix_iff_eq_take.mp hpre]

theorem restored_eq {s : Snapshotter σ} {m : σ} (hs : n.snapshotter = some s)
    {data : Bytes} (hne : data ≠ []) (hm : s.restore n.machine data = some m) :
    n.restored data = m := by
  unfold RaftNode.restored
  simp only [hs, if_neg hne, hm, Option.getD_some]

/-- The chronicle after a snapshot is installed: its history is the node's. -/
theorem Live.install_step (h : Live X a id n) (hg : Good X a) {Q : Finset String}
    {g : List LogEntry} (hwon : a.won n.currentTerm src Q) (hne : src ≠ id)
    (hpre : g <+: a.reign n.currentTerm) (hkeep : X.strict → g <+: a.log id → g = a.log id) :
    ∃ a', Good X a' ∧ Later id a a' ∧ a'.log id = g ∧ a'.term id = a.term id ∧
      a'.vote id = a.vote id ∧ a'.reign = a.reign := by
  by_cases hgl : g = a.log id
  · exact ⟨a, hg, Later.refl id a, hgl.symm, rfl, rfl, rfl⟩
  · obtain ⟨hg', hl⟩ := h.adopt_step hg hwon hne hpre (fun hs hp => hgl (hkeep hs hp))
    exact ⟨a.adopt id g, hg', hl, log_adopt a id g, rfl, rfl, rfl⟩

/-- Under `strict` a snapshot that is installed covers everything committed. -/
theorem Live.commit_le_install (h : Live X a id n) (hg : Good X a) (hs : X.strict)
    {Q : Finset String} {g : List LogEntry} (hwon : a.won n.currentTerm src Q)
    (hpre : g <+: a.reign n.currentTerm) (hkeep : g <+: a.log id → g = a.log id) :
    n.commitIndex ≤ g.length := by
  have hp := h.progress hs
  have hc := hp.commit_le
  -- the log ends with the snapshot, or it is another log
  by_cases hgl : g <+: a.log id
  · rw [hkeep hgl]
    exact hc
  · have hle := (h.commit_isPrefix hg hs hwon hpre hgl).length_le
    rw [List.length_take] at hle
    omega

/-- What a snapshot of `g` leaves a node with, under `strict`. -/
theorem Live.progress_install (h : Live X a id n) (hg : Good X a) (hs : X.strict)
    (hcomp : X.compacting)
    {g : List LogEntry} (hx : Extends a a') (hlog : a'.log id = g)
    (hset : Settled a n.currentTerm g) (hc : n.commitIndex ≤ g.length) {machine : σ}
    (hm : Lawful X.setup.machine → machine = replay X.setup.machine g) :
    Progress X a' id n.currentTerm g.length g.length g.length n.applies machine := by
  refine ⟨by omega, le_refl _, le_refl _, by rw [hlog], ?_, ?_, fun _ hc => absurd hcomp hc, ?_⟩
  · rw [hlog, Int.toNat_natCast, List.take_length]
    exact hset.mono hg.inv hx (le_refl _)
  · intro e he
    obtain ⟨h0, hi, l, hl, hget⟩ := (h.progress hs).applied e he
    have happlied := (h.progress hs).applied_le
    exact ⟨h0, by omega, l, hl.mono hg.inv hx (le_refl _), hget⟩
  · intro hlaw
    rw [hlog, Int.toNat_natCast, List.take_length]
    exact hm hlaw

/-- A snapshot whose last entry the receiver holds stands for a part of the receiver's log. -/
theorem Stored.take_isPrefix_of_covers {b j : Nat} {i t : Int}
    (hst : Stored X a id b n.currentTerm n.votedFor n.log n.snapshot n.basePeers) (hg : Good X a)
    {g : List LogEntry} (hpre : g <+: a.reign n.currentTerm)
    (hgt : n.log.lastIncludedIndexLocked < i) (hidx : i = g.length) (hend : t = endTerm g)
    (hle : j ≤ i) (hat : n.log.termAtLocked i = some t) : (a.log id).take j <+: g := by
  rw [hst.log_eq, lastIncludedIndex_render] at hgt
  rw [hst.log_eq] at hat
  obtain ⟨k, hk, _, hklen⟩ := termAt_render_some hat
  -- the position at which the term was found is in the log
  have hlen : g.length ≤ (a.log id).length := by
    have := hklen (by omega)
    omega
  rw [hidx, termAt_render (by omega) hlen, Option.some.injEq, hend] at hat
  have heq := take_eq_of_endTerm (hg.inv.logs.chained_log id)
    ((hg.inv.chained_reign _).of_isPrefix hpre) hlen (le_refl _)
    (by rw [List.take_length]; exact hat)
  rw [List.take_length] at heq
  rw [← heq]
  exact List.take_prefix_take_left (by omega)

/-- **Installing a snapshot.** The receiver's history becomes the snapshot's, and the
receiver acknowledges it. -/
theorem NodeRel.installLocked (h : NodeRel X a id n) (hg : Good X a) (hv : X.Valid)
    (hf : n.state = .follower) {req : InstallSnapshotRequest} (hreq : InstallReq X a src req)
    (hterm : n.currentTerm = req.term) (hne : src ≠ id)
    (hgt : n.log.lastIncludedIndexLocked < req.lastIncludedIndex)
    (hkeep : X.strict → InstallKeeps n req) (hK : ∀ j, K j → InstallCovers n req j) :
    ∃ a', Reached X id K a a' n (n.installLocked req) ∧
      a'.ack id req.term req.lastIncludedIndex.toNat := by
  obtain ⟨hcomp, ⟨Q, hwon⟩, g, hpre, hgne, hidx, hend, hplaced, hstrict⟩ := hreq
  rw [← hterm] at hwon hpre hstrict
  obtain ⟨b, hst⟩ := h.stored
  -- the log is not cut where it would agree
  have hkeep' : X.strict → g <+: a.log id → g = a.log id := fun hs =>
    eq_of_installKeeps (hkeep hs) hg hst hterm.le hgt hidx hend
  obtain ⟨a₁, hg₁, hl, hlog, hterm₁, hvote₁, hreign₁⟩ :=
    h.toLive.install_step hg hwon hne hpre hkeep'
  have hx := hl.toExtends
  -- the snapshot carries a configuration
  have hpeers : req.peers.isEmpty = false := hplaced.isEmpty_eq_false hv.members_ne
    (fun e he => hg.sound _ e (hpre.subset he))
  have hrender : (⟨{ term := req.lastIncludedTerm, index := req.lastIncludedIndex }, []⟩ : Log) =
      render g g.length := by
    rw [hidx, hend]
    unfold render
    rw [List.take_length, List.drop_length]
  have hcur := (n.installed req).currentTerm_eq
  have hfol := (n.installed req).state_eq
  -- nothing above it has been applied
  have happ : X.strict → n.lastApplied ≤ req.lastIncludedIndex := fun hs =>
    (h.progress hs).applied_le.trans
      ((h.toLive.commit_le_install hg hs hwon hpre (hkeep' hs)).trans hidx.ge)
  have hkept : ∀ j, K j → (a.log id).take j <+: a₁.log id := by
    intro j hj
    obtain ⟨hle, hat⟩ := hK j hj hterm.le hgt
    rw [hlog]
    exact hst.take_isPrefix_of_covers hg hpre hgt hidx hend hle hat
  have hr : Reached X id K a a₁ n (n.installLocked req) := by
    unfold RaftNode.installLocked
    rw [hrender]
    simp only [hpeers, Bool.not_false, if_true]
    refine h.reach_persist hg₁ hl ?_ rfl happ hkept
    refine { h.toLive with
      stored := ⟨g.length, ⟨hterm₁.trans hst.term_eq, by rw [hvote₁]; exact hst.vote_eq,
        by rw [hlog]; rfl, by rw [hlog], fun hc => absurd hcomp hc, ?_, fun hs => ?_,
        fun hs _ => (hstrict hs).2.1, fun hs hlaw => ?_⟩⟩
      peers_eq := peerAddrs_rebuild _
      peerIDs_eq := rfl
      candidate := fun hc => absurd (hf.symm.trans hc) (by decide)
      leader := fun hc => absurd (hf.symm.trans hc) (by decide)
      progress := fun hs => ?_
      threads := fun x hgr => (h.threads x hgr).mono hx }
    · rw [hlog, List.take_length]
      exact hplaced
    · rw [hlog, List.take_length]
      exact (hstrict hs).1.mono hg.inv hx (le_refl _)
    · rw [hlog, List.take_length]
      exact (hstrict hs).2.2 hlaw
    · obtain ⟨hset, hdata, hsnap⟩ := hstrict hs
      have hc := h.toLive.commit_le_install hg hs hwon hpre (hkeep' hs)
      -- nothing above the snapshot was committed
      have hci : (if n.commitIndex < req.lastIncludedIndex then req.lastIncludedIndex
          else n.commitIndex) = g.length := by
        split
        · exact hidx
        · omega
      show Progress X a₁ id n.currentTerm (g.length : Int)
        (if n.commitIndex < req.lastIncludedIndex then req.lastIncludedIndex else n.commitIndex)
        req.lastIncludedIndex n.applies _
      rw [hci, hidx]
      refine h.toLive.progress_install hg hs hcomp hx hlog hset hc (fun hlaw => ?_)
      have hs' := hsnap hlaw
      unfold SnapOf at hs'
      rw [if_neg hgne] at hs'
      exact restored_eq (n := _) h.snapshotter_eq hdata (hs'.2 _)
  have hpre₁ : g <+: a₁.reign (n.installLocked req).currentTerm := by
    rw [hcur, hreign₁]
    exact hpre
  -- the snapshot is acknowledged once it is saved
  refine ⟨_, hr.trans (hr.rel.acknowledge hg₁ (hfol.trans hf) hpre₁ (by rw [hlog])), ?_⟩
  have hack := ack_acknowledge a₁ id g.length
  rw [hterm₁, hst.term_eq, hterm] at hack
  rw [hidx, Int.toNat_natCast]
  exact hack

/-- A node that has compacted as far as the snapshot holds what it stands for. -/
theorem Stored.isPrefix_of_le {b : Nat}
    (hst : Stored X a id b n.currentTerm n.votedFor n.log n.snapshot n.basePeers) (hg : Good X a)
    (hs : X.strict) {Q : Finset String} {g : List LogEntry} (hwon : a.won n.currentTerm src Q)
    (hpre : g <+: a.reign n.currentTerm) (hle : g.length ≤ b) : g <+: a.log id := by
  have hset := (hst.settled hs).isPrefix_reign hg.inv (hg.inv.safe hs) hwon (le_refl _)
  have hb := hst.base_le
  have hshort : g <+: (a.log id).take b :=
    List.prefix_of_prefix_length_le hpre hset (by rw [List.length_take]; omega)
  exact hshort.trans (List.take_prefix _ _)

/-- **`HandleInstallSnapshot`.** A reply of the request's term is on record as an
acknowledgement, whether the snapshot was installed or not. -/
theorem NodeRel.handleInstallSnapshot (h : NodeRel X a id n) (hg : Good X a) (hv : X.Valid)
    {req : InstallSnapshotRequest} (hreq : InstallReq X a src req) (hne : src ≠ id)
    (hkeep : X.strict → InstallKeeps n req) (hK : ∀ j, K j → InstallCovers n req j) :
    ∃ a', Reached X id K a a' n (n.handleInstallSnapshot req).1 ∧
      ((n.handleInstallSnapshot req).2.term ≤ req.term → X.strict →
        a'.ack id req.term req.lastIncludedIndex.toNat) := by
  obtain ⟨a₁, hr₁⟩ := h.hearLeader (K := K) hg req.term req.leaderID
  have hreq₁ := hreq.mono hg hr₁.later.toExtends
  rcases n.handleInstallSnapshot_cases req with
    ⟨hlt, heq⟩ | ⟨hcur, hle, heq⟩ | ⟨hcur, hgt, heq⟩
  · rw [heq]
    exact ⟨a, h.reach_self hg, fun hle => absurd hlt (not_lt.mpr hle)⟩
  · -- the snapshot is behind the receiver's own
    rw [heq]
    obtain ⟨hterm, hf, hlog⟩ := n.hearLeader_fields (not_lt.mpr hcur) req.leaderID
    generalize n.hearLeader req.term req.leaderID = m at hr₁ hterm hf hlog ⊢
    rw [← hlog] at hle
    by_cases hs : X.strict
    · obtain ⟨_, ⟨Q, hwon⟩, g, hpre, _, hidx, _⟩ := hreq₁
      rw [← hterm] at hwon hpre
      obtain ⟨b, hst⟩ := hr₁.rel.stored
      rw [hst.log_eq, lastIncludedIndex_render] at hle
      have hheld := hst.isPrefix_of_le hr₁.good hs hwon hpre (by omega)
      refine ⟨_, hr₁.trans (hr₁.rel.acknowledge hr₁.good hf hpre hheld), fun _ _ => ?_⟩
      have hack := ack_acknowledge a₁ id g.length
      rw [hst.term_eq, hterm] at hack
      rw [hidx, Int.toNat_natCast]
      exact hack
    · exact ⟨a₁, hr₁, fun _ hs' => absurd hs' hs⟩
  -- a new snapshot
  · rw [heq]
    obtain ⟨hterm, hf, hlog⟩ := n.hearLeader_fields (not_lt.mpr hcur) req.leaderID
    generalize n.hearLeader req.term req.leaderID = m at hr₁ hterm hf hlog ⊢
    rw [← hlog] at hgt
    have hkeep₁ : X.strict → InstallKeeps m req := by
      intro hs _
      rw [hlog]
      exact hkeep hs hcur
    have hK₁ : ∀ j, K j → InstallCovers m req j := by
      intro j hj _
      rw [hlog]
      exact hK j hj hcur
    obtain ⟨a₂, hr₂, hack⟩ := hr₁.rel.installLocked hr₁.good hv hf hreq₁ hterm hne hgt
      hkeep₁ hK₁
    exact ⟨a₂, hr₁.trans hr₂, fun _ _ => hack⟩

end Refine
