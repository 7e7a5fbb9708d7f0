import RaftStore.Refine.Local

/-!
# Committing, applying and compacting keep the relation

`applyCommittedLocked` does not change what a node's history is: it applies the next
entries of it, and compaction only moves the point up to which the history is kept as a
snapshot. `advanceCommitLocked` is the protocol's commit step.
-/

namespace Refine

open Raft Consensus Cluster

variable {σ : Type} {X : Mode σ} {a a' : Chron} {id : String} {n n' : RaftNode σ}
  {K : Nat → Prop} {e : LogEntry}

/-! ## Applying -/

theorem take_succ_of_getElem? {h : List LogEntry} {k : Nat} (he : h[k]? = some e) :
    h.take (k + 1) = h.take k ++ [e] := by
  rw [List.take_add_one, he]
  rfl

/-- Applying the next entry of the settled history. -/
theorem Progress.next {term base commitIndex : Int} {k : Nat} {applies : List (Int × LogEntry)}
    {machine : σ} (h : Progress X a id term base commitIndex k applies machine)
    (hg : Good X a) (hlt : (k : Int) < commitIndex) (he : (a.log id)[k]? = some e) :
    Progress X a id term base commitIndex (k + 1)
      (match e.change with | none => applies ++ [((k : Int) + 1, e)] | some _ => applies)
      (match e.change with
        | none => X.setup.machine.apply machine { index := k + 1, command := e.command }
        | some _ => machine) := by
  have hidx : e.index = k + 1 := hg.numbered_log id k e he
  have hbase := h.base_le
  -- the calls that were made before, and the one for this entry
  have hold : ∀ x ∈ applies, 0 < x.1 ∧ x.1 ≤ (k : Int) + 1 ∧
      ∃ l, Settled a term l ∧ l[x.1.toNat - 1]? = some x.2 := by
    intro x hx
    obtain ⟨h0, hi, hl⟩ := h.applied x hx
    exact ⟨h0, by omega, hl⟩
  have hnew : 0 < (k : Int) + 1 ∧ (k : Int) + 1 ≤ (k : Int) + 1 ∧
      ∃ l, Settled a term l ∧ l[((k : Int) + 1).toNat - 1]? = some e := by
    refine ⟨by omega, le_refl _, _, h.settled, ?_⟩
    rw [show ((k : Int) + 1).toNat - 1 = k from by omega]
    exact getElem?_take_succ he (by omega)
  refine ⟨by omega, by omega, by omega, h.commit_le, h.settled, ?_, ?_, ?_⟩
  -- a change is skipped, a command is applied
  · intro x hx
    cases hc : e.change with
    | some ch =>
      rw [hc] at hx
      exact hold x hx
    | none =>
      rw [hc] at hx
      rcases List.mem_append.mp hx with hx | hlast
      · exact hold x hx
      · rw [List.mem_singleton.mp hlast]
        exact hnew
  -- in order: the calls are the entries of the log
  · intro hj hc
    rw [hg.static_of_chained hj (hg.inv.logs.chained_log id) e (List.mem_of_getElem? he),
      show ((k : Int) + 1).toNat = k + 1 from by omega, take_succ_of_getElem? he, h.inOrder hj hc,
      Int.toNat_natCast, List.map_append, List.map_singleton, hidx]
  -- the machine is the replay of one entry more
  · intro hlaw
    rw [show ((k : Int) + 1).toNat = k + 1 from by omega, take_succ_of_getElem? he, replay_snoc,
      h.machine hlaw, Int.toNat_natCast]
    cases e.change with
    | none =>
      dsimp only
      rw [hidx]
    | some ch => rfl

/-- One round of the loop. The snapshot lies below what is applied, so the entry found in
the slice is the history's own. -/
theorem NodeRel.applyNext (h : NodeRel X a id n) (hg : Good X a)
    (hlt : n.lastApplied < n.commitIndex)
    (he : n.log.entryAtLocked (n.lastApplied + 1) = some e) :
    Reached X id K a a n (n.applyNext (n.lastApplied + 1) e) := by
  have hmid : n.applyNext (n.lastApplied + 1) e =
      { n with
        lastApplied := n.lastApplied + 1
        applies := match e.change with
          | none => n.applies ++ [(n.lastApplied + 1, e)]
          | some _ => n.applies
        machine := match e.change with
          | none =>
            X.setup.machine.apply n.machine { index := n.lastApplied + 1, command := e.command }
          | some _ => n.machine } := by
    unfold RaftNode.applyNext
    cases hc : e.change with
    | none => simp only [h.apply_eq]
    | some ch => simp only [h.apply_eq]
  rw [hmid]
  refine h.reach hg (Later.refl id a) { h.toLive with progress := fun hs => ?_ } rfl rfl
    (fun _ => by show n.lastApplied ≤ n.lastApplied + 1; omega) kept_log
  have hp := h.progress hs
  obtain ⟨b, hst⟩ := h.stored
  have hbase := hp.base_le
  rw [hst.log_eq, lastIncludedIndex_render] at hbase
  -- the next entry stands at position `k` of the history
  obtain ⟨k, hk⟩ : ∃ k : Nat, n.lastApplied = k := ⟨n.lastApplied.toNat, by omega⟩
  rw [hk] at hlt hp hbase ⊢
  rw [hst.log_eq, hk, show ((k : Int) + 1) = ((k + 1 : Nat) : Int) from by omega,
    entryAt_render (by omega), Nat.add_sub_cancel] at he
  exact hp.next hg hlt he

/-- The loop keeps the relation. -/
theorem NodeRel.applyLoop (h : NodeRel X a id n) (hg : Good X a) (k : Nat) :
    Reached X id K a a n (RaftNode.applyLoop k n) := by
  induction k generalizing n with
  | zero => exact h.reach_self hg
  | succ k ih =>
    unfold RaftNode.applyLoop
    split
    · next hlt =>
      cases he : n.log.entryAtLocked (n.lastApplied + 1) with
      | none => exact h.reach_self hg
      | some e =>
        have hr := h.applyNext (K := K) hg hlt he
        exact hr.trans (ih hr.rel)
    · exact h.reach_self hg

/-! ## Compacting -/

/-- The changes up to an index, read off a numbered history. -/
theorem takeWhile_drop {h : List LogEntry} (hn : Numbered h) (b i : Nat) :
    (h.drop b).takeWhile (fun e => decide (e.index ≤ (i : Int))) = (h.drop b).take (i - b) := by
  obtain ⟨k, hk⟩ : ∃ k, k = h.length - b := ⟨_, rfl⟩
  induction k generalizing b with
  | zero => rw [List.drop_of_length_le (by omega)]; simp
  | succ k ih =>
    rw [List.drop_eq_getElem_cons (by omega)]
    have hidx := hn b _ (List.getElem?_eq_getElem (by omega))
    rw [List.takeWhile_cons, hidx]
    -- up to index `i`, and not further
    rcases Nat.lt_or_ge b i with hlt | hge
    · rw [decide_eq_true (by omega), if_pos rfl, ih (b + 1) (by omega),
        show i - b = (i - (b + 1)) + 1 from by omega, List.take_succ_cons]
    · rw [decide_eq_false (by omega), show i - b = 0 from by omega]
      rfl

theorem peerAddrs_rebuild (n : RaftNode σ) :
    n.rebuildMembershipLocked.notifyPeersLocked.peerAddrs = peersAfter n.basePeers n.log.tail :=
  fst_foldl_applyEntry _ _ _

/-- The slice and the base configuration after compacting at `i`, read off the history. -/
theorem Live.compactTo_eq (h : Live X a id n) (hg : Good X a) {b i : Nat}
    (hst : Stored X a id b n.currentTerm n.votedFor n.log n.snapshot n.basePeers)
    (hbi : b < i) (he : n.log.entryAtLocked i = some e) (hlast : n.lastApplied = i) :
    i ≤ (a.log id).length ∧
    (⟨{ term := e.term, index := n.lastApplied },
      n.log.slice (n.log.sliceIndexLocked n.lastApplied + 1)⟩ : Log) = render (a.log id) i ∧
    Placed X.members X.joiners (n.membershipAtLocked n.lastApplied).1 ((a.log id).take i) ∧
    peersAfter (n.membershipAtLocked n.lastApplied).1 ((a.log id).drop i) = n.peerAddrs := by
  have hlog := hst.log_eq
  rw [hlog, entryAt_render hbi] at he
  have hlen := (List.getElem?_eq_some_iff.mp he).1
  have hterm : endTerm ((a.log id).take i) = e.term := by
    have := endTerm_take_succ he
    rwa [show i - 1 + 1 = i from by omega] at this
  -- the configuration at the cut, folded from the base
  have hbase : (n.membershipAtLocked n.lastApplied).1 =
      peersAfter n.basePeers (((a.log id).drop b).take (i - b)) := by
    unfold RaftNode.membershipAtLocked
    rw [fst_foldl_applyEntry, hlog, hlast]
    show peersAfter _ (((a.log id).drop b).takeWhile _) = _
    rw [takeWhile_drop (hg.numbered_log id)]
  refine ⟨by omega, ?_, ?_, ?_⟩
  -- the log, cut at the later index
  · have hsi : n.log.sliceIndexLocked n.lastApplied + 1 = (i : Int) - b + 1 := by
      rw [hlog, hlast]
      rfl
    rw [hsi, hlog, slice_render (by omega), hlast, ← hterm]
    rfl
  -- the configuration there is placed in the history
  · have hsplit : (a.log id).take b ++ ((a.log id).drop b).take (i - b) = (a.log id).take i := by
      rw [← List.take_add, show b + (i - b) = i from by omega]
    rw [hbase, ← hsplit]
    exact hst.placed.append (fun x hx =>
      hg.sound_log id x (List.mem_of_mem_drop (List.mem_of_mem_take hx)))
  -- and the rest of the log leads to the present one
  · have hcat := List.take_append_drop (i - b) ((a.log id).drop b)
    rw [List.drop_drop, show b + (i - b) = i from by omega] at hcat
    rw [hbase, ← peersAfter_append, hcat, h.peers_eq, hlog]
    rfl

/-- **Compaction at the last applied index.** The history stays; what moves is the part of
it that the snapshot stands for. -/
theorem NodeRel.compactTo (h : NodeRel X a id n) (hg : Good X a) (hv : X.Valid)
    (hcomp : X.compacting) {data : Bytes}
    (hgt : ¬ n.lastApplied ≤ n.log.lastIncludedIndexLocked)
    (he : n.log.entryAtLocked n.lastApplied = some e)
    (hd : X.setup.machine.snapshotter.snapshot n.machine = some data) :
    Reached X id K a a n (n.compactTo n.lastApplied e data) := by
  obtain ⟨b, hst⟩ := h.stored
  rw [hst.log_eq, lastIncludedIndex_render] at hgt
  obtain ⟨i, hi⟩ : ∃ i : Nat, n.lastApplied = i := ⟨n.lastApplied.toNat, by omega⟩
  -- the history stays: the log is the same history cut at a later index
  obtain ⟨hlen, hlog, hplaced, hpeers⟩ :=
    h.toLive.compactTo_eq hg hst (by omega) (hi ▸ he) hi
  unfold RaftNode.compactTo
  rw [hlog]
  refine h.reach_persist hg (Later.refl id a) ?_ rfl (fun _ => le_refl _) kept_log
  -- the members stay the same
  have hmp := (peerAddrs_rebuild (σ := σ)
    { n with
      log := render (a.log id) i
      snapshot := data
      basePeers := (n.membershipAtLocked n.lastApplied).1
      baseHTTP := (n.membershipAtLocked n.lastApplied).2 }).trans hpeers
  refine { h.toLive with
    stored := ⟨i, { hst with
      log_eq := rfl, base_le := hlen, base_zero := fun hc => absurd hcomp hc, placed := hplaced,
      settled := fun hs => ?_, nonempty := fun hs _ => hv.snapshots hs hcomp _ _ hd,
      snap := fun hs hlaw => ?_ }⟩
    peers_eq := hmp.trans hpeers.symm
    peerIDs_eq := rfl
    candidate := fun hc => by rw [hmp]; exact h.candidate hc
    leader := fun hc => by rw [hmp]; exact h.leader hc
    progress := fun hs => { h.progress hs with base_le := ?_ } }
  -- what is cut was applied, so it is settled
  · refine (h.progress hs).settled.of_isPrefix (List.take_prefix_take_left ?_)
    have := (h.progress hs).applied_le
    omega
  · -- the snapshot is of the machine at the applied index, where the log is cut
    have hne : (a.log id).take i ≠ [] := by
      apply List.ne_nil_of_length_pos
      rw [List.length_take]
      omega
    have hmach := (h.progress hs).machine hlaw
    rw [hi, Int.toNat_natCast] at hmach
    rw [hmach] at hd
    unfold SnapOf
    rw [if_neg hne]
    exact hlaw _ _ hd
  · show (i : Int) ≤ n.lastApplied
    omega

/-- A compaction keeps the relation, where it is allowed. -/
theorem NodeRel.maybeCompact (h : NodeRel X a id n) (hg : Good X a) (hv : X.Valid) :
    Reached X id K a a n n.maybeCompactLocked := by
  rcases n.maybeCompact_cases with ⟨hsame, _⟩ | ⟨e, data, hdue, hcompact⟩
  · rw [hsame]
    exact h.reach_self hg
  · obtain ⟨s, hs, hdata⟩ := hdue.hook
    rw [h.snapshotter_eq, Option.some.injEq] at hs
    rw [hcompact]
    refine h.compactTo hg hv ?_ (not_le.mpr hdue.head_lt) hdue.entry (hs ▸ hdata)
    -- where nobody compacts, the threshold is not positive
    by_contra hno
    have hoff := hv.threshold hno id
    rw [← h.threshold_eq] at hoff
    exact absurd hdue.positive (not_lt.mpr hoff)

theorem NodeRel.applyCommitted (h : NodeRel X a id n) (hg : Good X a) (hv : X.Valid) :
    Reached X id K a a n n.applyCommittedLocked := by
  have hr := h.applyLoop (K := K) hg (n.commitIndex - n.lastApplied).toNat
  exact hr.trans (hr.rel.maybeCompact hg hv)

/-! ## Committing -/

/-- The members counted by `replicas`. -/
def holders (n : RaftNode σ) (i : Int) : Finset String :=
  (n.peerIDs.filter (fun p => i ≤ n.matchIndex p)).toFinset

theorem le_of_mem_holders {i : Int} {p : String} (hp : p ∈ holders n i) : i ≤ n.matchIndex p := by
  unfold holders at hp
  rw [List.mem_toFinset, List.mem_filter] at hp
  exact of_decide_eq_true hp.2

/-- The holders that are counted are a majority of the members. -/
theorem Live.majority_holders (h : Live X a id n) {i : Int} (hmaj : n.majority ≤ n.replicas i) :
    Majority (holders n i) n.peerAddrs.keys.toFinset := by
  have hnd : n.peerIDs.Nodup := by
    rw [h.peerIDs_eq]
    exact n.peerAddrs.keys_nodup
  refine ⟨?_, ?_⟩
  · rw [← h.peerIDs_eq]
    intro p hp
    exact List.mem_toFinset.mpr (List.mem_of_mem_filter (List.mem_toFinset.mp hp))
  · unfold holders
    rw [List.toFinset_card_of_nodup (hnd.filter _), ← List.countP_eq_length_filter, ← h.peerIDs_eq,
      List.toFinset_card_of_nodup hnd]
    exact hmaj

/-- **A leader commits.** Under `strict` this is the protocol's commit; otherwise nothing
depends on the commit index. -/
theorem NodeRel.commitTo (h : NodeRel X a id n) (hg : Good X a) (hld : n.state = .leader) {i : Int}
    (hlt : n.commitIndex < i) (hterm : n.log.termAtLocked i = some n.currentTerm)
    (hmaj : n.majority ≤ n.replicas i) :
    ∃ a', Reached X id K a a' n { n with commitIndex := i } := by
  have hL := h.leader hld
  by_cases hs : X.strict
  swap
  -- without the strict rules nothing is said about commits
  · refine ⟨a, h.reach hg (Later.refl id a) { h.toLive with
      leader := fun _ => { hL with
        own_le := fun hc => absurd hc hs, own_commit := fun hc => absurd hc hs }
      progress := fun hc => absurd hc hs } rfl rfl (fun _ => le_refl _) kept_log⟩
  have hp := h.progress hs
  obtain ⟨b, hst⟩ := h.stored
  obtain ⟨Q, hwon⟩ := hL.won
  have hbase := hp.base_le
  have hle := hp.applied_le
  have hnn := hp.applied_nonneg
  rw [hst.log_eq, lastIncludedIndex_render] at hbase
  rw [hst.log_eq] at hterm
  obtain ⟨k, rfl, hbk, hklen⟩ := termAt_render_some hterm
  have hk : k ≤ (a.log id).length := hklen (by omega)
  rw [termAt_render hbk hk, Option.some.injEq] at hterm
  have hreign : a.reign (a.term id) = a.log id :=
    (hg.inv.logs.leader_log (by rw [hst.term_eq]; exact hwon) rfl).symm
  -- the entry at the index, and the members that hold it
  obtain ⟨e, he⟩ : ∃ e, (a.log id)[k - 1]? = some e := ⟨_, List.getElem?_eq_getElem (by omega)⟩
  have heT : e.term = n.currentTerm := by
    rw [← hterm, ← endTerm_take_succ he, show k - 1 + 1 = k from by omega]
  have hquorum : Majority (holders n k) ((scheme X.members).conf (a.reign (a.term id))) := by
    have hm := h.toLive.majority_holders hmaj
    rw [hL.peers] at hm
    rw [hreign]
    exact hm
  -- what is counted was acknowledged in this term
  have hacks : ∀ q ∈ holders n k, ∃ m, k ≤ m ∧ a.ack q (a.term id) m := by
    intro q hq
    have hq' := le_of_mem_holders hq
    refine ⟨(n.matchIndex q).toNat, by omega, ?_⟩
    rw [hst.term_eq]
    exact hL.tracked hs q (by omega)
  -- so the protocol allows the commit
  have hstep : Step (scheme X.members) X.strict id a (a.seal id k) :=
    Step.commit (by rw [hst.term_eq]; exact hwon) (by omega) (by rw [hreign]; exact he)
      (by rw [hst.term_eq]; exact heT) hquorum hacks
  obtain ⟨hg', hl⟩ := hg.of_step hstep (fun _ => rfl)
  have hnew : (a.seal id k).commit n.currentTerm k (a.reign (a.term id)).length :=
    Or.inr ⟨hst.term_eq.symm, rfl, rfl⟩
  refine ⟨a.seal id k, h.reach hg' hl { h.toLive with
    stored := ⟨b, hst.mono hl.toExtends rfl hg hst.term_eq hst.vote_eq (le_refl _)⟩
    candidate := fun hc => absurd (hld.symm.trans hc) (by decide)
    leader := fun _ => { hL with
      own_le := fun _ => ?_, own_commit := fun _ _ _ => ⟨_, hnew⟩ }
    progress := fun _ => { hp.mono hl.toExtends rfl hg (le_refl _) with
      applied_le := hle.trans hlt.le, commit_le := by show (k : Int) ≤ _; exact_mod_cast hk
      settled := Or.inr ⟨_, _, _, hnew, le_refl _, ?_⟩ }
    threads := fun g hgr => (h.threads g hgr).mono hl.toExtends } rfl rfl
      (fun _ => le_refl _) kept_log⟩
  · rintro j L (hold | ⟨_, rfl, _⟩)
    · exact (hL.own_le hs hold).trans hlt.le
    · exact le_refl _
  · show (a.log id).take (k : Int).toNat <+: (a.reign n.currentTerm).take k
    rw [← hst.term_eq, hreign, Int.toNat_natCast]

/-- Advancing the commit index keeps the relation. -/
theorem NodeRel.advanceCommit (h : NodeRel X a id n) (hg : Good X a) (hld : n.state = .leader) :
    ∃ a', Reached X id K a a' n n.advanceCommitLocked := by
  rcases n.advanceCommit_cases with ⟨heq, _⟩ | ⟨i, heq, hlt, _, hc, _⟩
  · rw [heq]
    exact ⟨a, h.reach_self hg⟩
  · rw [heq]
    exact h.commitTo hg hld hlt hc.term hc.held

end Refine
