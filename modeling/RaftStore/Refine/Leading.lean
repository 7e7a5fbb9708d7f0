import RaftStore.Refine.Applying

/-!
# Winning, proposing and counting

The critical sections in which a node acts as a leader. `becomeLeaderLocked` is the
protocol's win, `Propose` and `AddServer`/`RemoveServer` extend the leader's log, and each
of them acknowledges the new entry on the leader's own behalf, since the leader counts
itself. A reply that confirms a peer's log moves `matchIndex`, which is all the commit rule
looks at.
-/

namespace Refine

open Raft Consensus Cluster

variable {σ : Type} {X : Mode σ} {a a' : Chron} {id : String} {n n' : RaftNode σ}
  {K : Nat → Prop}

/-! ## A log that grows by one entry -/

/-- A leader appends `e` and acknowledges it. -/
def grown (a : Chron) (id : String) (e : LogEntry) : Chron :=
  (a.append id e).acknowledge id ((a.log id).length + 1)

/-- A candidate wins with the votes of `Q`, appends `e` and acknowledges it. -/
def elected (a : Chron) (id : String) (Q : Finset String) (e : LogEntry) : Chron :=
  (a.win id Q e).acknowledge id ((a.log id).length + 1)

section Snoc

variable {e : LogEntry} (hx : Extends a a') (hlog : a'.log id = a.log id ++ [e])

include hx hlog

/-- What is stored of a log, after one entry more. -/
theorem Stored.snoc {b : Nat} {term : Int} {v : String} {log : Log} {snapshot : Bytes}
    {basePeers : AddrMap} (h : Stored X a id b term v log snapshot basePeers) (hg : Good X a)
    (hterm : a'.term id = a.term id) (hvote : a'.vote id = a.vote id) :
    Stored X a' id b term v (log.append [e]) snapshot basePeers := by
  -- the compacted part is the same
  have htake : (a'.log id).take b = (a.log id).take b := by
    rw [hlog, List.take_append_of_le_length h.base_le]
  refine ⟨hterm.trans h.term_eq, by rw [hvote]; exact h.vote_eq, ?_, ?_, h.base_zero, ?_, ?_,
    h.nonempty, ?_⟩
  · rw [hlog, h.log_eq, append_render h.base_le]
  · rw [hlog, List.length_append]
    have := h.base_le
    omega
  · rw [htake]
    exact h.placed
  · intro hs
    rw [htake]
    exact (h.settled hs).mono hg.inv hx (le_refl _)
  · rw [htake]
    exact h.snap

/-- Progress along a log, after one entry more. -/
theorem Progress.snoc {term base commitIndex lastApplied : Int} {applies : List (Int × LogEntry)}
    {machine : σ} (h : Progress X a id term base commitIndex lastApplied applies machine)
    (hg : Good X a) : Progress X a' id term base commitIndex lastApplied applies machine := by
  have hc := h.commit_le
  have hl := h.applied_le
  -- so are the committed and the applied part
  have htake : ∀ k : Int, k ≤ commitIndex →
      (a'.log id).take k.toNat = (a.log id).take k.toNat := by
    intro k hk
    rw [hlog, List.take_append_of_le_length (by omega)]
  refine ⟨h.applied_nonneg, h.base_le, hl, ?_, ?_, ?_, ?_, ?_⟩
  · rw [hlog, List.length_append]
    omega
  · rw [htake _ (le_refl _)]
    exact h.settled.mono hg.inv hx (le_refl _)
  · intro x hm
    obtain ⟨h0, hi, l, hset, hget⟩ := h.applied x hm
    exact ⟨h0, hi, l, hset.mono hg.inv hx (le_refl _), hget⟩
  · rw [htake _ hl]
    exact h.inOrder
  · rw [htake _ hl]
    exact h.machine

end Snoc

theorem log_grown (a : Chron) (id : String) (e : LogEntry) :
    (grown a id e).log id = a.log id ++ [e] := log_append_self id e

theorem isPrefix_grown (a : Chron) (id : String) (e : LogEntry) :
    a.log id <+: (grown a id e).log id := by
  rw [log_grown]
  exact List.prefix_append _ _

theorem ack_grown (a : Chron) (id : String) (e : LogEntry) :
    (grown a id e).ack id (a.term id) ((a.log id).length + 1) := Or.inr ⟨rfl, rfl, rfl⟩

/-- The step that acknowledges an entry just appended. -/
theorem Step.ack_appended {e : LogEntry} (hreign : a'.reign = (a.append id e).reign)
    (hlog : a'.log = (a.append id e).log) (hterm : a'.term = a.term) :
    Step (scheme X.members) X.strict id a' (a'.acknowledge id ((a.log id).length + 1)) := by
  have hr : a'.reign (a'.term id) = a.log id ++ [e] := by
    rw [hreign, hterm]
    exact reign_append_self id e
  refine Step.ack ?_ ?_
  · rw [hr]
    simp
  · rw [hr, hlog, log_append_self]
    exact List.take_prefix _ _

/-- **A leader's append is the protocol's.** -/
theorem Good.grow (hg : Good X a) {Q : Finset String} {e : LogEntry}
    (hwon : a.won (a.term id) id Q) (hterm : e.term = a.term id)
    (hidx : e.index = (a.log id).length + 1) (hs : Sound e) (hst : ¬ X.joiners → e.change = none)
    (hconf : e.change ≠ none → X.strict ∧
      Overlap ((scheme X.members).conf (a.log id)) ((scheme X.members).conf (a.log id ++ [e])) ∧
      ∃ i L, a.commit (a.term id) i L ∧
        ∀ (k : Nat) (x : LogEntry), (a.log id)[k]? = some x → x.change ≠ none → k < i) :
    Good X (grown a id e) ∧ Later id a (grown a id e) := by
  obtain ⟨h1, l1⟩ := hg.of_append (Step.extend hwon hterm hconf) rfl hidx hs hst
  obtain ⟨h2, l2⟩ := h1.of_step (Step.ack_appended (e := e) rfl rfl rfl) (fun _ => rfl)
  exact ⟨h2, l1.trans l2⟩

/-- A leader with one entry more. -/
theorem LeaderRel.grow {term commitIndex : Int} {peers peers' : AddrMap}
    {matchIndex : String → Int} {e : LogEntry}
    (h : LeaderRel X a id term peers matchIndex commitIndex) (hx : Extends a (grown a id e))
    (hle : X.strict → commitIndex ≤ (a.log id).length)
    (hpeers : peers' = peersAfter X.members (a.log id ++ [e])) :
    LeaderRel X (grown a id e) id term peers' matchIndex commitIndex := by
  obtain ⟨Q, hw⟩ := h.won
  refine ⟨⟨Q, hw⟩, by rw [log_grown]; exact hpeers, fun hs p hp => hx.ack_mono (h.tracked hs p hp),
    fun hs => h.own_le hs, ?_⟩
  -- what it committed lies within the old log
  intro hs hpos hend
  have := hle hs
  rw [log_grown, List.take_append_of_le_length (by omega)] at hend
  exact h.own_commit hs hpos hend

/-- The relation after a leader's append. `peers` is the configuration with the entry. -/
theorem Live.grow (h : Live X a id n) (hg : Good X a) (hld : n.state = .leader) {e : LogEntry}
    (hl : Later id a (grown a id e)) (hn' : n' = { n with
      log := n.log.append [e], peerAddrs := n'.peerAddrs, peerHTTP := n'.peerHTTP,
      peerIDs := n'.peerIDs })
    (hids : n'.peerIDs = n'.peerAddrs.keys)
    (hbase : n'.peerAddrs = peersAfter n.basePeers (n.log.tail ++ [e]))
    (hpeers : n'.peerAddrs = peersAfter X.members (a.log id ++ [e])) :
    Live X (grown a id e) id n' := by
  obtain ⟨b, hst⟩ := h.stored
  have hx := hl.toExtends
  have hlog := log_grown a id e
  rw [hn']
  exact { h with
    stored := ⟨b, hst.snoc hx hlog hg rfl rfl⟩
    peers_eq := hbase
    peerIDs_eq := hids
    candidate := fun hc => absurd (hld.symm.trans hc) (by decide)
    leader := fun _ => (h.leader hld).grow hx (fun hs => (h.progress hs).commit_le) hpeers
    progress := fun hs => (h.progress hs).snoc hx hlog hg
    threads := fun g hgr => (h.threads g hgr).mono hx }

/-! ## Tracking -/

/-- A peer's match index moves to what the peer has acknowledged. -/
theorem Live.track (h : Live X a id n) {p : String} {i : Int}
    (hack : n.state = .leader → X.strict → a.ack p n.currentTerm i.toNat)
    (next : String → Option Int) :
    Live X a id { n with matchIndex := Function.update n.matchIndex p i, nextIndex := next } := by
  refine { h with leader := fun hld => { h.leader hld with tracked := ?_ } }
  intro hs q hq
  -- the peer that has answered, and the others
  by_cases hqp : q = p
  · subst hqp
    show a.ack q _ (Function.update n.matchIndex q i q).toNat
    rw [Function.update_self]
    exact hack hld hs
  · have hne : Function.update n.matchIndex p i q = n.matchIndex q := Function.update_of_ne hqp ..
    show a.ack q _ (Function.update n.matchIndex p i q).toNat
    rw [hne]
    have hq' : 0 < Function.update n.matchIndex p i q := hq
    rw [hne] at hq'
    exact (h.leader hld).tracked hs q hq'

/-- The sections of `Propose` and of a membership change after the append. -/
theorem NodeRel.appended (h : NodeRel X a id n) (hg : Good X a') (hv : X.Valid)
    (hl : Later id a a') (hlog : a.log id <+: a'.log id) (hlive : Live X a' id n')
    (hst : n'.storage = n.storage) (happ : n.lastApplied = n'.lastApplied)
    (hld : n'.state = .leader) {i : Int} (hack : a'.ack id n'.currentTerm i.toNat) :
    ∃ a'', Reached X id K a a'' n (n'.appended i) ∧ Later id a' a'' ∧ a'.log id <+: a''.log id := by
  -- the append is saved, tracked, counted and sent, one after the other
  have hr₁ : Reached X id (fun _ => True) a a' n n'.persistLocked :=
    h.reach_persist hg hl hlive hst (fun _ => happ.le)
      (fun _ _ => (List.take_prefix _ _).trans hlog)
  have hr₂ : Reached X id (fun _ => True) a' a' n'.persistLocked
      (n'.persistLocked.trackSelf i) := by
    refine hr₁.rel.reach hg (Later.refl id a') ?_ rfl rfl (fun _ => le_refl _) kept_log
    refine hr₁.rel.toLive.track (fun _ _ => ?_) _
    show a'.ack n'.id n'.currentTerm i.toNat
    rw [hlive.id_eq]
    exact hack
  obtain ⟨a'', hr₃⟩ := hr₂.rel.advanceCommit (K := fun _ => True) hg hld
  have hr₄ := hr₃.rel.applyCommitted (K := fun _ => True) hr₃.good hv
  have hr := hr₂.trans (hr₃.trans (hr₄.trans (hr₄.rel.broadcast hr₃.good)))
  exact ⟨a'', (hr₁.trans hr).weaken, hr₃.later, hr.isPrefix⟩

/-! ## Proposals -/

theorem Live.lastLogIndex_eq (h : Live X a id n) (hg : Good X a) :
    n.log.lastLogIndexLocked = (a.log id).length := by
  obtain ⟨b, hst⟩ := h.stored
  rw [hst.log_eq, lastLogIndex_render (hg.numbered_log id) hst.base_le]

theorem Live.contiguous (h : Live X a id n) (hg : Good X a) : n.log.Contiguous := by
  obtain ⟨b, hst⟩ := h.stored
  rw [hst.log_eq]
  exact contiguous_render (hg.numbered_log id) b

/-- A leader has won its term. -/
theorem Live.won (h : Live X a id n) (hld : n.state = .leader) :
    a.term id = n.currentTerm ∧ ∃ Q, a.won (a.term id) id Q := by
  obtain ⟨b, hst⟩ := h.stored
  refine ⟨hst.term_eq, ?_⟩
  rw [hst.term_eq]
  exact (h.leader hld).won

/-- **`Propose`.** A successful call has put the command on record: at the index and in the
term it returns, in the node's own log and in that of the term's leader. -/
theorem NodeRel.propose (h : NodeRel X a id n) (hg : Good X a) (hv : X.Valid) (cmd : Bytes) :
    ∃ a', Reached X id K a a' n (n.propose cmd).1 ∧
      ∀ i t, (n.propose cmd).2 = .ok (i, t) → 0 < i ∧
        (a'.reign t)[i.toNat - 1]? = some { term := t, index := i, command := cmd } ∧
        (a'.log id)[i.toNat - 1]? = some { term := t, index := i, command := cmd } := by
  rcases n.propose_cases cmd with ⟨err, heq⟩ | ⟨⟨_, hld⟩, heq⟩
  -- the proposal is refused
  · rw [heq]
    exact ⟨a, h.reach_self hg, by intro i t hok; cases hok⟩
  rw [heq]
  obtain ⟨hterm, Q, hwon⟩ := h.toLive.won hld
  have hlast := h.toLive.lastLogIndex_eq hg
  set e : LogEntry :=
    { term := n.currentTerm, index := n.log.lastLogIndexLocked + 1, command := cmd } with he
  obtain ⟨hg₁, hl₁⟩ := hg.grow (e := e) hwon hterm.symm (by rw [he, hlast])
    (fun ch hc => by cases hc) (fun _ => rfl) (fun hc => absurd rfl hc)
  have hlive : Live X (grown a id e) id { n with log := n.log.append [e] } := by
    refine h.toLive.grow hg hld hl₁ rfl h.peerIDs_eq ?_ ?_
    · rw [peersAfter_snoc_none rfl]
      exact h.peers_eq
    · rw [peersAfter_snoc_none rfl]
      exact (h.leader hld).peers
  have hack : (grown a id e).ack id n.currentTerm (n.log.lastLogIndexLocked + 1).toNat := by
    rw [← hterm, hlast]
    exact ack_grown a id e
  -- the entry enters the history first; what `appended` does after that leaves it there
  obtain ⟨a', hr, hl₂, hlog₂⟩ :=
    h.appended (K := K) hg₁ hv hl₁ (isPrefix_grown a id e) hlive rfl rfl hld hack
  refine ⟨a', hr, ?_⟩
  intro i t hok
  -- the index and the term that are returned
  obtain ⟨rfl, rfl⟩ : i = n.log.lastLogIndexLocked + 1 ∧ t = n.currentTerm := by
    cases hok
    exact ⟨rfl, rfl⟩
  have hget : (a.log id ++ [e])[(n.log.lastLogIndexLocked + 1).toNat - 1]? = some e := by
    rw [hlast, show ((a.log id).length + 1 : Int).toNat - 1 = (a.log id).length from by omega,
      List.getElem?_concat_length]
  refine ⟨by omega, getElem?_of_isPrefix (hl₂.reign_mono _) ?_, getElem?_of_isPrefix hlog₂ ?_⟩
  · show ((a.append id e).reign n.currentTerm)[_]? = _
    rw [← hterm, reign_append_self]
    rw [← hterm] at he
    rw [hget, he]
  · rw [log_grown]
    exact hget

/-! ## Membership changes -/

/-- Tracking new peers counts nothing for them. -/
theorem Live.ensurePeerTracking (h : Live X a id n) : Live X a id n.ensurePeerTrackingLocked := by
  obtain ⟨next, mi, heq, hmi⟩ := n.ensurePeerTracking_eq
  rw [heq]
  refine { h with leader := fun hld => { h.leader hld with tracked := ?_ } }
  intro hs p hp
  have hp' : 0 < mi p := hp
  rcases hmi p with heq' | heq'
  · show a.ack p _ (mi p).toNat
    rw [heq'] at hp' ⊢
    exact (h.leader hld).tracked hs p hp'
  -- a new peer starts at zero
  · omega

/-- An accepted change adds or removes one server, and leaves servers with names. -/
theorem changedPeers_ok {ch : MembershipChange} {c : AddrMap × AddrMap}
    (hok : n.changedPeers ch = .ok c) (hid : ch.id ≠ "") (hids : n.peerIDs = n.peerAddrs.keys)
    (hname : "" ∉ n.peerAddrs.keys) :
    Overlap n.peerAddrs.keys.toFinset c.1.keys.toFinset ∧ c.1.isEmpty = false ∧
      "" ∉ c.1.keys := by
  refine ⟨?_, RaftNode.changedPeers_isEmpty hok hids, ?_⟩
  -- one server more or less: the majorities meet
  · rcases RaftNode.changedPeers_cases hok with ⟨_, _, hset⟩ | ⟨_, _, _, _, herase⟩
    · rw [hset, OrdMap.keys_set_toFinset]
      exact overlap_insert _ _
    · rw [herase, OrdMap.keys_erase_toFinset]
      exact overlap_erase _ _
  -- and the new names are not empty
  · rcases RaftNode.changedPeers_cases hok with ⟨_, _, hset⟩ | ⟨_, _, _, _, herase⟩
    · simp [hset, hname, hid.symm]
    · simp [herase, hname]

/-- **The gate.** A leader that has committed in its term and holds no uncommitted change
has committed every change of its log. -/
theorem Live.gate (h : Live X a id n) (hs : X.strict) (hg : Good X a) (hld : n.state = .leader)
    (hcur : n.committedCurrentTermLocked = true) (hno : n.hasUncommittedConfigLocked = false) :
    ∃ i L, a.commit (a.term id) i L ∧
      ∀ (k : Nat) (x : LogEntry), (a.log id)[k]? = some x → x.change ≠ none → k < i := by
  obtain ⟨hterm, Q, hwon⟩ := h.won hld
  obtain ⟨b, hst⟩ := h.stored
  have hp := h.progress hs
  have hlast := h.lastLogIndex_eq hg
  have hbase := hp.base_le
  have h1 := hp.applied_le
  have h2 := hp.commit_le
  rw [hst.log_eq, lastIncludedIndex_render] at hbase
  obtain ⟨c, hc⟩ : ∃ c : Nat, n.commitIndex = c := ⟨n.commitIndex.toNat, by omega⟩
  have hcur' := of_decide_eq_true hcur
  rw [hc] at h1 h2
  rw [hst.log_eq, hc, termAt_render (by omega) (by omega), Option.some.injEq] at hcur'
  -- something was committed in the leader's term
  have hpos : 0 < c := by
    by_contra h0
    rw [show c = 0 from by omega, List.take_zero, endTerm_nil] at hcur'
    have := (hg.inv.won_le hwon).1
    omega
  -- so the leader has committed an entry of its own
  obtain ⟨L, hL⟩ := (h.leader hld).own_commit hs (by omega)
    (by rw [hc, Int.toNat_natCast]; exact hcur')
  refine ⟨c, L, ?_, ?_⟩
  · rw [hterm]
    rwa [hc, Int.toNat_natCast] at hL
  · intro k x hx hch
    by_contra hge
    have hklen := (List.getElem?_eq_some_iff.mp hx).1
    -- an uncommitted change would have been seen
    have hseen : n.log.entryAtLocked (n.commitIndex + 1 + ((k - c : Nat) : Int)) = some x := by
      rw [hst.log_eq, hc,
        show (c : Int) + 1 + ((k - c : Nat) : Int) = ((k + 1 : Nat) : Int) from by omega,
        entryAt_render (by omega), Nat.add_sub_cancel]
      exact hx
    unfold RaftNode.hasUncommittedConfigLocked at hno
    have hk := List.any_eq_false.mp hno (k - c)
      (List.mem_range.mpr (by rw [hlast, hc]; omega))
    rw [hseen] at hk
    exact hk (Option.isSome_iff_ne_none.mpr hch)

/-- **A membership change.** -/
theorem NodeRel.proposeChange (h : NodeRel X a id n) (hg : Good X a) (hv : X.Valid)
    (hs : X.strict) (hj : X.joiners) {ch : MembershipChange} (hid : ch.id ≠ "")
    (hcur : n.state = .leader → n.committedCurrentTermLocked = true) :
    ∃ a', Reached X id K a a' n (n.proposeChangeLocked ch).1 := by
  rcases n.proposeChange_cases ch with ⟨err, hres⟩ | ⟨c, hok, ⟨_, hld, hno⟩, hres⟩
  · rw [hres]
    exact ⟨a, h.reach_self hg⟩
  rw [hres]
  obtain ⟨hterm, Q, hwon⟩ := h.toLive.won hld
  have hlast := h.toLive.lastLogIndex_eq hg
  have hpeers := (h.leader hld).peers
  -- nobody has an empty name
  have hname : "" ∉ n.peerAddrs.keys := by
    rw [hpeers]
    exact nameless_not_mem hv.named (hg.sound_log id)
  obtain ⟨hov, hne, hname'⟩ := changedPeers_ok hok hid h.peerIDs_eq hname
  set e : LogEntry :=
    { term := n.currentTerm, index := n.log.lastLogIndexLocked + 1,
      change := some { ch with peers := c.1, httpAddrs := c.2 } } with he
  have hsound : Sound e := by
    intro ch' hc
    cases hc
    exact ⟨hne, hname'⟩
  -- the entry carries its whole configuration, so what came before does not matter
  have hafter : ∀ base h, peersAfter base (h ++ [e]) = c.1 :=
    fun _ _ => peersAfter_snoc_some rfl hsound
  obtain ⟨hg₁, hl₁⟩ := hg.grow (e := e) hwon hterm.symm (by rw [he, hlast]) hsound
    (fun hn => absurd hj hn) (fun _ => ⟨hs, by
      show Overlap (peersAfter X.members (a.log id)).keys.toFinset
        (peersAfter X.members (a.log id ++ [e])).keys.toFinset
      rw [hafter, ← hpeers]
      exact hov, h.toLive.gate hs hg hld (hcur hld) hno⟩)
  have hmid : Live X (grown a id e) id
      { n with log := n.log.append [e] }.rebuildMembershipLocked := by
    have hp : ({ n with log := n.log.append [e] } : RaftNode σ).rebuildMembershipLocked.peerAddrs =
        peersAfter n.basePeers (n.log.tail ++ [e]) := fst_foldl_applyEntry _ _ _
    refine h.toLive.grow hg hld hl₁ rfl rfl hp ?_
    rw [hp, hafter, hafter]
  -- notifying the peers is not part of the relation
  have hlive : Live X (grown a id e) id
      { n with
        log := n.log.append [e]
        }.rebuildMembershipLocked.ensurePeerTrackingLocked.notifyPeersLocked :=
    { hmid.ensurePeerTracking with }
  obtain ⟨next, mi, heq, _⟩ := RaftNode.ensurePeerTracking_eq
    ({ n with log := n.log.append [e] } : RaftNode σ).rebuildMembershipLocked
  have hack : (grown a id e).ack id n.currentTerm (n.log.lastLogIndexLocked + 1).toNat := by
    rw [← hterm, hlast]
    exact ack_grown a id e
  obtain ⟨a', hr, _⟩ := h.appended (K := K)
    (i := n.log.lastLogIndexLocked + 1) hg₁ hv hl₁ (isPrefix_grown a id e) hlive
    (by rw [heq]; rfl) (by rw [heq]; rfl) (by rw [heq]; exact hld) (by rw [heq]; exact hack)
  exact ⟨a', hr⟩

/-- `AddServer` keeps the relation. -/
theorem NodeRel.addServer (h : NodeRel X a id n) (hg : Good X a) (hv : X.Valid)
    (hs : X.strict) (hj : X.joiners) (target addr http : String)
    (hcur : n.state = .leader → n.committedCurrentTermLocked = true) :
    ∃ a', Reached X id K a a' n (n.addServer target addr http).1 := by
  unfold RaftNode.addServer
  split
  · exact ⟨a, h.reach_self hg⟩
  · next hargs => exact h.proposeChange hg hv hs hj (fun h0 => hargs (Or.inl h0)) hcur

/-- `RemoveServer` keeps the relation. -/
theorem NodeRel.removeServer (h : NodeRel X a id n) (hg : Good X a) (hv : X.Valid)
    (hs : X.strict) (hj : X.joiners) (target : String)
    (hcur : n.state = .leader → n.committedCurrentTermLocked = true) :
    ∃ a', Reached X id K a a' n (n.removeServer target).1 := by
  unfold RaftNode.removeServer
  split
  · exact ⟨a, h.reach_self hg⟩
  · next hargs => exact h.proposeChange hg hv hs hj hargs hcur

end Refine
