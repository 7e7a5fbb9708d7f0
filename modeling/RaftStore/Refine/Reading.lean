import RaftStore.Cluster.Reads
import RaftStore.Consensus.Reading
import RaftStore.Refine.Runs

/-!
# A read along a run

`GetFacts X a₀ a w k g` says what is known of a `Get` that was invoked after the chronicle `a₀`:

* once it has captured a commit index, everything committed up to `a₀` in terms up to the
  leader's is below that index (`Captured`);
* the peers whose heartbeats were answered had not passed that term at `a₀`. `Polling` keeps them
  apart from those whose answer is still out, so that answers can be counted;
* with a majority of answers nothing was committed in a later term up to `a₀` (`Confirmed`).

Only the membership of the cluster has to be fixed, and the capture has to find an entry of the
leader's own term at the commit index (`ReadsOwn`); `GetFacts.step` is the step lemma.
-/

namespace Refine

open Raft Consensus Cluster

variable {σ : Type} {X : Mode σ} {a₀ a a' : Chron} {w w' : World σ} {k : Nat} {g g' : GetOp σ}
  {node : String} {beats : List (String × Int)} {T : Int} {yes : Finset String} {readIndex : Int}

/-! ## The index that is read -/

/-- A commit index captured in term `T`: it covers what was committed in terms up to `T`. -/
def Captured (X : Mode σ) (a₀ a : Chron) (node : String) (readIndex T : Int) : Prop :=
  node ∈ X.members.keys ∧ a₀.term node ≤ T ∧
    ∃ l, Settled a T l ∧ (l.length : Int) = readIndex ∧ HasCommitsTo a₀ T l

/-- A read index that covers everything committed. -/
def Confirmed (a₀ a : Chron) (readIndex : Int) : Prop :=
  ∃ T l, Settled a T l ∧ (l.length : Int) = readIndex ∧ HasCommits a₀ l

theorem Captured.mono (h : Captured X a₀ a node readIndex T) (hg : Good X a)
    (hx : Extends a a') : Captured X a₀ a' node readIndex T := by
  obtain ⟨hmem, hterm, l, hset, hlen, hcom⟩ := h
  exact ⟨hmem, hterm, l, hset.mono hg.inv hx (le_refl _), hlen, hcom⟩

theorem Confirmed.mono (h : Confirmed a₀ a readIndex) (hg : Good X a)
    (hx : Extends a a') : Confirmed a₀ a' readIndex := by
  obtain ⟨T, l, hset, hlen, hcom⟩ := h
  exact ⟨T, l, hset.mono hg.inv hx (le_refl _), hlen, hcom⟩

/-- **The capture.** A leader with an entry of its own term at its commit index has everything
committed so far, in terms up to its own, below that index. -/
theorem WorldRel.captured (h : WorldRel X a w) (hs : X.strict) (hj : ¬ X.joiners)
    (hup : w.up node = true) (hld : (w.node node).state = .leader)
    (hcur : (w.node node).committedCurrentTermLocked = true) (hg₀ : Good X a₀)
    (hx : Extends a₀ a) :
    Captured X a₀ a node (w.node node).commitIndex (w.node node).currentTerm := by
  have hn := h.node_rel hup
  have hp := hn.progress hs
  have hle := hp.commit_le
  obtain ⟨⟨Q, hwon⟩, hreign⟩ := h.leader hup hld
  obtain ⟨i, L, hi, _, hown, hlast⟩ := h.own_commit hs hup hld hcur
  have hcov := h.good.inv.commit_isPrefix (h.good.inv.safe hs) hwon hown hlast
  obtain ⟨b, hst⟩ := hn.stored
  have hterm : a₀.term node ≤ (w.node node).currentTerm := by
    rw [← hst.term_eq]
    exact hx.term_le node
  refine ⟨hn.voter hj (by rw [hld]; decide), hterm, (a.log node).take i, ?_, ?_, ?_⟩
  · have := hp.settled
    rwa [hi, Int.toNat_natCast] at this
  · rw [hi, List.length_take]
    omega
  · rw [← hreign]
    exact hcov.of_extends hg₀.inv hx

/-! ## Counting the answers -/

/-- A peer that may still answer. -/
def Asked (X : Mode σ) (node : String) (yes : Finset String) (p : String) : Prop :=
  p ∈ X.members.keys ∧ p ≠ node ∧ p ∉ yes

/-- The heartbeats of `Get` number `k`: `beats` are not sent yet, calls that wait are still out,
and `yes` have answered. Every peer is in one of these places at most. -/
structure Polling (X : Mode σ) (a₀ : Chron) (w : World σ) (k : Nat) (node : String)
    (beats : List (String × Int)) (T : Int) (yes : Finset String) : Prop where
  term : ∀ b ∈ beats, b.2 = T
  nodup : (beats.map Prod.fst).Nodup
  unsent : ∀ p ∈ beats.map Prod.fst, Asked X node yes p
  calls : ∀ (i : Nat) c, w.calls[i]? = some c → c.rpc.read = some k → c.rpc.term = T ∧
    (∀ t, c.rpc.replyTerm = some t → a₀.term c.dst ≤ t) ∧
    (c.waiting = true → Asked X node yes c.dst ∧ c.dst ∉ beats.map Prod.fst)
  once : ∀ (i j : Nat) c d, w.calls[i]? = some c → w.calls[j]? = some d →
    c.rpc.read = some k → d.rpc.read = some k → c.waiting = true → d.waiting = true →
    c.dst = d.dst → i = j
  granted : ∀ p ∈ yes, p ∈ X.members.keys ∧ p ≠ node ∧ a₀.term p ≤ T

/-- Before anything is sent. -/
theorem Polling.start (hidle : ∀ c ∈ w.calls, c.rpc.read ≠ some k) {peers : List String}
    (hnodup : peers.Nodup) (hpeers : ∀ p ∈ peers, p ∈ X.members.keys ∧ p ≠ node) (T : Int) :
    Polling X a₀ w k node (peers.map (fun p => (p, T))) T ∅ := by
  have hfst : (peers.map (fun p => (p, T))).map Prod.fst = peers := by
    rw [List.map_map]
    exact List.map_id peers
  refine ⟨?_, by rw [hfst]; exact hnodup, ?_, ?_, ?_, ?_⟩
  · intro b hb
    obtain ⟨p, _, rfl⟩ := List.mem_map.mp hb
    rfl
  · rw [hfst]
    exact fun p hp => ⟨(hpeers p hp).1, (hpeers p hp).2, Finset.notMem_empty p⟩
  · exact fun i c hc hread => absurd hread (hidle c (List.mem_of_getElem? hc))
  · exact fun i j c d hc _ hread => absurd hread (hidle c (List.mem_of_getElem? hc))
  · exact fun p hp => absurd hp (Finset.notMem_empty p)

/-- Replies carry terms that were reached after `a₀`. -/
theorem Polling.frame (h : Polling X a₀ w k node beats T yes) (hcalls : BeatsFrom k w w')
    (hterm : ∀ p, w'.up p = true → a₀.term p ≤ (w'.node p).currentTerm) :
    Polling X a₀ w' k node beats T yes := by
  refine { h with calls := ?_, once := ?_ }
  · intro i c' hc' hread
    obtain ⟨c, hc, hmove⟩ := hcalls i c' hc' hread
    obtain ⟨hT, hreply, hwait⟩ := h.calls i c hc (hmove.read_eq ▸ hread)
    rw [hmove.dst_eq]
    refine ⟨hmove.term_eq.trans hT, ?_, fun hw => hwait (hmove.waiting hw)⟩
    intro t ht
    rcases hmove.reply t ht with hold | ⟨hup, hnew⟩
    · exact hreply t hold
    · rw [← hnew]
      exact hterm c.dst hup
  · intro i j c' d' hc' hd' hrc hrd hwc hwd hdst
    obtain ⟨c, hc, hmc⟩ := hcalls i c' hc' hrc
    obtain ⟨d, hd, hmd⟩ := hcalls j d' hd' hrd
    refine h.once i j c d hc hd (hmc.read_eq ▸ hrc) (hmd.read_eq ▸ hrd) (hmc.waiting hwc)
      (hmd.waiting hwd) ?_
    rw [← hmc.dst_eq, ← hmd.dst_eq]
    exact hdst

/-- A goroutine that sends nothing. -/
theorem Polling.erase (h : Polling X a₀ w k node beats T yes) (i : Nat) :
    Polling X a₀ w k node (beats.eraseIdx i) T yes := by
  have hsub : ((beats.eraseIdx i).map Prod.fst).Sublist (beats.map Prod.fst) :=
    (List.eraseIdx_sublist beats i).map Prod.fst
  refine { h with
    term := fun b hb => h.term b (List.mem_of_mem_eraseIdx hb)
    nodup := h.nodup.sublist hsub
    unsent := fun p hp => h.unsent p (hsub.subset hp)
    calls := fun j c hc hread => ?_ }
  obtain ⟨hT, hreply, hwait⟩ := h.calls j c hc hread
  exact ⟨hT, hreply, fun hw => ⟨(hwait hw).1, fun hmem => (hwait hw).2 (hsub.subset hmem)⟩⟩

theorem notMem_eraseIdx {l : List String} (hl : l.Nodup) {i : Nat} {x : String}
    (hx : l[i]? = some x) : x ∉ l.eraseIdx i := by
  intro hmem
  obtain ⟨j, hij, hj⟩ := List.mem_eraseIdx_iff_getElem?.mp hmem
  have hlt := (List.getElem?_eq_some_iff.mp hx).1
  exact hij ((List.getElem?_inj hlt hl).mp (hx.trans hj.symm)).symm

/-- A goroutine sends its heartbeat. -/
theorem Polling.sent (h : Polling X a₀ w k node beats T yes) {i : Nat} {b : String × Int}
    (hb : beats[i]? = some b) {req : AppendEntriesRequest} (hreq : req.term = b.2)
    (hcalls : w'.calls =
      w.calls ++ [{ src := node, dst := b.1, rpc := .appendEntries req none (some k) }]) :
    Polling X a₀ w' k node (beats.eraseIdx i) T yes := by
  have hfst : (beats.map Prod.fst)[i]? = some b.1 := by
    rw [List.getElem?_map, hb]
    rfl
  have hmem : b.1 ∈ beats.map Prod.fst := List.mem_of_getElem? hfst
  have hgone : b.1 ∉ (beats.eraseIdx i).map Prod.fst := by
    rw [← List.eraseIdx_map]
    exact notMem_eraseIdx h.nodup hfst
  have he := h.erase i
  -- a call is an old one, or the new one at the end
  have hcases : ∀ (j : Nat) c, w'.calls[j]? = some c → w.calls[j]? = some c ∨
      j = w.calls.length ∧ c.dst = b.1 ∧ c.rpc = .appendEntries req none (some k) := by
    intro j c hj
    rw [hcalls] at hj
    rcases Nat.lt_or_ge j w.calls.length with hlt | hge
    · rw [List.getElem?_append_left hlt] at hj
      exact Or.inl hj
    · have hlt := (List.getElem?_eq_some_iff.mp hj).1
      rw [List.length_append, List.length_singleton] at hlt
      rw [List.getElem?_append_right hge] at hj
      rw [List.mem_singleton.mp (List.mem_of_getElem? hj)]
      exact Or.inr ⟨by omega, rfl, rfl⟩
  have hnew : ∀ (j : Nat) c, w.calls[j]? = some c → c.rpc.read = some k → c.waiting = true →
      c.dst ≠ b.1 := by
    intro j c hj hread hw heq
    exact ((h.calls j c hj hread).2.2 hw).2 (heq ▸ hmem)
  refine { he with calls := ?_, once := ?_ }
  · intro j c hj hread
    rcases hcases j c hj with hold | ⟨_, hdst, hrpc⟩
    · exact he.calls j c hold hread
    · rw [hdst, hrpc]
      refine ⟨hreq.trans (h.term b (List.mem_of_getElem? hb)), ?_,
        fun _ => ⟨h.unsent b.1 hmem, hgone⟩⟩
      intro t ht
      cases ht
  · intro j l c d hj hl hrc hrd hwc hwd hdst
    rcases hcases j c hj with hoj | ⟨hj', hcd, _⟩
    · rcases hcases l d hl with hol | ⟨_, hdd, _⟩
      · exact h.once j l c d hoj hol hrc hrd hwc hwd hdst
      · exact absurd (hdst.trans hdd) (hnew j c hoj hrc hwc)
    · rcases hcases l d hl with hol | ⟨hl', _, _⟩
      · exact absurd (hdst.symm.trans hcd) (hnew l d hol hrd hwd)
      · omega

/-- A heartbeat is out no longer. What was asked of the others, and who has answered, is as `yes'`
says. -/
theorem Polling.settle (h : Polling X a₀ w k node beats T yes) {j : Nat} {c : Call}
    (hj : w.calls[j]? = some c) (hread : c.rpc.read = some k) (hwait : c.waiting = true)
    (hcalls : w'.calls = w.calls.set j { c with waiting := false }) {yes' : Finset String}
    (hasked : ∀ p, Asked X node yes p → p ≠ c.dst → Asked X node yes' p)
    (hgranted : ∀ p ∈ yes', p ∈ X.members.keys ∧ p ≠ node ∧ a₀.term p ≤ T) :
    Polling X a₀ w' k node beats T yes' := by
  obtain ⟨_, hgone⟩ := (h.calls j c hj hread).2.2 hwait
  have hlt := (List.getElem?_eq_some_iff.mp hj).1
  -- what still waits was sent to someone else
  have hcases : ∀ (i : Nat) d, w'.calls[i]? = some d → d.rpc.read = some k →
      (∃ d₀, w.calls[i]? = some d₀ ∧ d.dst = d₀.dst ∧ d.rpc = d₀.rpc) ∧
      (d.waiting = true → w.calls[i]? = some d ∧ d.dst ≠ c.dst) := by
    intro i d hi hd
    rw [hcalls] at hi
    by_cases hij : i = j
    · subst hij
      rw [List.getElem?_set_self hlt, Option.some.injEq] at hi
      subst hi
      exact ⟨⟨c, hj, rfl, rfl⟩, fun hw => by cases hw⟩
    · rw [List.getElem?_set_ne (Ne.symm hij)] at hi
      exact ⟨⟨d, hi, rfl, rfl⟩, fun hw => ⟨hi, fun heq =>
        hij (h.once i j d c hi hj hd hread hw hwait heq)⟩⟩
  refine ⟨h.term, h.nodup, ?_, ?_, ?_, hgranted⟩
  · intro p hp
    exact hasked p (h.unsent p hp) (fun heq => hgone (heq ▸ hp))
  · intro i d hi hd
    obtain ⟨⟨d₀, hd₀, hdst, hrpc⟩, hw⟩ := hcases i d hi hd
    rw [hrpc] at hd ⊢
    rw [hdst]
    obtain ⟨hT, hreply, hwait'⟩ := h.calls i d₀ hd₀ hd
    refine ⟨hT, hreply, fun hdw => ?_⟩
    obtain ⟨hold, hne⟩ := hw hdw
    rw [hd₀, Option.some.injEq] at hold
    subst hold
    exact ⟨hasked d₀.dst (hwait' hdw).1 hne, (hwait' hdw).2⟩
  · intro i l d e hi hl hrd hre hwd hwe hdst
    exact h.once i l d e ((hcases i d hi hrd).2 hwd).1 ((hcases l e hl hre).2 hwe).1 hrd hre hwd
      hwe hdst

/-- A heartbeat is answered, or its sender gives up. -/
theorem Polling.answered (h : Polling X a₀ w k node beats T yes) {j : Nat} {c : Call} {ok : Bool}
    (hj : w.calls[j]? = some c) (hread : c.rpc.read = some k) (hwait : c.waiting = true)
    (hcalls : w'.calls = w.calls.set j { c with waiting := false })
    (hok : ok = true → ∃ t, c.rpc.replyTerm = some t ∧ t ≤ c.rpc.term) :
    ∃ yes', Polling X a₀ w' k node beats T yes' ∧
      yes'.card = yes.card + if ok then 1 else 0 := by
  obtain ⟨hT, hreply, hask⟩ := h.calls j c hj hread
  obtain ⟨⟨hmem, hne, hnot⟩, _⟩ := hask hwait
  cases ok with
  | false => exact ⟨yes, h.settle hj hread hwait hcalls (fun p hp _ => hp) h.granted, rfl⟩
  | true =>
    refine ⟨insert c.dst yes, h.settle hj hread hwait hcalls ?_ ?_,
      Finset.card_insert_of_notMem hnot⟩
    · intro p hp hne'
      refine ⟨hp.1, hp.2.1, fun hin => ?_⟩
      rcases Finset.mem_insert.mp hin with heq | hin
      · exact hne' heq
      · exact hp.2.2 hin
    · intro p hp
      rcases Finset.mem_insert.mp hp with rfl | hp
      · obtain ⟨t, ht, hle⟩ := hok rfl
        exact ⟨hmem, hne, (hreply t ht).trans (hle.trans hT.le)⟩
      · exact h.granted p hp

/-! ## A read, phase by phase -/

/-- Nothing has been sent for the read. -/
def Idle (w : World σ) (k : Nat) (g : GetOp σ) : Prop :=
  g.beats = [] ∧ g.results = [] ∧ ∀ c ∈ w.calls, c.rpc.read ≠ some k

/-- What is known of a read that was invoked after `a₀`. -/
def GetFacts (X : Mode σ) (a₀ a : Chron) (w : World σ) (k : Nat) (g : GetOp σ) : Prop :=
  match g.phase with
  | .waitCurrentTerm | .capture => Idle w k g
  | .confirm readIndex T => Idle w k g ∧ Captured X a₀ a g.node readIndex T
  | .collect readIndex acks _ majority => ∃ T yes, Captured X a₀ a g.node readIndex T ∧
      Polling X a₀ w k g.node g.beats T yes ∧
      acks + g.results.count true ≤ yes.card + 1 ∧ majority = X.members.keys.length / 2 + 1
  | .waitApplied readIndex => Confirmed a₀ a readIndex
  | .checkState | .read => ∃ readIndex, Confirmed a₀ a readIndex ∧ w.up g.node = true ∧
      readIndex ≤ (w.node g.node).lastApplied
  | .done _ | .failed _ | .lost => True

theorem Idle.frame (h : Idle w k g) (hcalls : BeatsFrom k w w') : Idle w' k g := by
  refine ⟨h.1, h.2.1, fun c' hc' hread => ?_⟩
  obtain ⟨i, hi⟩ := List.mem_iff_getElem?.mp hc'
  obtain ⟨c, hc, hmove⟩ := hcalls i c' hi hread
  exact h.2.2 c (List.mem_of_getElem? hc) (hmove.read_eq ▸ hread)

/-- **Confirmation.** A majority, the leader included, had not passed the term at `a₀`. -/
theorem Captured.confirmed (h : Captured X a₀ a node readIndex T)
    (hg₀ : Good X a₀) (hj : ¬ X.joiners) (hyes : ∀ p ∈ yes, p ∈ X.members.keys ∧ p ≠ node ∧
      a₀.term p ≤ T) (hmaj : X.members.keys.length / 2 + 1 ≤ yes.card + 1) :
    Confirmed a₀ a readIndex := by
  obtain ⟨hmem, hterm, l, hset, hlen, hcom⟩ := h
  have hnot : node ∉ yes := fun hin => (hyes node hin).2.1 rfl
  have hconf : ∀ {n T l}, a₀.bid n T = some l →
      (scheme X.members).conf l = X.members.keys.toFinset := by
    intro n T l hbid
    show (peersAfter X.members l).keys.toFinset = _
    rw [peersAfter_of_none (hg₀.static_of_chained hj (hg₀.inv.logs.chained_bid hbid))]
  have hquorum : Majority (insert node yes) X.members.keys.toFinset := by
    refine ⟨?_, ?_⟩
    · intro p hp
      rw [List.mem_toFinset]
      rcases Finset.mem_insert.mp hp with rfl | hp
      · exact hmem
      · exact (hyes p hp).1
    · rw [Finset.card_insert_of_notMem hnot, List.toFinset_card_of_nodup X.members.keys_nodup]
      exact hmaj
  refine ⟨T, l, hset, hlen, fun T' i L hc => hcom T' i L hc ?_⟩
  refine hg₀.inv.commit_le_of_quorum hconf hquorum (fun p hp => ?_) hc
  rcases Finset.mem_insert.mp hp with rfl | hp
  · exact hterm
  · exact (hyes p hp).2.2

/-- What a node has applied, once it has reached the index, contains what was committed at `a₀`. -/
theorem Confirmed.covers (h : Confirmed a₀ a readIndex) (hw : WorldRel X a w)
    (hs : X.strict) (hup : w.up node = true) (hle : readIndex ≤ (w.node node).lastApplied) :
    HasCommits a₀ ((a.log node).take (w.node node).lastApplied.toNat) := by
  obtain ⟨T, l, hset, hlen, hcom⟩ := h
  have hp := (hw.node_rel hup).progress hs
  have hnn := hp.applied_nonneg
  have hlim := hp.applied_le.trans hp.commit_le
  refine fun T' i L hc => (hcom T' i L hc).trans ?_
  -- both are settled, and the applied part is the longer one
  rcases hset.comparable (hw.settled_take hs hup) hw.good.inv (hw.good.inv.safe hs) with hpre | hpre
  · exact hpre
  · rw [hpre.eq_of_length_le (by rw [List.length_take]; omega)]

/-- Where nobody joins, everyone's peers are the members. -/
theorem Live.peerIDs_members {n : RaftNode σ} (h : Live X a node n) (hg : Good X a)
    (hj : ¬ X.joiners) : n.peerIDs = X.members.keys := by
  obtain ⟨b, hst⟩ := h.stored
  have hnone : ∀ e ∈ a.log node, e.change = none :=
    hg.static_of_chained hj (hg.inv.logs.chained_log node)
  rw [h.peerIDs_eq, h.peers_eq, hst.log_eq]
  show (peersAfter n.basePeers ((a.log node).drop b)).keys = _
  rw [peersAfter_of_none (fun e he => hnone e (List.mem_of_mem_drop he))]
  rcases hst.placed with heq | ⟨hjoin, _⟩
  · rw [heq, peersAfter_of_none (fun e he => hnone e (List.mem_of_mem_take he))]
  · exact absurd hjoin hj

/-- A step that leaves the phase alone. -/
theorem GetFacts.moved {act : Action} (h : GetFacts X a₀ a w k g) (hg : Good X a) (hs : X.strict)
    (hadv : Advanced X act a a' w w') (hphase : g'.phase = g.phase) (hnode : g'.node = g.node)
    (hup : w.up g.node = true → w'.up g.node = true) (hidle : Idle w k g → Idle w' k g')
    (hpoll : ∀ T yes, Polling X a₀ w k g.node g.beats T yes → ∃ yes',
      Polling X a₀ w' k g.node g'.beats T yes' ∧
        g'.results.count true + yes.card ≤ g.results.count true + yes'.card) :
    GetFacts X a₀ a' w' k g' := by
  have hx := hadv.grown
  unfold GetFacts at h ⊢
  rw [hphase, hnode]
  cases hph : g.phase with
  | waitCurrentTerm | capture =>
    rw [hph] at h
    exact hidle h
  | confirm readIndex T =>
    rw [hph] at h
    exact ⟨hidle h.1, h.2.mono hg hx⟩
  | collect readIndex acks pending majority =>
    rw [hph] at h
    obtain ⟨T, yes, hcap, hp, hcount, hmaj⟩ := h
    obtain ⟨yes', hp', hle⟩ := hpoll T yes hp
    exact ⟨T, yes', hcap.mono hg hx, hp', by omega, hmaj⟩
  | waitApplied readIndex =>
    rw [hph] at h
    exact h.mono hg hx
  | checkState | read =>
    rw [hph] at h
    obtain ⟨readIndex, hcon, hwup, hle⟩ := h
    exact ⟨readIndex, hcon.mono hg hx, hup hwup,
      hle.trans (hadv.applied hs g.node hwup (hup hwup))⟩
  | done store => trivial
  | failed e => trivial
  | lost => trivial

/-- Terms on record are terms that a node which is up has reached. -/
theorem WorldRel.term_le (h : WorldRel X a w) (hx : Extends a₀ a) {p : String}
    (hup : w.up p = true) : a₀.term p ≤ (w.node p).currentTerm := by
  obtain ⟨b, hst⟩ := (h.node_rel hup).stored
  rw [← hst.term_eq]
  exact hx.term_le p

/-- **One step of a read.** -/
theorem GetFacts.step {act : Action} (h : GetFacts X a₀ a w k g) (hw : WorldRel X a w)
    (hs : X.strict) (hj : ¬ X.joiners) (hg₀ : Good X a₀)
    (hx : Extends a₀ a) (hadv : Advanced X act a a' w w') (hown : ReadsOwn w act)
    (hk : w.gets[k]? = some g) (hmove : ReadStep act w w' k g g') : GetFacts X a₀ a' w' k g' := by
  have hterm : ∀ p, w'.up p = true → a₀.term p ≤ (w'.node p).currentTerm :=
    fun p => hadv.rel.term_le (hx.trans hadv.grown)
  -- the facts of the phase that the read is in
  have hat := h
  unfold GetFacts at hat
  cases hmove with
  | stays hcalls hup =>
    exact h.moved hw.good hs hadv rfl rfl hup (fun hi => hi.frame hcalls)
      (fun T yes hp => ⟨yes, hp.frame hcalls hterm, le_refl _⟩)
  | unsent hb hcalls hup =>
    refine h.moved hw.good hs hadv rfl rfl hup (fun hi => ?_) (fun T yes hp => ⟨yes, ?_, ?_⟩)
    · rw [hi.1] at hb
      cases hb
    · exact (hp.erase _).frame hcalls hterm
    · simp
  | sent hb hreq hcalls hup =>
    refine h.moved hw.good hs hadv rfl rfl hup (fun hi => ?_)
      (fun T yes hp => ⟨yes, ?_, le_refl _⟩)
    · rw [hi.1] at hb
      cases hb
    · exact hp.sent hb hreq hcalls
  | answered ok hj hread hwait hcalls hok hup =>
    refine h.moved hw.good hs hadv rfl rfl hup (fun hi => ?_) (fun T yes hp => ?_)
    · exact absurd hread (hi.2.2 _ (List.mem_of_getElem? hj))
    · obtain ⟨yes', hp', hcard⟩ := hp.answered hj hread hwait hcalls hok
      refine ⟨yes', hp', ?_⟩
      rw [List.count_append, hcard]
      cases ok with
      | false => simp
      | true => simp; omega
  | fails e => trivial
  | disproved rest => trivial
  | crashes =>
    unfold GetFacts
    -- what has come to an end stays as it is
    cases hph : g.phase <;> rw [hph] at hat <;> trivial
  | ready hphase hcalls =>
    rw [hphase] at hat
    exact hat.frame hcalls
  | captures hact hphase hup hld hcalls =>
    rw [hphase] at hat
    subst hact
    exact ⟨hat.frame hcalls,
      (hw.captured hs hj hup hld (hown g hk hphase hld) hg₀ hx).mono hw.good hadv.grown⟩
  | @alone readIndex T hphase hup hmaj =>
    rw [hphase] at hat
    unfold RaftNode.majority at hmaj
    rw [(hw.node_rel hup).toLive.peerIDs_members hw.good hj] at hmaj
    have hnone : ∀ p ∈ (∅ : Finset String),
        p ∈ X.members.keys ∧ p ≠ g.node ∧ a₀.term p ≤ T := by simp
    exact (hat.2.confirmed hg₀ hj hnone (by simpa using hmaj)).mono hw.good hadv.grown
  | @asks readIndex T hphase hup hcalls =>
    rw [hphase] at hat
    have hids := (hw.node_rel hup).toLive.peerIDs_members hw.good hj
    have hid := (hw.node_rel hup).id_eq
    refine ⟨T, ∅, hat.2.mono hw.good hadv.grown, ?_, ?_, ?_⟩
    · refine Polling.start (hat.1.frame hcalls).2.2 ?_ ?_ T
      · rw [hids]
        exact X.members.keys_nodup.filter _
      · intro p hp
        rw [hids, hid] at hp
        simpa using hp
    · show 1 + g.results.count true ≤ _
      rw [hat.1.2.1]
      simp
    · show (w.node g.node).peerIDs.length / 2 + 1 = _
      rw [hids]
  | @confirmed readIndex acks pending majority ok rest hphase hres hmaj =>
    rw [hphase] at hat
    obtain ⟨T, yes, hcap, hp, hcount, hmajority⟩ := hat
    refine (hcap.confirmed hg₀ hj hp.granted ?_).mono hw.good hadv.grown
    rw [hres, List.count_cons] at hcount
    cases ok <;> simp at hmaj hcount <;> omega
  | @collects readIndex acks pending pending' majority ok rest hphase hres hcalls =>
    rw [hphase] at hat
    obtain ⟨T, yes, hcap, hp, hcount, hmajority⟩ := hat
    refine ⟨T, yes, hcap.mono hw.good hadv.grown, hp.frame hcalls hterm, ?_, hmajority⟩
    rw [hres, List.count_cons] at hcount
    show (if ok then acks + 1 else acks) + rest.count true ≤ _
    cases ok <;> simp at hcount ⊢ <;> omega
  | applied hphase hup happ =>
    rw [hphase] at hat
    exact ⟨_, hat.mono hw.good hadv.grown, hup, happ⟩
  | checks hphase hup =>
    rw [hphase] at hat
    obtain ⟨readIndex, hcon, hwup, hle⟩ := hat
    exact ⟨readIndex, hcon.mono hw.good hadv.grown, hup hwup,
      hle.trans (hadv.applied hs g.node hwup (hup hwup))⟩
  | reads hphase hup => trivial

/-! ## Along a run -/

/-- A state after `a₀`: every `Get` from number `m` on was invoked since. -/
structure ReadsSince (X : Mode σ) (a₀ : Chron) (m : Nat) (a : Chron) (w : World σ) : Prop where
  rel : WorldRel X a w
  later : Extends a₀ a
  known : ReadsKnown w
  facts : ∀ k g, m ≤ k → w.gets[k]? = some g → GetFacts X a₀ a w k g

theorem ReadsSince.step {act : Action} {m : Nat} (h : ReadsSince X a₀ m a w) (hv : X.Valid)
    (hs : X.strict) (hj : ¬ X.joiners) (hg₀ : Good X a₀)
    (hadm : Admissible X w act) (hown : ReadsOwn w act) (hstep : step X.setup w act = some w') :
    ∃ a', ReadsSince X a₀ m a' w' ∧ Extends a a' := by
  obtain ⟨a', hadv⟩ := h.rel.step hv hadm hstep
  have hgets := gets_step hstep
  refine ⟨a', ⟨hadv.rel, h.later.trans hadv.grown, h.known.step hgets, fun k g' hk hg' => ?_⟩,
    hadv.grown⟩
  rcases Nat.lt_or_ge k w.gets.length with hlt | hge
  · obtain ⟨g, hg⟩ : ∃ g, w.gets[k]? = some g := ⟨_, List.getElem?_eq_getElem hlt⟩
    obtain ⟨g'', hg'', hmove⟩ := hgets.old hg
    rw [hg', Option.some.injEq] at hg''
    subst hg''
    exact (h.facts k g hk hg).step h.rel hs hj hg₀ h.later hadv hown hg hmove
  · -- a new one, for which nothing can have been sent
    obtain ⟨rfl, hphase, hbeats, hres, hcalls⟩ := hgets.new hg' hge
    unfold GetFacts
    rw [hphase]
    refine ⟨hbeats, hres, fun c hc hread => ?_⟩
    rw [hcalls] at hc
    exact absurd (h.known c hc _ hread) (lt_irrefl _)

end Refine
