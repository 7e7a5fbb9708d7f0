import RaftStore.Results.Membership

/-!
# Agreement while the membership changes

State machine safety and leader completeness for clusters that add and remove servers, take
snapshots and crash, under the precautions of `one_leader_per_term`.

* **`one_history`** — one list of entries stands behind all nodes in all states of a run: every
  state machine is the replay of a prefix of it, and every call of `apply` is for an entry of it.
* **`commits_kept_by_leaders`** — what any node takes to be committed is part of the history of
  every leader of a later term, and of its own term.
* **`one_change_pending`** — a leader that has committed in its term has at most one change of the
  membership under way, and the majorities before and after it meet.
-/

namespace Cluster

open Raft Refine Consensus

variable {σ : Type} {S : Setup σ} {members : AddrMap} {X : Mode σ} {a : Chron} {v w : World σ}
  {acts acts' : List Action} {id : String} {n : RaftNode σ} {h H : List LogEntry}

/-! ## One history -/

/-- A careful run, its chronicle and its history. -/
theorem careful_history (hS : Joinable S members) (hsub : Substantial S) (hlaw : Lawful S.machine)
    (hrun : Run S (Careful members) (World.init S) acts w) :
    ∃ a H T, WorldRel (joinMode S members) a w ∧ Recounts (joinMode S members) acts a ∧
      Settled a T H ∧ HistoryOf S members acts H :=
  exists_history_of_run (X := joinMode S members) (joinMode_valid hS hsub) trivial hlaw
    (hrun.mono fun _ _ => admissible_of_careful)

/-- What `n` takes to be committed is part of the history behind `n'`, where `H` is that of the run.
-/
def KnownTo (H : List LogEntry) (n n' : RaftNode σ) : Prop :=
  H.take n.commitIndex.toNat <+: n'.history H

/-- **Leaders hold what is committed**, whoever has committed it, and whichever of the two states
comes first. -/
theorem commits_kept_by_leaders (hS : Joinable S members) (hsub : Substantial S)
    (hlaw : Lawful S.machine) (hrun : Run S (Careful members) (World.init S) acts v)
    (hrun' : Run S (Careful members) v acts' w) :
    ∃ H, HistoryOf S members (acts ++ acts') H ∧
    (∀ p q, v.up p = true → w.up q = true → (w.node q).state = .leader →
      (v.node p).currentTerm ≤ (w.node q).currentTerm → KnownTo H (v.node p) (w.node q)) ∧
    ∀ p q, w.up p = true → v.up q = true → (v.node q).state = .leader →
      (w.node p).currentTerm < (v.node q).currentTerm → KnownTo H (w.node p) (v.node q) := by
  obtain ⟨a', H, T, hw, hrec, hH, hhist⟩ := careful_history hS hsub hlaw (hrun.append hrun')
  have hpassv : Passes S (acts ++ acts') v := (passes_of_run hrun).append
  have hpassw := passes_of_run (hrun.append hrun')
  obtain ⟨a, hv, hx⟩ := hrec v hpassv
  have hsafe := hw.good.inv.safe trivial
  refine ⟨H, hhist, fun p q hp hq hlq hterm => ?_, fun p q hp hq hlq hterm => ?_⟩
  · have hprog := (hv.node_rel hp).progress trivial
    have hlog := hw.history_eq trivial (Extends.refl a') hw.good hH hhist hpassw q
    have hcommit := hv.take_commit_eq trivial hx hw.good hH hhist hpassv p
    rw [revived_of_up hq] at hlog
    rw [revived_of_up hp] at hcommit
    obtain ⟨⟨Q, hwon⟩, hreign⟩ := hw.leader hq hlq
    unfold KnownTo
    rw [hlog, hcommit, ← hreign]
    exact (hprog.settled.mono hv.good.inv hx
      (le_refl _)).isPrefix_reign hw.good.inv hsafe hwon hterm
  · -- the later term was won before: what is committed now was in the winner's bid
    have hprog := (hw.node_rel hp).progress trivial
    have hlog := hv.history_eq trivial hx hw.good hH hhist hpassv q
    have hcommit := hw.take_commit_eq trivial (Extends.refl a') hw.good hH hhist hpassw p
    rw [revived_of_up hq] at hlog
    rw [revived_of_up hp] at hcommit
    obtain ⟨⟨Q, hwon⟩, hreign⟩ := hv.leader hq hlq
    obtain ⟨l, own, hbid, _, hown, _⟩ := hv.good.inv.logs.won_bid hwon
    unfold KnownTo
    rw [hlog, hcommit, ← hreign, hown]
    exact (hprog.settled.isPrefix_bid hw.good.inv hsafe (hx.won_mono hwon) (hx.bid_mono hbid)
      hterm).trans (List.prefix_append _ _)

theorem commits_kept_by_leaders_sample :
    ((addingWorld.node "n1").commitIndex = 1 ∧ (addedWorld.node "n1").state = .leader) ∧
      ∃ H, HistoryOf growing fourNodes (adding ++ added) H ∧
        KnownTo H (addingWorld.node "n1") (addedWorld.node "n1") := by
  obtain ⟨H, hhist, hknown, _⟩ := commits_kept_by_leaders growing_joinable growing_substantial
    idle_lawful adding_run added_run
  exact ⟨by decide +kernel, H, hhist, hknown "n1" "n1" (by decide +kernel) (by decide +kernel)
    (by decide +kernel) (by decide +kernel)⟩

/-! ## Changes under way -/

/-- The index holds a change of the membership that the node does not know to be committed. -/
def Pending (n : RaftNode σ) (i : Int) : Prop :=
  n.commitIndex < i ∧ ∃ e, n.log.entryAtLocked i = some e ∧ e.change ≠ none

/-- The change that stands at index `k + 1` of the log of a leader, above its commit index: it has
no other change between, and the majorities before and after it meet. -/
theorem gate_of_pending (hw : WorldRel X a w) (hs : X.strict) (hup : w.up id = true)
    (hld : (w.node id).state = .leader)
    (hcur : (w.node id).committedCurrentTermLocked = true) {k : Nat} {e : LogEntry}
    (hk : (w.node id).commitIndex ≤ k) (he : (a.log id)[k]? = some e) (hc : e.change ≠ none) :
    Overlap ((scheme X.members).conf ((a.log id).take k))
        ((scheme X.members).conf ((a.log id).take (k + 1))) ∧
      ∀ (j : Nat) x, j < k → (w.node id).commitIndex ≤ j → (a.log id)[j]? = some x →
        x.change = none := by
  obtain ⟨i, L, hi, hpos, hown, hlast⟩ := hw.own_commit hs hup hld hcur
  have hreign := (hw.leader hup hld).2
  have hI := hw.good.inv
  rw [← hreign] at he ⊢
  obtain ⟨_, hov, hgate⟩ := hI.commits.conf_gate he hc
  refine ⟨hov, fun j x hj hge hx => ?_⟩
  -- above the commit index the entries are of the leader's own term
  have hterm : e.term = (w.node id).currentTerm := by
    obtain ⟨⟨_, y, hy, hyT⟩, _⟩ := hI.commits.commit_spec hown
    have h1 := hI.ascending_reign _ (i - 1) k y e (by omega) hy he
    have h2 := hI.reign_le (List.mem_of_getElem? he)
    exact le_antisymm h2 (hyT ▸ h1)
  obtain ⟨i', L', hcom, _, hbelow⟩ := hgate hterm
  by_contra hne
  have h1 := hbelow j x hj hx hne
  have h2 := hlast hcom
  omega

/-- The configuration stays the same over entries that change nothing. -/
theorem peersAfter_take {c : AddrMap} {i j : Nat} (hij : i ≤ j)
    (hnone : ∀ (k : Nat) e, i ≤ k → k < j → h[k]? = some e → e.change = none) :
    peersAfter c (h.take i) = peersAfter c (h.take j) := by
  have hsplit : h.take j = h.take i ++ (h.drop i).take (j - i) := by
    rw [← List.take_add, Nat.add_sub_cancel' hij]
  rw [hsplit, peersAfter_append]
  refine (peersAfter_of_none fun e he => ?_).symm
  obtain ⟨k, hk⟩ := List.getElem?_of_mem he
  have hlt := (List.getElem?_eq_some_iff.mp hk).1
  rw [List.length_take] at hlt
  rw [List.getElem?_take_of_lt (by omega), List.getElem?_drop] at hk
  exact hnone (i + k) e (by omega) (by omega) hk

theorem pending_unique (hw : WorldRel X a w) (hs : X.strict) (hup : w.up id = true)
    (hld : (w.node id).state = .leader)
    (hcur : (w.node id).committedCurrentTermLocked = true) (i j : Int)
    (hi : Pending (w.node id) i) (hj : Pending (w.node id) j) : i = j := by
  have hp := (hw.node_rel hup).progress hs
  have hnn := hp.applied_nonneg.trans hp.applied_le
  have hget : ∀ i, Pending (w.node id) i →
      ∃ e, (a.log id)[i.toNat - 1]? = some e ∧ e.change ≠ none := by
    rintro i ⟨hi, e, he, hc⟩
    exact ⟨e, (hw.entry_of_retained hup ((hp.base_le.trans hp.applied_le).trans_lt hi) he).2, hc⟩
  obtain ⟨e, he, hc⟩ := hget i hi
  obtain ⟨e', he', hc'⟩ := hget j hj
  have h1 := hi.1
  have h2 := hj.1
  -- the later one would have passed its gate with the other below it
  rcases lt_trichotomy i j with hlt | heq | hgt
  · exact absurd ((gate_of_pending hw hs hup hld hcur (k := j.toNat - 1) (by omega) he'
      hc').2 (i.toNat - 1) e (by omega) (by omega) he) hc
  · exact heq
  · exact absurd ((gate_of_pending hw hs hup hld hcur (k := i.toNat - 1) (by omega) he
      hc).2 (j.toNat - 1) e' (by omega) (by omega) he') hc'

/-- The majorities of a leader's configuration meet those of the one it knows to be committed. -/
theorem overlap_committed (hw : WorldRel X a w) (hs : X.strict) (hup : w.up id = true)
    (hld : (w.node id).state = .leader)
    (hcur : (w.node id).committedCurrentTermLocked = true) :
    Overlap (peersAfter X.members ((a.log id).take (w.node id).commitIndex.toNat)).keys.toFinset
      (peersAfter X.members (a.log id)).keys.toFinset := by
  have hp := (hw.node_rel hup).progress hs
  have hlen := hp.commit_le
  obtain ⟨c, hcm⟩ : ∃ c : Nat, (w.node id).commitIndex = c :=
    ⟨_, (Int.toNat_of_nonneg (hp.applied_nonneg.trans hp.applied_le)).symm⟩
  rw [hcm, Int.toNat_natCast]
  by_cases hall : ∀ (k : Nat) e, c ≤ k → (a.log id)[k]? = some e → e.change = none
  · -- nothing is under way
    rw [peersAfter_take (j := (a.log id).length) (by omega) (fun k e hk _ => hall k e hk),
      List.take_length]
    exact Overlap.refl _
  · push Not at hall
    obtain ⟨k, e, hk, he, hc⟩ := hall
    obtain ⟨hov, hbelow⟩ := gate_of_pending hw hs hup hld hcur (by omega) he hc
    have hlt := (List.getElem?_eq_some_iff.mp he).1
    have hafter : ∀ (j : Nat) x, k + 1 ≤ j → j < (a.log id).length → (a.log id)[j]? = some x →
        x.change = none := by
      intro j x hj _ hx
      by_contra hne
      exact hc ((gate_of_pending hw hs hup hld hcur (by omega) hx hne).2 k e (by omega)
        (by omega) he)
    rw [peersAfter_take hk (fun j x hj hjk => hbelow j x hjk (by omega))]
    have hend := peersAfter_take (c := X.members) (i := k + 1) (by omega) hafter
    rw [List.take_length] at hend
    rw [← hend]
    exact hov

/-- A node whose log has kept no change, and that counts with the configuration of its history, has
it from its snapshot. -/
theorem Follows.basePeers_eq {M : Machine σ} (hf : Follows M members H n)
    (hpeers : n.peerAddrs = peersAfter n.basePeers n.log.tail)
    (hall : n.peerAddrs = peersAfter members (n.history H))
    (hnone : ∀ e ∈ n.log.tail, e.change = none) :
    n.basePeers = peersAfter members (H.take n.log.lastIncludedIndexLocked.toNat) := by
  rcases hf.placed with heq | ⟨_, ⟨j, hj, hbase⟩, hbelow⟩
  · exact heq
  · -- a node alone: without any change the two configurations would be the same
    unfold RaftNode.history at hall
    rw [peersAfter_append, peersAfter_of_none hbelow, peersAfter_of_none hnone] at hall
    rw [peersAfter_of_none hnone, hall] at hpeers
    rw [← hpeers] at hbase
    exact absurd (hbase ▸ List.mem_singleton_self j) hj

/-- **One change at a time.** A leader that has committed an entry of its term has at most one
change under way. The configuration it counts with is that of its whole history, also where its log
has kept no change and its snapshot's configuration stands for all of them; and every majority of it
meets every majority of the configuration it knows to be committed. -/
theorem one_change_pending (hS : Joinable S members) (hsub : Substantial S)
    (hlaw : Lawful S.machine) (hrun : Run S (Careful members) (World.init S) acts w)
    (hup : w.up id = true) (hld : (w.node id).state = .leader)
    (hcur : (w.node id).committedCurrentTermLocked = true) :
    (∀ i j, Pending (w.node id) i → Pending (w.node id) j → i = j) ∧
    ∃ H, HistoryOf S members acts H ∧
      (w.node id).peerAddrs = peersAfter members ((w.node id).history H) ∧
      ((∀ e ∈ (w.node id).log.tail, e.change = none) → (w.node id).basePeers =
        peersAfter members (H.take (w.node id).log.lastIncludedIndexLocked.toNat)) ∧
      Overlap (peersAfter members (H.take (w.node id).commitIndex.toNat)).keys.toFinset
        (w.node id).peerIDs.toFinset := by
  obtain ⟨a, H, T, hw, _, hH, hhist⟩ := careful_history hS hsub hlaw hrun
  have hlog := hw.history_eq trivial (Extends.refl a) hw.good hH hhist (passes_of_run hrun) id
  have hcommit := hw.take_commit_eq trivial (Extends.refl a) hw.good hH hhist
    (passes_of_run hrun) id
  rw [revived_of_up hup] at hlog hcommit
  have hn := hw.node_rel hup
  have hpeers : (w.node id).peerAddrs = peersAfter members (a.log id) := (hn.leader hld).peers
  have hf := hhist.follows w (passes_of_run hrun) id
  rw [revived_of_up hup] at hf
  refine ⟨pending_unique hw trivial hup hld hcur, H, hhist, by rw [hlog]; exact hpeers,
    hf.basePeers_eq hn.peers_eq (by rw [hlog]; exact hpeers), ?_⟩
  rw [hcommit, hn.peerIDs_eq, hpeers]
  exact overlap_committed hw trivial hup hld hcur

theorem one_change_pending_sample : Pending (addingWorld.node "n1") 2 ∧
    ∀ i j, Pending (addingWorld.node "n1") i → Pending (addingWorld.node "n1") j → i = j :=
  ⟨⟨by decide +kernel, ((addingWorld.node "n1").log.entryAtLocked 2).get (by decide +kernel),
      by decide +kernel⟩,
    (one_change_pending growing_joinable growing_substantial idle_lawful adding_run
      (by decide +kernel) (by decide +kernel) (by decide +kernel)).1⟩

end Cluster
