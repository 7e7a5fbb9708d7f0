import RaftStore.Refine.Leading

/-!
# Elections and the ticker

A candidate that has counted a majority of its configuration wins its term
(`NodeRel.becomeLeader`). A node that runs on the configuration its log leads to may
campaign (`NodeRel.startElection`); only a node that was started to join a cluster, and has
neither a change in its log nor a configuration from a snapshot, runs on another one
(`Live.peers_members`).
-/

namespace Refine

open Raft Consensus Cluster

variable {σ : Type} {X : Mode σ} {a a' : Chron} {id : String} {n n' : RaftNode σ}
  {K : Nat → Prop}

/-! ## Winning -/

theorem Live.majority_votes (h : Live X a id n) (hc : n.state = .candidate)
    (hmaj : n.votesReceived.card ≥ n.majority) :
    Majority n.votesReceived ((scheme X.members).conf (a.log id)) := by
  have hcand := h.candidate hc
  refine ⟨hcand.voters, ?_⟩
  have hcard : ((scheme X.members).conf (a.log id)).card = n.peerIDs.length := by
    show (peersAfter X.members (a.log id)).keys.toFinset.card = _
    rw [← hcand.peers, List.toFinset_card_of_nodup n.peerAddrs.keys_nodup, h.peerIDs_eq]
  rw [hcard]
  exact hmaj

/-- The relation right after a win: nothing is counted yet but the leader's own entry, and
nothing is committed in the new term. -/
theorem Live.elect (h : Live X a id n) (hg : Good X a) (hc : n.state = .candidate)
    {Q : Finset String} {e : LogEntry} (hg' : Good X (elected a id Q e))
    (hl : Later id a (elected a id Q e)) (he : e.change = none)
    (next : String → Option Int) (mi : String → Int) (replicating : String → Bool)
    (hmi : ∀ p, 0 < mi p → p = id ∧ mi p = (a.log id).length + 1) :
    Live X (elected a id Q e) id
      { n with
        state := .leader, leaderID := n.id, nextIndex := next, matchIndex := mi
        replicating := replicating, log := n.log.append [e] } := by
  have hcand := h.candidate hc
  obtain ⟨b, hst⟩ := h.stored
  have hx := hl.toExtends
  have hlog : (elected a id Q e).log id = a.log id ++ [e] := log_append_self id e
  have hwon : (elected a id Q e).won n.currentTerm id Q := Or.inr ⟨hst.term_eq.symm, rfl, rfl⟩
  refine { h with
    stored := ⟨b, hst.snoc hx hlog hg rfl rfl⟩
    peers_eq := ?_
    candidate := fun hc' => State.noConfusion hc'
    leader := fun _ => ⟨⟨Q, hwon⟩, ?_, ?_, ?_, ?_⟩
    voter := fun hj _ => h.voter hj (by rw [hc]; decide)
    progress := fun hs => (h.progress hs).snoc hx hlog hg
    threads := fun g hgr => (h.threads g hgr).mono hx }
  · show n.peerAddrs = peersAfter n.basePeers (n.log.tail ++ [e])
    rw [peersAfter_snoc_none he]
    exact h.peers_eq
  · rw [hlog, peersAfter_snoc_none he]
    exact hcand.peers
  · intro _ p hp
    obtain ⟨rfl, heq⟩ := hmi p hp
    show (elected a p Q e).ack p n.currentTerm (mi p).toNat
    rw [heq, ← hst.term_eq]
    exact Or.inr ⟨rfl, rfl, by omega⟩
  · -- a commit of the new term would belong to another winner
    intro hs i L hcm
    have hold : a.commit n.currentTerm i L := hcm
    obtain ⟨_, x, hxe, _⟩ := (hg.inv.commits.commit_spec hold).1
    obtain ⟨m, P, hw⟩ := hg.inv.logs.reign_won (List.ne_nil_of_mem (List.mem_of_getElem? hxe))
    have hm : m = id := (hg'.inv.ballots.won_unique (hx.won_mono hw) hwon).1
    exact absurd (hm ▸ hw) (hcand.unwon P)
  · -- what the candidate brings along is of earlier terms
    intro hs hpos hend
    have hle := (h.progress hs).commit_le
    have hpos' : 0 < n.commitIndex := hpos
    rw [hlog] at hend
    have hend' : endTerm ((a.log id ++ [e]).take n.commitIndex.toNat) = n.currentTerm := hend
    obtain ⟨x, hxe⟩ : ∃ x, (a.log id)[n.commitIndex.toNat - 1]? = some x :=
      ⟨_, List.getElem?_eq_getElem (by omega)⟩
    have hend₂ := endTerm_take_succ hxe
    rw [List.take_append_of_le_length (by omega)] at hend'
    rw [show n.commitIndex.toNat - 1 + 1 = n.commitIndex.toNat from by omega, hend'] at hend₂
    have hlt : x.term < n.currentTerm := hg.inv.logs.bid_lt hcand.bid (List.mem_of_getElem? hxe)
    omega

/-- **`becomeLeaderLocked`.** -/
theorem NodeRel.becomeLeader (h : NodeRel X a id n) (hg : Good X a) (hv : X.Valid)
    (hc : n.state = .candidate) (hmaj : n.votesReceived.card ≥ n.majority) :
    ∃ a', Reached X id K a a' n n.becomeLeaderLocked := by
  have hcand := h.candidate hc
  obtain ⟨b, hst⟩ := h.stored
  have hlast := h.toLive.lastLogIndex_eq hg
  set e : LogEntry := { term := n.currentTerm, index := n.log.lastLogIndexLocked + 1 } with he
  have hwin : Step (scheme X.members) X.strict id a (a.win id n.votesReceived e) := by
    refine Step.win ?_ (h.toLive.majority_votes hc hmaj) ?_ ?_ ?_ ?_
    · rw [hst.term_eq]
      exact hcand.bid
    · intro q hq
      rw [hst.term_eq]
      exact hcand.votes q hq
    · rw [hst.term_eq]
      exact hcand.unwon
    · exact hst.term_eq.symm
    · exact fun hcf => hcf rfl
  obtain ⟨hg₁, hl₁⟩ := hg.of_append (e := e) hwin rfl (by rw [he, hlast])
    (fun ch hch => by cases hch)
    (fun _ => rfl)
  obtain ⟨hg₂, hl₂⟩ := hg₁.of_step (Step.ack_appended (e := e) rfl rfl rfl) (fun _ => rfl)
  -- the leader tracks itself only
  have hlive := h.toLive.elect hg hc (Q := n.votesReceived) hg₂ (hl₁.trans hl₂) rfl
    (Function.update (fun p => if p ∈ n.peerIDs then some (n.log.lastLogIndexLocked + 1) else none)
      n.id (some (n.log.lastLogIndexLocked + 1 + 1)))
    (Function.update (fun _ => 0) n.id (n.log.lastLogIndexLocked + 1)) (fun _ => false) (by
      intro p hp
      by_cases hpn : p = n.id
      · subst hpn
        rw [Function.update_self, hlast]
        exact ⟨h.id_eq, rfl⟩
      · rw [Function.update_of_ne hpn] at hp
        omega)
  have hlog : a.log id <+: ((a.win id n.votesReceived e).acknowledge id
      ((a.log id).length + 1)).log id := by
    show a.log id <+: Function.update a.log id (a.log id ++ [e]) id
    rw [Function.update_self]
    exact List.prefix_append _ _
  have hr₁ := h.reach_persist (K := K) hg₂ (hl₁.trans hl₂) hlive rfl (fun _ => le_refl _)
    (fun _ _ => (List.take_prefix _ _).trans hlog)
  obtain ⟨a', hr₂⟩ := hr₁.rel.advanceCommit (K := K) hg₂ rfl
  have hr₃ := hr₂.rel.applyCommitted (K := K) hr₂.good hv
  have hr₄ := hr₃.rel.broadcast (K := K) hr₃.good
  exact ⟨a', hr₁.trans (hr₂.trans (hr₃.trans hr₄))⟩

/-! ## Campaigning -/

/-- The configuration a node runs on is the one its log leads to, unless it is still the
joining node alone. -/
theorem Live.peers_members (h : Live X a id n) (hg : Good X a)
    (hbase : X.joiners → Configured X.members id n) (hvoter : id ∈ n.peerAddrs.keys) :
    n.peerAddrs = peersAfter X.members (a.log id) := by
  obtain ⟨b, hst⟩ := h.stored
  have htail : n.log.tail = (a.log id).drop b := by rw [hst.log_eq]; rfl
  have hsound : ∀ e ∈ (a.log id).drop b, Sound e := fun e he =>
    hg.sound_log id e (List.mem_of_mem_drop he)
  have hpeers := h.peers_eq
  unfold Configured at hbase
  rw [htail] at hpeers hbase
  have hsplit : peersAfter X.members (a.log id) =
      peersAfter (peersAfter X.members ((a.log id).take b)) ((a.log id).drop b) := by
    rw [← peersAfter_append, List.take_append_drop]
  rw [hsplit]
  rcases hst.placed with heq | ⟨hj, ⟨j, hjm, hkeys⟩, hnone⟩
  · rw [hpeers, heq]
  by_cases hsome : ∃ e ∈ (a.log id).drop b, e.change ≠ none
  · rw [hpeers]
    exact peersAfter_eq_of_some hsound hsome
  · -- no change: the node would be the joining one, alone
    exfalso
    have hno : ∀ e ∈ (a.log id).drop b, e.change = none := by
      intro e he
      by_contra hne
      exact hsome ⟨e, he, hne⟩
    rw [hpeers, peersAfter_of_none hno, hkeys, List.mem_singleton] at hvoter
    subst hvoter
    rcases hbase hj with hm | hk | hs
    · exact hjm hm
    · exact hk hkeys
    · exact hsome hs

theorem NodeRel.startElection (h : NodeRel X a id n) (hg : Good X a) (hv : X.Valid)
    (hmay : X.joiners → Configured X.members id n) :
    ∃ a', Reached X id K a a' n n.startElectionLocked := by
  unfold RaftNode.startElectionLocked
  split
  · exact ⟨a, h.reach_self hg⟩
  next hgo =>
  rw [Bool.or_eq_true, not_or] at hgo
  have hvoter : id ∈ n.peerAddrs.keys := by
    have hiv : n.isVoterLocked = true := by simpa using hgo.2
    rw [← h.id_eq]
    exact (n.peerAddrs.get?_isSome_iff _).mp hiv
  have hpeers := h.toLive.peers_members hg hmay hvoter
  have hne : id ≠ "" := by
    rintro rfl
    rw [hpeers] at hvoter
    exact nameless_not_mem hv.named (hg.sound_log "") hvoter
  have hr := h.campaigning (K := K) hg hne hpeers hvoter
  show ∃ a', Reached X id K a a' n (if (Refine.campaigning n).persistLocked.votesReceived.card ≥
    (Refine.campaigning n).persistLocked.majority then _ else _)
  split
  · next hmaj =>
    obtain ⟨a', hr'⟩ := hr.rel.becomeLeader hr.good hv rfl hmaj
    exact ⟨a', hr.trans hr'⟩
  · refine ⟨_, hr.trans (NodeRel.reach_foldl hr.good ?_ hr.rel)⟩
    intro peer hpeer m hm
    rw [List.mem_filter, decide_eq_true_eq] at hpeer
    obtain ⟨b, hst⟩ := hr.rel.stored
    have hcand := hr.rel.candidate rfl
    refine hm.spawn hr.good ⟨hpeer.2.trans_eq hr.rel.id_eq, hne, hr.rel.id_eq, _, hcand.bid,
      hr.rel.toLive.lastLogIndex_eq hr.good, ?_, ?_⟩
    · show (Refine.campaigning n).persistLocked.log.lastLogTermLocked = _
      rw [hst.log_eq, lastLogTerm_render hst.base_le]
    · show peer ∈ (peersAfter X.members _).keys.toFinset
      rw [← hcand.peers, List.mem_toFinset, ← hr.rel.peerIDs_eq]
      exact hpeer.1

/-- A reply to a vote request. -/
theorem NodeRel.sendRequestVoteReply (h : NodeRel X a id n) (hg : Good X a) (hv : X.Valid)
    {peer : String} {req : RequestVoteRequest} {resp : RequestVoteResponse}
    (hreq : VoteReq X a id peer req)
    (hvote : resp.voteGranted = true → a.vote peer req.term = some id) :
    ∃ a', Reached X id K a a' n (n.sendRequestVoteReply peer req resp) := by
  rcases n.sendRequestVoteReply_cases peer req resp with
    ⟨_, heq⟩ | heq | ⟨⟨hc, hterm, hyes⟩, hcounted⟩
  · rw [heq]
    exact h.becomeFollower hg _ _
  · rw [heq]
    exact ⟨a, h.reach_self hg⟩
  have hcand := h.candidate hc
  obtain ⟨_, _, l, hbid, _, _, hdst⟩ := hreq
  -- the request is the bid of the current term, so the voter is a member
  have hl : l = a.log id := by
    rw [← hterm, hcand.bid] at hbid
    exact (Option.some.inj hbid).symm
  have hgrant : a.vote peer n.currentTerm = some id := by
    rw [hterm]
    exact hvote hyes
  have hr : Reached X id K a a n { n with votesReceived := insert peer n.votesReceived } := by
    refine h.reach hg (Later.refl id a) { h.toLive with
      candidate := fun _ => { hcand with votes := ?_, voters := ?_ } } rfl rfl
        (fun _ => le_refl _) kept_log
    · intro q hq
      rcases Finset.mem_insert.mp hq with rfl | hq
      · exact hgrant
      · exact hcand.votes q hq
    · intro q hq
      rcases Finset.mem_insert.mp hq with rfl | hq
      · exact hl ▸ hdst
      · exact hcand.voters hq
  rcases hcounted with ⟨hmaj, heq⟩ | ⟨_, heq⟩
  · obtain ⟨a', hr'⟩ := hr.rel.becomeLeader hg hv hc hmaj
    rw [heq]
    exact ⟨a', hr.trans hr'⟩
  · rw [heq]
    exact ⟨a, hr⟩

/-! ## The ticker -/

theorem NodeRel.tick (h : NodeRel X a id n) (hg : Good X a) (hv : X.Valid) {due : Bool}
    (hmay : X.joiners → Campaigns n due → Configured X.members id n) :
    ∃ a', Reached X id K a a' n (n.tick due) := by
  obtain ⟨m, heq, hm⟩ := n.tick_cases due
  obtain ⟨a', hr⟩ : ∃ a', Reached X id K a a' n m := by
    rcases hm with rfl | ⟨_, rfl⟩ | ⟨hnl, hgo, rfl⟩
    · exact ⟨a, h.reach_self hg⟩
    · exact ⟨a, h.broadcast hg⟩
    · exact h.startElection hg hv (fun hj => hmay hj ⟨hnl, hgo⟩)
  rw [heq]
  exact ⟨a', hr.trans (hr.rel.applyCommitted hr.good hv)⟩

end Refine
