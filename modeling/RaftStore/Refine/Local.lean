import RaftStore.Refine.Relation

/-!
# Critical sections that every node runs

`Reached X id K a a' n n'` is the outcome of a critical section of node `id`: from `n`,
described by `a`, to `n'`, described by a later chronicle `a'`. It also speaks of every
state that was saved on the way: a crash right after that save leaves a node that some
chronicle describes. Under `strict` the applied index does not go back. The first `j` entries
of the node's history stay in place whenever `K j` holds; for most sections they always do, for
the handlers `K` is a condition on the request. Sections compose by `Reached.trans`.

This module covers the sections that do not touch the log: terms and roles, votes,
campaigning, goroutines.
-/

namespace Refine

open Raft Consensus Cluster

variable {σ : Type} {X : Mode σ} {a a' a'' : Chron} {id : String} {n n' n'' : RaftNode σ}
  {K : Nat → Prop}

/-! ## Reaching a state -/

/-- A saved state that a restart may come back from. -/
def Recorded (X : Mode σ) (a : Chron) (id : String) (d : DurableState) : Prop :=
  ∃ b log, d.log = log.toList ∧
    Stored X a id b d.currentTerm d.votedFor log d.snapshot d.snapshotPeers

/-- The saves of a section, each of them recorded by a chronicle after `a`. -/
def Saves (X : Mode σ) (id : String) (a : Chron) (n n' : RaftNode σ) : Prop :=
  ∃ st st' new, n.storage = some st ∧ n'.storage = some st' ∧ st'.saved = new ++ st.saved ∧
    ∀ d ∈ new, ∃ b, Good X b ∧ Later id a b ∧ Recorded X b id d

structure Reached (X : Mode σ) (id : String) (K : Nat → Prop) (a a' : Chron)
    (n n' : RaftNode σ) : Prop where
  good : Good X a'
  later : Later id a a'
  rel : NodeRel X a' id n'
  saves : Saves X id a n n'
  applied : X.strict → n.lastApplied ≤ n'.lastApplied
  kept : ∀ j, K j → (a.log id).take j <+: a'.log id

theorem Live.recorded (h : Live X a id n) : Recorded X a id n.durable := by
  obtain ⟨b, hb⟩ := h.stored
  exact ⟨b, n.log, rfl, hb⟩

/-- A section that saves nothing and leaves the durable state alone. -/
theorem NodeRel.reach (h : NodeRel X a id n) (hg : Good X a') (hl : Later id a a')
    (hlive : Live X a' id n') (hst : n'.storage = n.storage) (hd : n'.durable = n.durable)
    (happ : X.strict → n.lastApplied ≤ n'.lastApplied)
    (hkept : ∀ j, K j → (a.log id).take j <+: a'.log id) : Reached X id K a a' n n' := by
  obtain ⟨st, hs, hres, hsaved⟩ := h.synced
  refine ⟨hg, hl, { hlive with synced := ⟨st, hst.trans hs, hres, ?_⟩ },
    ⟨st, st, [], hs, hst.trans hs, rfl, by simp⟩, happ, hkept⟩
  rw [hd]
  exact hsaved

/-- The log stays as it is. -/
theorem kept_log (j : Nat) (_ : K j) : (a.log id).take j <+: a.log id := List.take_prefix _ _

theorem NodeRel.reach_self (h : NodeRel X a id n) (hg : Good X a) : Reached X id K a a n n :=
  h.reach hg (Later.refl id a) h.toLive rfl rfl (fun _ => le_refl _) kept_log

/-- A section that ends by saving the state. -/
theorem NodeRel.reach_persist (h : NodeRel X a id n) (hg : Good X a') (hl : Later id a a')
    (hlive : Live X a' id n') (hst : n'.storage = n.storage)
    (happ : X.strict → n.lastApplied ≤ n'.lastApplied)
    (hkept : ∀ j, K j → (a.log id).take j <+: a'.log id) :
    Reached X id K a a' n n'.persistLocked := by
  obtain ⟨st, hs, hres, _⟩ := h.synced
  have hst' : n'.persistLocked.storage = some { st with saved := n'.durable :: st.saved } := by
    show n'.storage.map (·.save n'.durable) = _
    rw [hst, hs, Option.map_some]
    unfold Storage.save
    rw [hres]
  refine ⟨hg, hl, { hlive with synced := ⟨_, hst', hres, Or.inl rfl⟩ },
    ⟨st, _, [n'.durable], hs, hst', rfl, ?_⟩, happ, hkept⟩
  intro d hd
  rw [List.mem_singleton] at hd
  exact ⟨a', hg, hl, hd ▸ hlive.recorded⟩

theorem Reached.trans (h : Reached X id K a a' n n') (h' : Reached X id K a' a'' n' n'') :
    Reached X id K a a'' n n'' := by
  have hkept : ∀ j, K j → (a.log id).take j <+: a''.log id := fun j hj => by
    have hk := (h.kept j hj).take j
    rw [List.take_take, min_self] at hk
    exact hk.trans (h'.kept j hj)
  refine ⟨h'.good, h.later.trans h'.later, h'.rel, ?_,
    fun hs => (h.applied hs).trans (h'.applied hs), hkept⟩
  obtain ⟨s, s', new, hs, hs', hnew, hall⟩ := h.saves
  obtain ⟨t, t', new', ht, ht', hnew', hall'⟩ := h'.saves
  have hst : s' = t := Option.some.inj (hs'.symm.trans ht)
  subst hst
  refine ⟨s, t', new' ++ new, hs, ht', by rw [hnew', hnew, List.append_assoc], ?_⟩
  intro d hd
  rcases List.mem_append.mp hd with hd | hd
  · obtain ⟨b, hb, hlb, hrec⟩ := hall' d hd
    exact ⟨b, hb, h.later.trans hlb, hrec⟩
  · exact hall d hd

theorem Reached.weaken (h : Reached X id (fun _ => True) a a' n n') : Reached X id K a a' n n' :=
  { h with kept := fun j _ => h.kept j trivial }

theorem Reached.isPrefix (h : Reached X id (fun _ => True) a a' n n') : a.log id <+: a'.log id := by
  have := h.kept (a.log id).length trivial
  rwa [List.take_length] at this

/-! ## Stepping down -/

/-- In its own term a node may fall back to follower at any time. -/
theorem Live.follower (h : Live X a id n) (leaderID : String) (joining : Bool) :
    Live X a id { n with state := .follower, leaderID := leaderID, joining := joining } :=
  { h with
    candidate := fun hc => State.noConfusion hc
    leader := fun hc => State.noConfusion hc
    voter := fun _ hc => absurd rfl hc }

/-- Moving to a later term clears the vote. -/
theorem Live.newTerm (h : Live X a id n) (hg : Good X a) {t : Int} (ht : n.currentTerm < t)
    (leaderID : String) :
    Live X (a.bump id t) id
      { n with currentTerm := t, votedFor := "", state := .follower, leaderID := leaderID } := by
  obtain ⟨b, hst⟩ := h.stored
  have hlt : a.term id < t := by rw [hst.term_eq]; exact ht
  have hx : Extends a (a.bump id t) := extends_bump hlt
  refine { h with
    stored := ⟨b, hst.mono hx rfl hg (Function.update_self ..) ?_ ht.le⟩
    candidate := fun hc => State.noConfusion hc
    leader := fun hc => State.noConfusion hc
    voter := fun _ hc => absurd rfl hc
    progress := fun hs => (h.progress hs).mono hx rfl hg ht.le
    threads := fun g hgr => (h.threads g hgr).mono hx }
  -- nobody has voted in a term it has not reached
  show a.vote id t = none
  cases hv : a.vote id t with
  | none => rfl
  | some m =>
    have := hg.inv.ballots.vote_le hv
    omega

/-- `becomeFollowerLocked` in the node's own term. -/
theorem NodeRel.becomeFollower_same (h : NodeRel X a id n) (hg : Good X a) {t : Int}
    (ht : ¬ t > n.currentTerm) (leaderID : String) :
    Reached X id K a a n (n.becomeFollowerLocked t leaderID) := by
  unfold RaftNode.becomeFollowerLocked
  rw [if_neg ht]
  exact h.reach hg (Later.refl id a) (h.toLive.follower leaderID n.joining) rfl rfl
    (fun _ => le_refl _) kept_log

/-- `becomeFollowerLocked` with a later term. -/
theorem NodeRel.becomeFollower_later (h : NodeRel X a id n) (hg : Good X a) {t : Int}
    (ht : t > n.currentTerm) (leaderID : String) :
    Reached X id K a (a.bump id t) n (n.becomeFollowerLocked t leaderID) := by
  obtain ⟨b, hst⟩ := h.stored
  have hstep : Step (scheme X.members) X.strict id a (a.bump id t) :=
    Step.bump (by rw [hst.term_eq]; exact ht)
  obtain ⟨hg', hl⟩ := hg.of_step hstep (fun _ => rfl)
  unfold RaftNode.becomeFollowerLocked
  rw [if_pos ht]
  exact h.reach_persist hg' hl (h.toLive.newTerm hg ht leaderID) rfl (fun _ => le_refl _) kept_log

theorem NodeRel.becomeFollower (h : NodeRel X a id n) (hg : Good X a) (t : Int)
    (leaderID : String) : ∃ a', Reached X id K a a' n (n.becomeFollowerLocked t leaderID) := by
  by_cases ht : t > n.currentTerm
  · exact ⟨_, h.becomeFollower_later hg ht leaderID⟩
  · exact ⟨_, h.becomeFollower_same hg ht leaderID⟩

/-! ## Voting -/

/-- The voter's comparison is the one of the protocol. -/
theorem upToDate_of_isLogUpToDate {h l : List LogEntry} {b : Nat} (hn : Numbered h)
    (hb : b ≤ h.length) (hlog : n.log = render h b) {members : AddrMap}
    (hup : n.isLogUpToDateLocked l.length (endTerm l) = true) :
    UpToDate (scheme members) l h := by
  unfold RaftNode.isLogUpToDateLocked at hup
  rw [hlog, lastLogTerm_render hb, lastLogIndex_render hn hb] at hup
  show endTerm h < endTerm l ∨ (endTerm l = endTerm h ∧ h.length ≤ l.length)
  split at hup
  · exact Or.inl (of_decide_eq_true hup)
  · next heq =>
    have := of_decide_eq_true hup
    exact Or.inr ⟨not_not.mp heq, by omega⟩

/-- Granting a vote. -/
theorem NodeRel.grantVote (h : NodeRel X a id n) (hg : Good X a) {src : String}
    {req : RequestVoteRequest} (hreq : VoteReq X a src id req) (hterm : n.currentTerm = req.term)
    (hcan : n.votedFor = "" ∨ n.votedFor = req.candidateID)
    (hup : n.isLogUpToDateLocked req.lastLogIndex req.lastLogTerm = true) :
    Reached X id K a (a.cast id src) n { n with votedFor := req.candidateID }.persistLocked := by
  obtain ⟨hne, hcand, l, hbid, hidx, hlt, _⟩ := hreq
  obtain ⟨b, hst⟩ := h.stored
  have hT : a.term id = req.term := hst.term_eq.trans hterm
  rw [hidx, hlt] at hup
  have hfree : a.vote id (a.term id) = none ∨ a.vote id (a.term id) = some src := by
    rw [hst.term_eq, hst.vote_eq]
    rcases hcan with h0 | h0
    · exact Or.inl (if_pos h0)
    · rw [h0, hcand, if_neg hne]
      exact Or.inr rfl
  have hstep : Step (scheme X.members) X.strict id a (a.cast id src) :=
    Step.vote (l := l) (by rw [hT]; exact hbid) hfree
      (upToDate_of_isLogUpToDate (hg.numbered_log id) hst.base_le hst.log_eq hup)
  obtain ⟨hg', hl⟩ := hg.of_step hstep (fun _ => rfl)
  refine h.reach_persist hg' hl ?_ rfl (fun _ => le_refl _) kept_log
  have hx := hl.toExtends
  refine { h.toLive with
    stored := ⟨b, hst.mono hx rfl hg hst.term_eq ?_ (le_refl _)⟩
    candidate := fun hc => (h.candidate hc).mono hx rfl (fun _ hw => hw)
    leader := fun hc => (h.leader hc).mono hx rfl (fun hcm => hcm)
    progress := fun hs => (h.progress hs).mono hx rfl hg (le_refl _)
    threads := fun g hgr => (h.threads g hgr).mono hx }
  rw [hcand, if_neg hne, ← hst.term_eq]
  exact setAt_self ..

/-- **`HandleRequestVote`.** A granted vote is on record. -/
theorem NodeRel.handleRequestVote (h : NodeRel X a id n) (hg : Good X a) {src : String}
    {req : RequestVoteRequest} (hreq : VoteReq X a src id req) :
    ∃ a', Reached X id K a a' n (n.handleRequestVote req).1 ∧
      ((n.handleRequestVote req).2.voteGranted = true → a'.vote id req.term = some src) := by
  rcases n.handleRequestVote_cases req with ⟨_, heq⟩ | ⟨m, hm, hterm, hvoted⟩
  · rw [heq]
    exact ⟨a, h.reach_self hg, fun hc => Bool.noConfusion hc⟩
  -- the term of the request is now the node's own
  obtain ⟨a₁, hr₁⟩ : ∃ a₁, Reached X id K a a₁ n m := by
    rcases hm with ⟨_, rfl⟩ | ⟨hgt, rfl⟩
    · exact ⟨a, h.reach_self hg⟩
    · exact ⟨_, h.becomeFollower_later hg hgt ""⟩
  rcases hvoted with ⟨hcan, hlog, heq⟩ | heq
  · rw [heq]
    have hreq₁ := hreq.mono hr₁.later.toExtends
    have hr₂ := hr₁.rel.grantVote (K := K) hr₁.good hreq₁ hterm hcan hlog
    refine ⟨_, hr₁.trans hr₂, fun _ => ?_⟩
    obtain ⟨b, hst⟩ := hr₁.rel.stored
    rw [← hterm, ← hst.term_eq]
    exact setAt_self ..
  · rw [heq]
    exact ⟨a₁, hr₁, fun hc => Bool.noConfusion hc⟩

/-! ## Campaigning -/

/-- The first half of `startElectionLocked`: the node as a candidate with its own vote. -/
def campaigning (n : RaftNode σ) : RaftNode σ :=
  { n with
    state := .candidate
    currentTerm := n.currentTerm + 1
    votedFor := n.id
    leaderID := ""
    votesReceived := {n.id} }

theorem NodeRel.campaigning (h : NodeRel X a id n) (hg : Good X a) (hne : id ≠ "")
    (hpeers : n.peerAddrs = peersAfter X.members (a.log id)) (hvoter : id ∈ n.peerAddrs.keys) :
    Reached X id K a (a.campaign id) n (campaigning n).persistLocked := by
  obtain ⟨b, hst⟩ := h.stored
  have hstep : Step (scheme X.members) X.strict id a (a.campaign id) := Step.campaign
  obtain ⟨hg', hl⟩ := hg.of_step hstep (fun _ => rfl)
  have hle : n.currentTerm ≤ n.currentTerm + 1 := by omega
  have hself : (a.campaign id).term id = n.currentTerm + 1 := by
    rw [← hst.term_eq]
    exact Function.update_self ..
  have hvote : (a.campaign id).vote id (n.currentTerm + 1) = some id := by
    rw [← hst.term_eq]
    exact setAt_self ..
  have hmember : ¬ X.joiners → id ∈ X.members.keys := by
    intro hj
    rw [hpeers, peersAfter_of_none (hg.static_of_chained hj (hg.inv.logs.chained_log id))] at hvoter
    exact hvoter
  refine h.reach_persist hg' hl ?_ rfl (fun _ => le_refl _) kept_log
  refine { h.toLive with
    stored := ⟨b, hst.mono hl.toExtends rfl hg hself ?_ hle⟩
    candidate := fun _ => ⟨?_, ?_, ?_, ?_, hpeers⟩
    leader := fun hc => State.noConfusion hc
    voter := fun hj _ => hmember hj
    progress := fun hs => (h.progress hs).mono hl.toExtends rfl hg hle
    threads := fun g hgr => (h.threads g hgr).mono hl.toExtends }
  · show (a.campaign id).vote id (n.currentTerm + 1) = if n.id = "" then none else some n.id
    rw [h.id_eq, if_neg hne]
    exact hvote
  · show (a.campaign id).bid id (n.currentTerm + 1) = some (a.log id)
    rw [← hst.term_eq]
    exact setAt_self ..
  · intro q hq
    rw [show q = id from (Finset.mem_singleton.mp hq).trans h.id_eq]
    exact hvote
  · intro q hq
    rw [show q = id from (Finset.mem_singleton.mp hq).trans h.id_eq]
    show id ∈ (peersAfter X.members (a.log id)).keys.toFinset
    rw [← hpeers, List.mem_toFinset]
    exact hvoter
  · -- a term that is new to its node has no winner of that name
    intro Q hw
    have h1 : a.won (n.currentTerm + 1) id Q := hw
    have h2 := (hg.inv.won_le h1).2
    rw [hst.term_eq] at h2
    omega

/-! ## Goroutines -/

theorem NodeRel.spawn (h : NodeRel X a id n) (hg : Good X a) {g : Goroutine}
    (hgr : GoroutineRel X a id g) : Reached X id K a a n (n.spawn g) := by
  refine h.reach hg (Later.refl id a) { h.toLive with threads := ?_ } rfl rfl
    (fun _ => le_refl _) kept_log
  intro g' hg'
  rcases List.mem_append.mp hg' with hold | hnew
  · exact h.threads g' hold
  · rw [List.mem_singleton.mp hnew]
    exact hgr

/-- A loop over a list, each round of which is a section by itself. -/
theorem NodeRel.reach_foldl {β : Type} {f : RaftNode σ → β → RaftNode σ} {l : List β}
    (hg : Good X a) (hf : ∀ x ∈ l, ∀ m, NodeRel X a id m → Reached X id K a a m (f m x))
    (h : NodeRel X a id n) : Reached X id K a a n (l.foldl f n) := by
  induction l generalizing n with
  | nil => exact h.reach_self hg
  | cons x rest ih =>
    have hx := hf x (by simp) n h
    exact hx.trans (ih (fun y hy => hf y (by simp [hy])) hx.rel)

theorem NodeRel.broadcast (h : NodeRel X a id n) (hg : Good X a) :
    Reached X id K a a n n.broadcastAppendEntriesLocked := by
  unfold RaftNode.broadcastAppendEntriesLocked
  split
  · exact h.reach_self hg
  · refine NodeRel.reach_foldl hg ?_ h
    intro peer _ m hm
    show Reached X id K a a m (if _ then _ else _)
    split
    · exact hm.reach_self hg
    · next hne =>
      split
      · exact hm.reach_self hg
      · -- the flag is not part of the relation
        have hflag : Reached X id K a a m
            { m with replicating := Function.update m.replicating peer true } :=
          hm.reach hg (Later.refl id a) { hm.toLive with } rfl rfl (fun _ => le_refl _) kept_log
        refine hflag.trans (hflag.rel.spawn hg ?_)
        show peer ≠ id
        rw [← hm.id_eq]
        exact hne

theorem NodeRel.replicateAgain (h : NodeRel X a id n) (hg : Good X a) {peer : String}
    (hne : peer ≠ id) (more : Bool) : Reached X id K a a n (n.replicateAgain peer more) := by
  refine h.spawn hg ?_
  cases more with
  | true => exact hne
  | false => exact hne

end Refine
