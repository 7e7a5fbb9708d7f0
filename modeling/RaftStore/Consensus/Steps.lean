import RaftStore.Consensus.Protocol

/-!
# Every step but an election and a commit keeps the invariant

For each constructor of `Step` except `win` and `commit` this module proves that the
chronicle after it extends the one before (`extends_*`) and satisfies the invariant again
(`Inv.*`). The two left out need the argument about configurations of
`Consensus/Configuration.lean`.

Where a step leaves votes, bids, elections, leaders' logs and commits alone, `Safe` is
carried over by `Safe.transfer`, which asks only for `hold` and `keep` anew.
-/

namespace Consensus

variable {N E : Type} [DecidableEq N] {S : Scheme N E} {strict : Prop} {c c' : Chronicle N E}
  {x : N}

/-! ## Transfer of `Safe` -/

omit [DecidableEq N] in
/-- `heed` depends only on votes, bids and leaders' logs: a new acknowledgement belongs to
a term the voter has not left, hence to none below its vote. -/
theorem Safe.heed_transfer (hI : Inv S strict c) (hs : Safe S c) (hx : Extends c c')
    {n m : N} {T' T : ℤ} {l : List E} {k i : Nat} (hvote : c.vote n T' = some m)
    (hbid : c.bid m T' = some l) (hlt : T < T') (hack : c'.ack n T k) (hown : Own S c T i)
    (hik : i ≤ k) (hfree : ¬ BlockedTo c' T i T') :
    T < lastTerm S l ∨ (T = lastTerm S l ∧ i ≤ l.length) := by
  rcases hx.ack_new hack with hold | hle
  · exact hs.heed hvote hbid hlt hold hown hik (fun hb => hfree (hb.mono hI hx hown))
  · have := hI.ballots.vote_le hvote
    omega

omit [DecidableEq N] in
/-- When only terms, logs and acknowledgements moved, `Safe` is `hold` and `keep` alone. -/
theorem Safe.transfer (hI : Inv S strict c) (hs : Safe S c) (hx : Extends c c')
    (hvote : c'.vote = c.vote) (hbid : c'.bid = c.bid) (hwon : c'.won = c.won)
    (hreign : c'.reign = c.reign) (hcommit : c'.commit = c.commit)
    (hhold : ∀ {n m}, c'.ack n (c'.term n) m → (c.reign (c'.term n)).take m <+: c'.log n)
    (hkeep : ∀ {n T m i}, c'.ack n T m → Own S c T i → i ≤ m → ¬ BlockedTo c' T i (c'.term n) →
      (c.reign T).take i <+: c'.log n) : Safe S c' := by
  -- the leaders' logs are as before, so what a leader wrote itself is too
  have hown : ∀ {T i}, Own S c' T i → Own S c T i := by
    rintro T i ⟨hi, e, he, hT⟩
    rw [hreign] at he
    exact ⟨hi, e, he, hT⟩
  refine ⟨?_, ?_, ?_, ?_, ?_⟩
  -- `hold` and `keep` are asked for
  · intro n m hack
    rw [hreign]
    exact hhold hack
  · intro n T m i hack ho him hfree
    rw [hreign]
    exact hkeep hack (hown ho) him hfree
  -- `heed`
  · intro n T' m l T k i hv hb hlt hack ho hik hfree
    rw [hvote] at hv
    rw [hbid] at hb
    exact hs.heed_transfer hI hx hv hb hlt hack (hown ho) hik hfree
  -- `inherit`: a block of the old chronicle is one of the new
  · intro T' n Q l T i hw hb hlt ho hfree
    rw [hwon] at hw
    rw [hbid] at hb
    rw [hreign]
    exact hs.inherit hw hb hlt (hown ho) (fun hbl => hfree (hbl.mono hI hx (hown ho)))
  -- `sealed`: an acknowledgement of the old chronicle is one of the new
  · rintro T i L hc T' ⟨hlt, n, Q, l, hw, hb, hnot, hack⟩
    rw [hcommit] at hc
    rw [hwon] at hw
    rw [hbid] at hb
    rw [hreign] at hnot
    exact hs.sealed hc T' ⟨hlt, n, Q, l, hw, hb, hnot,
      fun q hq m hm h => hack q hq m hm (hx.ack_mono h)⟩

/-! ## Learning of a higher term -/

/-- No term falls when one node's is raised. -/
theorem le_update_term {n : N} {T : ℤ} (h : c.term n ≤ T) (x : N) :
    c.term x ≤ Function.update c.term n T x := by
  by_cases hx : x = n
  · subst hx
    rwa [Function.update_self]
  · rw [Function.update_of_ne hx]

/-- A node that moves to a later term has acknowledged nothing there yet. -/
theorem Safe.hold_update (hI : Inv S strict c) (hs : Safe S c) {n x : N} {T : ℤ} {m : Nat}
    (h : c.term n < T) (hack : c.ack x (Function.update c.term n T x) m) :
    (c.reign (Function.update c.term n T x)).take m <+: c.log x := by
  by_cases hx : x = n
  · subst hx
    rw [Function.update_self] at hack
    have := (hI.commits.ack_le hack).1
    omega
  · rw [Function.update_of_ne hx] at hack ⊢
    exact hs.hold hack

theorem extends_bump {n : N} {T : ℤ} (h : c.term n < T) : Extends c (c.bump n T) :=
  { Extends.refl c with term_le := le_update_term h.le }

/-- **Learning of a higher term keeps the invariant.** -/
theorem Inv.bump (hI : Inv S strict c) {n : N} {T : ℤ} (h : c.term n < T) :
    Inv S strict (c.bump n T) := by
  have hle : ∀ x, c.term x ≤ (c.bump n T).term x := le_update_term h.le
  refine ⟨⟨?_, ?_, hI.ballots.vote_bid, ?_, hI.ballots.won_vote, hI.ballots.won_unique⟩,
    ⟨hI.logs.chained_log, hI.logs.ascending_log, ?_, hI.logs.chained_bid, hI.logs.ascending_bid,
      hI.logs.bid_lt, hI.logs.won_bid, hI.logs.reign_won, ?_⟩,
    ⟨?_, hI.commits.commit_spec, hI.commits.conf_gate⟩, ?_⟩
  -- what is bounded by a node's term stays so: terms only grow
  · exact fun x => (hI.ballots.term_nonneg x).trans (hle x)
  · exact fun hv => (hI.ballots.vote_le hv).trans (hle _)
  · exact fun hb => ⟨(hI.ballots.bid_le hb).1, (hI.ballots.bid_le hb).2.trans (hle _)⟩
  · exact fun he => (hI.logs.log_le he).trans (hle _)
  -- `leader_log`
  · intro T' x Q hwon hT
    by_cases hx : x = n
    · -- nobody has won the term just learnt of: winners have reached their term
      subst hx
      rw [show (c.bump x T).term x = T from Function.update_self ..] at hT
      have := (hI.won_le hwon).2
      omega
    · rw [show (c.bump n T).term x = c.term x from Function.update_of_ne hx ..] at hT
      exact hI.logs.leader_log hwon hT
  · exact fun ha => ⟨(hI.commits.ack_le ha).1.trans (hle _), (hI.commits.ack_le ha).2⟩
  -- `safe`: a node with a new term has acknowledged nothing in it
  · intro hstrict
    have hs := hI.safe hstrict
    refine hs.transfer hI (extends_bump h) rfl rfl rfl rfl rfl (hs.hold_update hI h) ?_
    -- blocked up to the old term is blocked up to the new one
    intro x T' m i hack hown him hfree
    exact hs.keep hack hown him (fun hb => hfree (hb.le (hle x)))

/-! ## Campaigning -/

omit [DecidableEq N] in
/-- The term a node campaigns in is new to it: it has cast no vote and made no bid there. -/
theorem Inv.fresh_term (hI : Inv S strict c) (n : N) :
    c.vote n (c.term n + 1) = none ∧ c.bid n (c.term n + 1) = none := by
  constructor
  · cases hv : c.vote n (c.term n + 1) with
    | none => rfl
    | some m =>
      have := hI.ballots.vote_le hv
      omega
  · cases hb : c.bid n (c.term n + 1) with
    | none => rfl
    | some l =>
      have := (hI.ballots.bid_le hb).2
      omega

/-- A record of another term or node is not overwritten. -/
theorem setAt_mono {α : Type} {f : N → ℤ → Option α} {n x : N} {T T' : ℤ} {v : Option α} {y : α}
    (hfree : f n T = none) (h : f x T' = some y) : setAt f n T v x T' = some y := by
  unfold setAt
  split
  · next heq =>
    rw [heq.1, heq.2, hfree] at h
    cases h
  · exact h

/-- A record after an update is the new one or an old one. -/
theorem setAt_cases {α : Type} {f : N → ℤ → Option α} {n x : N} {T T' : ℤ} {v y : α}
    (h : setAt f n T (some v) x T' = some y) : (x = n ∧ T' = T ∧ y = v) ∨ f x T' = some y := by
  unfold setAt at h
  split at h
  · next heq => exact Or.inl ⟨heq.1, heq.2, (Option.some.inj h).symm⟩
  · exact Or.inr h

/-- A campaign adds a vote and a bid, in a term that had neither. -/
theorem extends_campaign (hI : Inv S strict c) (n : N) : Extends c (c.campaign n) :=
  { Extends.refl c with
    term_le := le_update_term (by omega)
    vote_mono := fun h => setAt_mono (hI.fresh_term n).1 h
    bid_mono := fun h => setAt_mono (hI.fresh_term n).2 h }

omit [DecidableEq N] in
/-- A log is at least as up to date as itself. -/
theorem UpToDate.refl (l : List E) : UpToDate S l l :=
  Or.inr ⟨rfl, le_refl _⟩

/-- A leader's bid is older than the term that `n` opens. -/
theorem bid_of_won_campaign (hI : Inv S strict c) {n x : N} {T : ℤ} {Q : Finset N} {l : List E}
    (hwon : c.won T x Q) (hb : (c.campaign n).bid x T = some l) : c.bid x T = some l := by
  obtain ⟨l', own, hb', _⟩ := hI.logs.won_bid hwon
  have hsame := (extends_campaign hI n).bid_mono hb'
  rw [hb] at hsame
  rw [hb', Option.some.inj hsame]

/-- A campaign keeps what is known of votes and elections. -/
theorem Inv.ballots_campaign (hI : Inv S strict c) (n : N) : Ballots (c.campaign n) := by
  have hle : ∀ x, c.term x ≤ (c.campaign n).term x := le_update_term (by omega)
  have hself : (c.campaign n).term n = c.term n + 1 := Function.update_self ..
  have hx := extends_campaign hI n
  refine ⟨?_, ?_, ?_, ?_, ?_, hI.ballots.won_unique⟩
  · exact fun x => (hI.ballots.term_nonneg x).trans (hle x)
  -- `vote_le`: the new vote is in the candidate's new term
  · intro x T m hv
    rcases setAt_cases hv with ⟨rfl, rfl, _⟩ | hold
    · exact hself.ge
    · exact (hI.ballots.vote_le hold).trans (hle x)
  -- `vote_bid`: the candidate votes for itself, and its bid is its log
  · intro x T m hv
    rcases setAt_cases hv with ⟨_, rfl, rfl⟩ | hold
    · exact ⟨c.log m, setAt_self ..⟩
    · obtain ⟨l, hl⟩ := hI.ballots.vote_bid hold
      exact ⟨l, hx.bid_mono hl⟩
  -- `bid_le`
  · intro x T l hb
    rcases setAt_cases hb with ⟨rfl, rfl, _⟩ | hold
    · have := hI.ballots.term_nonneg x
      exact ⟨by omega, hself.ge⟩
    · exact ⟨(hI.ballots.bid_le hold).1, (hI.ballots.bid_le hold).2.trans (hle x)⟩
  -- `won_vote`: older votes stand
  · exact fun hwon hq => hx.vote_mono (hI.ballots.won_vote hwon hq)

/-- A campaign keeps what is known of logs: the bid is a log that the node had. -/
theorem Inv.logs_campaign (hI : Inv S strict c) (n : N) : Logs S (c.campaign n) := by
  have hle : ∀ x, c.term x ≤ (c.campaign n).term x := le_update_term (by omega)
  refine ⟨hI.logs.chained_log, hI.logs.ascending_log, ?_, ?_, ?_, ?_, ?_, hI.logs.reign_won, ?_⟩
  · exact fun he => (hI.logs.log_le he).trans (hle _)
  -- the bids, in the order of the fields: chained, ascending, of lower terms
  · intro x T l hb
    rcases setAt_cases hb with ⟨rfl, _, rfl⟩ | hold
    · exact hI.logs.chained_log x
    · exact hI.logs.chained_bid hold
  · intro x T l hb
    rcases setAt_cases hb with ⟨rfl, _, rfl⟩ | hold
    · exact hI.logs.ascending_log x
    · exact hI.logs.ascending_bid hold
  · intro x T l e hb he
    rcases setAt_cases hb with ⟨rfl, rfl, rfl⟩ | hold
    · have := hI.logs.log_le he
      omega
    · exact hI.logs.bid_lt hold he
  · intro T x Q hwon
    obtain ⟨l, own, hb, hrest⟩ := hI.logs.won_bid hwon
    exact ⟨l, own, (extends_campaign hI n).bid_mono hb, hrest⟩
  -- `leader_log`
  · intro T x Q hwon hT
    by_cases hxn : x = n
    · -- nobody has won the term that `n` opens
      subst hxn
      have := (hI.won_le hwon).2
      have hself : (c.campaign x).term x = c.term x + 1 := Function.update_self ..
      omega
    · rw [show (c.campaign n).term x = c.term x from Function.update_of_ne hxn ..] at hT
      exact hI.logs.leader_log hwon hT

/-- A campaign keeps what is known of commits. -/
theorem Inv.safe_campaign (hI : Inv S strict c) (hs : Safe S c) (n : N) :
    Safe S (c.campaign n) := by
  have hle : ∀ x, c.term x ≤ (c.campaign n).term x := le_update_term (by omega)
  have hx := extends_campaign hI n
  refine ⟨hs.hold_update hI (by omega), ?_, ?_, ?_, ?_⟩
  · intro x T m i hack hown him hfree
    exact hs.keep hack hown him (fun hb => hfree ((hb.mono hI hx hown).le (hle x)))
  -- `heed`: the new vote and the older ones
  · intro x T' m l T k i hv hb hlt hack hown hik hfree
    have hfree' : ¬ BlockedTo c T i T' := fun h => hfree (h.mono hI hx hown)
    rcases setAt_cases hv with ⟨rfl, rfl, rfl⟩ | hold
    · -- a candidate's own vote goes to its own log
      have hl : l = c.log m := by
        rcases setAt_cases hb with ⟨_, _, h⟩ | h
        · exact h
        · rw [(hI.fresh_term m).2] at h
          cases h
      subst hl
      have hpre := hs.keep hack hown hik (fun h => hfree' (h.le (by omega)))
      obtain ⟨e, he, hT⟩ := hown.getElem?_of_isPrefix hpre
      exact (UpToDate.refl (c.log m)).covers (hI.logs.ascending_log m) hown.1 he hT
    · have hb' : c.bid m T' = some l := by
        rcases setAt_cases hb with ⟨rfl, rfl, rfl⟩ | h
        · -- nobody can have voted in a term its candidate has only just opened
          obtain ⟨l', hl'⟩ := hI.ballots.vote_bid hold
          rw [(hI.fresh_term m).2] at hl'
          cases hl'
        · exact h
      exact hs.heed hold hb' hlt hack hown hik hfree'
  -- `inherit` and `sealed` speak of elections that were won before
  · intro T' x Q l T i hwon hb hlt hown hfree
    exact hs.inherit hwon (bid_of_won_campaign hI hwon hb) hlt hown
      (fun h => hfree (h.mono hI hx hown))
  · rintro T i L hc T' ⟨hlt, x, Q, l, hwon, hb, hnot, hack⟩
    exact hs.sealed hc T' ⟨hlt, x, Q, l, hwon, bid_of_won_campaign hI hwon hb, hnot, hack⟩

/-- **A campaign keeps the invariant.** -/
theorem Inv.campaign (hI : Inv S strict c) (n : N) : Inv S strict (c.campaign n) := by
  have hle : ∀ x, c.term x ≤ (c.campaign n).term x := le_update_term (by omega)
  refine ⟨hI.ballots_campaign n, hI.logs_campaign n,
    ⟨?_, hI.commits.commit_spec, hI.commits.conf_gate⟩,
    fun hstrict => hI.safe_campaign (hI.safe hstrict) n⟩
  exact fun ha => ⟨(hI.commits.ack_le ha).1.trans (hle _), (hI.commits.ack_le ha).2⟩

/-! ## Voting -/

/-- A vote is only ever added: the one that was there may be repeated. -/
theorem extends_cast {n m : N}
    (hfree : c.vote n (c.term n) = none ∨ c.vote n (c.term n) = some m) :
    Extends c (c.cast n m) :=
  { Extends.refl c with
    vote_mono := by
      intro x T y h
      change setAt c.vote n (c.term n) (some m) x T = some y
      rcases hfree with hnone | hsome
      · exact setAt_mono hnone h
      · unfold setAt
        split
        · next heq =>
          rw [heq.1, heq.2, hsome] at h
          exact h
        · exact h }

/-- **A vote keeps the invariant**, if the candidate's log is up to date. -/
theorem Inv.cast (hI : Inv S strict c) {n m : N} {l : List E}
    (hbid : c.bid m (c.term n) = some l)
    (hfree : c.vote n (c.term n) = none ∨ c.vote n (c.term n) = some m)
    (hup : UpToDate S l (c.log n)) : Inv S strict (c.cast n m) := by
  have hx := extends_cast hfree
  refine ⟨⟨hI.ballots.term_nonneg, ?_, ?_, hI.ballots.bid_le, ?_, hI.ballots.won_unique⟩,
    ⟨hI.logs.chained_log, hI.logs.ascending_log, hI.logs.log_le, hI.logs.chained_bid,
      hI.logs.ascending_bid, hI.logs.bid_lt, hI.logs.won_bid, hI.logs.reign_won,
      hI.logs.leader_log⟩,
    ⟨hI.commits.ack_le, hI.commits.commit_spec, hI.commits.conf_gate⟩, ?_⟩
  -- `vote_le` and `vote_bid`, for the new vote and the older ones
  · intro x T y hv
    rcases setAt_cases hv with ⟨rfl, rfl, _⟩ | hold
    · exact le_refl _
    · exact hI.ballots.vote_le hold
  · intro x T y hv
    rcases setAt_cases hv with ⟨_, rfl, rfl⟩ | hold
    · exact ⟨l, hbid⟩
    · exact hI.ballots.vote_bid hold
  -- `won_vote`
  · exact fun hwon hq => hx.vote_mono (hI.ballots.won_vote hwon hq)
  -- `heed` is the only part of `Safe` that speaks of votes
  · intro hstrict
    have hs := hI.safe hstrict
    refine ⟨hs.hold, hs.keep, ?_, hs.inherit, hs.sealed⟩
    intro x T' y l' T k i hv hb hlt hack hown hik hblock
    rcases setAt_cases hv with ⟨rfl, rfl, rfl⟩ | hold
    · -- the vote just cast: the voter still holds what it acknowledged
      have hll : l' = l := Option.some.inj (hb.symm.trans hbid)
      subst hll
      have hpre := hs.keep hack hown hik hblock
      obtain ⟨e, he, hT⟩ := hown.getElem?_of_isPrefix hpre
      exact hup.covers (hI.logs.ascending_log x) hown.1 he hT
    · exact hs.heed hold hb hlt hack hown hik hblock

/-! ## Taking over a leader's log -/

theorem extends_adopt (n : N) (g : List E) : Extends c (c.adopt n g) :=
  { Extends.refl c with }

omit [DecidableEq N] in
/-- What a node acknowledged and nobody blocks is part of its current leader's log. -/
theorem Safe.acked_in_reign (hI : Inv S strict c) (hs : Safe S c) {n m : N} {Q : Finset N}
    {T : ℤ} {k i : Nat} (hwon : c.won (c.term n) m Q) (hack : c.ack n T k) (hown : Own S c T i)
    (hfree : ¬ BlockedTo c T i (c.term n)) :
    (c.reign T).take i <+: c.reign (c.term n) := by
  rcases (hI.commits.ack_le hack).1.lt_or_eq with hlt | heq
  · obtain ⟨l, own, hbid, _, hreign, _⟩ := hI.logs.won_bid hwon
    rw [hreign]
    exact (hs.inherit hwon hbid hlt hown hfree).trans (List.prefix_append _ _)
  · rw [heq]
    exact List.take_prefix _ _

/-- **Taking over a leader's log keeps the invariant.** Under strict rules the node must not hold
more of it already. -/
theorem Inv.adopt (hI : Inv S strict c) {n m : N} {Q : Finset N} {g : List E}
    (hwon : c.won (c.term n) m Q) (hne : m ≠ n) (hg : g <+: c.reign (c.term n))
    (hkeep : strict → ¬ g <+: c.log n) : Inv S strict (c.adopt n g) := by
  -- the log of `n` is new, the others are as they were
  have hlog : ∀ x, (x = n ∧ (c.adopt n g).log x = g) ∨ (c.adopt n g).log x = c.log x := by
    intro x
    by_cases hx : x = n
    · subst hx
      exact Or.inl ⟨rfl, Function.update_self ..⟩
    · exact Or.inr (Function.update_of_ne hx ..)
  refine ⟨{ hI.ballots with },
    ⟨?_, ?_, ?_, hI.logs.chained_bid, hI.logs.ascending_bid, hI.logs.bid_lt,
      hI.logs.won_bid, hI.logs.reign_won, ?_⟩,
    ⟨hI.commits.ack_le, hI.commits.commit_spec, hI.commits.conf_gate⟩, ?_⟩
  -- the node's log is a piece of the leader's, and that is chained
  · intro x
    rcases hlog x with ⟨_, h⟩ | h
    · rw [h]
      exact (hI.chained_reign _).of_isPrefix hg
    · rw [h]
      exact hI.logs.chained_log x
  -- and ascending
  · intro x
    rcases hlog x with ⟨_, h⟩ | h
    · rw [h]
      exact (hI.ascending_reign _).of_isPrefix hg
    · rw [h]
      exact hI.logs.ascending_log x
  · intro x e he
    rcases hlog x with ⟨rfl, h⟩ | h
    · rw [h] at he
      exact hI.reign_le (hg.subset he)
    · rw [h] at he
      exact hI.logs.log_le he
  -- `leader_log`
  · intro T x P hw hT
    rcases hlog x with ⟨rfl, _⟩ | h
    · -- the node is not the leader of its own term
      subst hT
      exact absurd (hI.ballots.won_unique hwon hw).1 hne
    · rw [h]
      exact hI.logs.leader_log hw hT
  -- `safe`: what the node had acknowledged is in its log still
  · intro hstrict
    have hs := hI.safe hstrict
    -- two prefixes of the leader's log: the one the node holds cannot extend `g`
    have hstay : ∀ {x p}, p <+: c.reign (c.term n) → p <+: c.log x →
        p <+: (c.adopt n g).log x := by
      intro x p hin hold
      rcases hlog x with ⟨rfl, h⟩ | h
      · rw [h]
        rcases List.prefix_or_prefix_of_prefix hin hg with hpg | hgp
        · exact hpg
        · exact absurd (hgp.trans hold) (hkeep hstrict)
      · rw [h]
        exact hold
    refine hs.transfer hI (extends_adopt n g) rfl rfl rfl rfl rfl ?_ ?_
    -- `hold`: an acknowledgement of its present term
    · intro x k hack
      by_cases hx : x = n
      · subst hx
        exact hstay (List.take_prefix _ _) (hs.hold hack)
      · rw [show (c.adopt n g).log x = c.log x from Function.update_of_ne hx ..]
        exact hs.hold hack
    -- `keep`: one of an earlier term; the leader's log holds what it speaks of
    · intro x T k i hack hown hik hfree
      have hold := hs.keep hack hown hik hfree
      by_cases hx : x = n
      · subst hx
        exact hstay (hs.acked_in_reign hI hwon hack hown hfree) hold
      · rw [show (c.adopt n g).log x = c.log x from Function.update_of_ne hx ..]
        exact hold

/-! ## Acknowledging -/

omit [DecidableEq N] in
/-- An acknowledgement is added. -/
theorem extends_acknowledge (n : N) (m : Nat) : Extends c (c.acknowledge n m) :=
  { Extends.refl c with
    ack_mono := Or.inl
    ack_new := by
      rintro x T k (h | ⟨rfl, rfl, _⟩)
      · exact Or.inl h
      · exact Or.inr (le_refl _) }

omit [DecidableEq N] in
/-- **An acknowledgement keeps the invariant**, if the log holds what is acknowledged. -/
theorem Inv.acknowledge (hI : Inv S strict c) {n : N} {m : Nat}
    (hm : m ≤ (c.reign (c.term n)).length)
    (hpre : (c.reign (c.term n)).take m <+: c.log n) : Inv S strict (c.acknowledge n m) := by
  refine ⟨{ hI.ballots with }, { hI.logs with }, ⟨?_, ?_, hI.commits.conf_gate⟩, ?_⟩
  -- `ack_le`
  · rintro x T k (h | ⟨rfl, rfl, rfl⟩)
    · exact hI.commits.ack_le h
    · exact ⟨le_refl _, hm⟩
  -- `commit_spec`: the acknowledgements of a commit are still there
  · intro T i L hc
    obtain ⟨hown, hiL, hL, Q, hQ, hack⟩ := hI.commits.commit_spec hc
    refine ⟨hown, hiL, hL, Q, hQ, fun q hq => ?_⟩
    obtain ⟨k, hk, ha⟩ := hack q hq
    exact ⟨k, hk, Or.inl ha⟩
  · intro hstrict
    have hs := hI.safe hstrict
    have hx := extends_acknowledge (c := c) n m
    refine hs.transfer hI hx rfl rfl rfl rfl rfl ?_ ?_
    -- `hold`, then `keep`: the new acknowledgement and the older ones
    · rintro x k (hack | ⟨rfl, _, rfl⟩)
      · exact hs.hold hack
      · exact hpre
    · rintro x T k i (hack | ⟨rfl, rfl, rfl⟩) hown hik hfree
      · exact hs.keep hack hown hik (fun hb => hfree (hb.mono hI hx hown))
      · exact (List.take_prefix_take_left hik).trans hpre

/-! ## Appending as a leader -/

theorem reign_append_self (n : N) (e : E) :
    (c.append n e).reign (c.term n) = c.log n ++ [e] := Function.update_self ..

theorem reign_append_ne {n : N} {e : E} {T : ℤ} (h : T ≠ c.term n) :
    (c.append n e).reign T = c.reign T := Function.update_of_ne h ..

theorem log_append_self (n : N) (e : E) : (c.append n e).log n = c.log n ++ [e] :=
  Function.update_self ..

theorem log_append_ne {n x : N} {e : E} (h : x ≠ n) : (c.append n e).log x = c.log x :=
  Function.update_of_ne h ..

/-- A leader's log grows at its end. -/
theorem extends_append {n : N} {e : E} (hlog : c.reign (c.term n) <+: c.log n) :
    Extends c (c.append n e) :=
  { Extends.refl c with
    reign_mono := by
      intro T
      by_cases hT : T = c.term n
      · rw [hT, reign_append_self]
        exact hlog.trans (List.prefix_append _ _)
      · rw [reign_append_ne hT] }

section Append

variable {n : N} {e : E}

/-! What an append does to logs and to the records about them is the same for a leader's
first entry and for every later one: it only takes that the leader's log so far is a
prefix of the node's. -/

/-- After an append every log is chained. -/
theorem chained_log_append (hI : Inv S strict c) (hlog : c.reign (c.term n) <+: c.log n)
    (he : S.termOf e = c.term n) (x : N) :
    Chained S (c.append n e) ((c.append n e).log x) := by
  have hx : Extends c (c.append n e) := extends_append hlog
  by_cases hxn : x = n
  -- the new entry comes after the leader's whole log
  · subst hxn
    rw [log_append_self]
    refine ((hI.logs.chained_log x).mono hx).snoc ?_
    rw [he, reign_append_self]
  · rw [log_append_ne hxn]
    exact (hI.logs.chained_log x).mono hx

/-- After an append every log is ascending: the new entry is of the highest term. -/
theorem ascending_log_append (hI : Inv S strict c) (he : S.termOf e = c.term n) (x : N) :
    Ascending S ((c.append n e).log x) := by
  by_cases hxn : x = n
  · subst hxn
    rw [log_append_self]
    refine (hI.logs.ascending_log x).snoc (fun y hy => ?_)
    rw [he]
    exact hI.logs.log_le hy
  · rw [log_append_ne hxn]
    exact hI.logs.ascending_log x

/-- After an append no log holds an entry of a term its node has not reached. -/
theorem log_le_append (hI : Inv S strict c) (he : S.termOf e = c.term n) {y : E}
    (hy : y ∈ (c.append n e).log x) : S.termOf y ≤ c.term x := by
  by_cases hxn : x = n
  · subst hxn
    rw [log_append_self, List.mem_append, List.mem_singleton] at hy
    rcases hy with hy | rfl
    · exact hI.logs.log_le hy
    · exact he.le
  · rw [log_append_ne hxn] at hy
    exact hI.logs.log_le hy

/-- No log is shortened by an append. -/
theorem log_prefix_append (x : N) : c.log x <+: (c.append n e).log x := by
  by_cases hxn : x = n
  · subst hxn
    rw [log_append_self]
    exact List.prefix_append _ _
  · rw [log_append_ne hxn]

/-- An index within the old leader's log was owned before. -/
theorem own_of_append (hlog : c.reign (c.term n) <+: c.log n) {T : ℤ} {i : Nat}
    (h : Own S (c.append n e) T i) (hi : i ≤ (c.reign T).length) : Own S c T i := by
  obtain ⟨hpos, y, hy, hT⟩ := h
  refine ⟨hpos, y, ?_, hT⟩
  have hx : Extends c (c.append n e) := extends_append hlog
  rwa [getElem?_of_isPrefix_lt (hx.reign_mono T) (by omega)] at hy

/-- An append keeps what is known of commits; the condition on configurations is asked for. -/
theorem commits_append (hI : Inv S strict c) (hlog : c.reign (c.term n) <+: c.log n)
    (hgate : ∀ {T} {k : Nat} {y}, ((c.append n e).reign T)[k]? = some y → S.isConf y →
      strict ∧ Overlap (S.conf (((c.append n e).reign T).take k))
          (S.conf (((c.append n e).reign T).take (k + 1))) ∧
        (S.termOf y = T → ∃ i L, c.commit T i L ∧ L ≤ k ∧
          ∀ (k' : Nat) (x : E), k' < k → ((c.append n e).reign T)[k']? = some x → S.isConf x →
            k' < i)) : Commits S strict (c.append n e) := by
  have hx : Extends c (c.append n e) := extends_append hlog
  refine ⟨?_, ?_, hgate⟩
  -- `ack_le`: the leader's log has not become shorter
  · intro x T m ha
    exact ⟨(hI.commits.ack_le ha).1, (hI.commits.ack_le ha).2.trans (hx.reign_mono T).length_le⟩
  -- `commit_spec`: the configuration a commit was counted in lies within the old log
  · intro T i L hc
    obtain ⟨hown, hiL, hL, P, hP, hack⟩ := hI.commits.commit_spec hc
    refine ⟨hown.mono hx, hiL, hL.trans (hx.reign_mono T).length_le, P, ?_, hack⟩
    rw [take_eq_of_isPrefix (hx.reign_mono T) hL]
    exact hP

/-- The index a leader has just filled is blocked by every leader of a later term: its
entry is in nobody's log and acknowledged by nobody. -/
theorem blockedBy_append (hI : Inv S strict c) {P : Finset N} {T' : ℤ}
    {l : List E} {i : Nat} (hlog : (c.reign (c.term n)).length ≤ (c.log n).length)
    (he : S.termOf e = c.term n) (hi : i = (c.log n).length + 1) (hlt : c.term n < T')
    (hw : c.won T' x P) (hbid : c.bid x T' = some l) :
    BlockedBy (c.append n e) (c.term n) i T' := by
  refine ⟨hlt, x, P, l, hw, hbid, ?_, ?_⟩
  -- a log with the new entry would have a piece of the leader's log that is longer than it
  · intro hpre
    rw [reign_append_self, List.take_of_length_le (by simp [hi])] at hpre
    have hget : l[(c.log n).length]? = some e :=
      getElem?_of_isPrefix hpre (by rw [List.getElem?_concat_length])
    have hchain := hI.logs.chained_bid hbid _ e hget
    rw [he] at hchain
    have := hchain.length_le
    rw [length_take_of_getElem? hget] at this
    omega
  -- nobody can have acknowledged more than there was
  · intro q _ m hm hack
    have := (hI.commits.ack_le hack).2
    omega

/-! `hold`, `keep` and `heed` survive an append: what was acknowledged lies within the old
logs. -/

/-- What was acknowledged in the present term is still held after an append. -/
theorem hold_append (hI : Inv S strict c) (hs : Safe S c)
    (hlog : c.reign (c.term n) <+: c.log n) {m : Nat} (hack : c.ack x (c.term x) m) :
    ((c.append n e).reign (c.term x)).take m <+: (c.append n e).log x := by
  have hx : Extends c (c.append n e) := extends_append hlog
  rw [take_eq_of_isPrefix (hx.reign_mono _) (hI.commits.ack_le hack).2]
  exact (hs.hold hack).trans (log_prefix_append x)

/-- What was acknowledged in an earlier term is still held after an append. -/
theorem keep_append (hI : Inv S strict c) (hs : Safe S c)
    (hlog : c.reign (c.term n) <+: c.log n) {c' : Chronicle N E} (hx : Extends c c')
    (hreign : c'.reign = (c.append n e).reign) {T : ℤ} {m i : Nat} (hack : c.ack x T m)
    (hown : Own S c' T i) (him : i ≤ m) (hfree : ¬ BlockedTo c' T i (c.term x)) :
    (c'.reign T).take i <+: (c.append n e).log x := by
  -- the entry was acknowledged, so it is not the new one
  have hown' : Own S c T i := by
    refine own_of_append (e := e) hlog ?_ (him.trans (hI.commits.ack_le hack).2)
    unfold Own at hown ⊢
    rwa [hreign] at hown
  rw [hown'.take_eq hx]
  exact (hs.keep hack hown' him (fun hb => hfree (hb.mono hI hx hown'))).trans
    (log_prefix_append x)

/-- Voters still heed what they acknowledged after an append. -/
theorem heed_append (hI : Inv S strict c) (hs : Safe S c)
    (hlog : c.reign (c.term n) <+: c.log n) {c' : Chronicle N E} (hx : Extends c c')
    (hreign : c'.reign = (c.append n e).reign) {x m : N} {T' T : ℤ} {l : List E} {k i : Nat}
    (hv : c.vote x T' = some m) (hb : c.bid m T' = some l) (hlt : T < T') (hack : c.ack x T k)
    (hown : Own S c' T i) (hik : i ≤ k) (hfree : ¬ BlockedTo c' T i T') :
    T < lastTerm S l ∨ (T = lastTerm S l ∧ i ≤ l.length) := by
  have hown' : Own S c T i := by
    refine own_of_append (e := e) hlog ?_ (hik.trans (hI.commits.ack_le hack).2)
    unfold Own at hown ⊢
    rwa [hreign] at hown
  exact hs.heed hv hb hlt hack hown' hik (fun h => hfree (h.mono hI hx hown'))

end Append

section Extend

variable {n : N} {Q : Finset N} {e : E}

/-- A leader's append keeps what is known of logs. -/
theorem Inv.logs_extend (hI : Inv S strict c) (hwon : c.won (c.term n) n Q)
    (he : S.termOf e = c.term n) : Logs S (c.append n e) := by
  have hlog := hI.logs.leader_log hwon rfl
  have hpre : c.reign (c.term n) <+: c.log n := hlog ▸ List.prefix_refl _
  refine ⟨chained_log_append hI hpre he, ascending_log_append hI he, log_le_append hI he,
    fun hb => (hI.logs.chained_bid hb).mono (extends_append hpre), hI.logs.ascending_bid,
    hI.logs.bid_lt, ?_, ?_, ?_⟩
  -- `won_bid`
  · intro T x P hw
    obtain ⟨l, own, hbid, hmaj, hr, hne, hterm⟩ := hI.logs.won_bid hw
    by_cases hT : T = c.term n
    · -- the entry is one more that the leader of the term has appended itself
      subst hT
      refine ⟨l, own ++ [e], hbid, hmaj, ?_, by simp, ?_⟩
      · rw [reign_append_self, hlog, hr, List.append_assoc]
      · intro y hy
        rw [List.mem_append, List.mem_singleton] at hy
        rcases hy with hy | rfl
        · exact hterm y hy
        · exact he
    · exact ⟨l, own, hbid, hmaj, by rw [reign_append_ne hT, hr], hne, hterm⟩
  -- `reign_won`
  · intro T hne
    by_cases hT : T = c.term n
    · exact ⟨n, Q, hT ▸ hwon⟩
    · rw [reign_append_ne hT] at hne
      exact hI.logs.reign_won hne
  -- `leader_log`: the leader's log and the record of it grow together
  · intro T x P hw hT
    by_cases hxn : x = n
    · subst hxn
      subst hT
      exact (log_append_self x e).trans (reign_append_self x e).symm
    · rw [log_append_ne hxn]
      have hTn : T ≠ c.term n := by
        rintro rfl
        exact hxn (hI.ballots.won_unique hw hwon).1
      rw [reign_append_ne hTn]
      exact hI.logs.leader_log hw hT

/-- The gates of the entries that were there stay, and the new entry has passed its own. -/
theorem Inv.gate_extend (hI : Inv S strict c) (hwon : c.won (c.term n) n Q)
    (hconf : S.isConf e → strict ∧ Overlap (S.conf (c.log n)) (S.conf (c.log n ++ [e])) ∧
      ∃ i L, c.commit (c.term n) i L ∧
        ∀ (k : Nat) (x : E), (c.log n)[k]? = some x → S.isConf x → k < i)
    {T : ℤ} {k : Nat} {y : E} (hy : ((c.append n e).reign T)[k]? = some y) (hc : S.isConf y) :
    strict ∧ Overlap (S.conf (((c.append n e).reign T).take k))
        (S.conf (((c.append n e).reign T).take (k + 1))) ∧
      (S.termOf y = T → ∃ i L, c.commit T i L ∧ L ≤ k ∧
        ∀ (k' : Nat) (x : E), k' < k → ((c.append n e).reign T)[k']? = some x → S.isConf x →
          k' < i) := by
  have hlog := hI.logs.leader_log hwon rfl
  have hpre : c.reign (c.term n) <+: c.log n := hlog ▸ List.prefix_refl _
  have hmono := (extends_append (e := e) hpre).reign_mono T
  rcases Nat.lt_or_ge k (c.reign T).length with hk | hk
  · -- an entry that was there already: nothing below it moved
    rw [getElem?_of_isPrefix_lt hmono hk] at hy
    obtain ⟨h1, h2, h3⟩ := hI.commits.conf_gate hy hc
    rw [take_eq_of_isPrefix hmono hk.le, take_eq_of_isPrefix hmono hk]
    refine ⟨h1, h2, fun hT => ?_⟩
    obtain ⟨i, L, hcom, hLk, hbelow⟩ := h3 hT
    refine ⟨i, L, hcom, hLk, fun k' z hk' hz => hbelow k' z hk' ?_⟩
    rwa [getElem?_of_isPrefix_lt hmono (by omega)] at hz
  -- the new entry is the last of its term
  · have hT : T = c.term n := by
      by_contra hT
      rw [reign_append_ne hT, List.getElem?_eq_none hk] at hy
      cases hy
    subst hT
    -- and it stands right behind the old log
    have hkl : k = (c.log n).length := by
      have := (List.getElem?_eq_some_iff.mp hy).1
      rw [reign_append_self, List.length_append, List.length_singleton] at this
      rw [← hlog] at hk
      omega
    subst hkl
    rw [reign_append_self, List.getElem?_concat_length, Option.some.injEq] at hy
    subst hy
    obtain ⟨h1, h2, i, L, hcom, hbelow⟩ := hconf hc
    refine ⟨h1, ?_, fun _ => ⟨i, L, hcom, ?_, ?_⟩⟩
    · rw [reign_append_self, List.take_append_of_le_length (le_refl _), List.take_length,
        List.take_of_length_le (by simp)]
      exact h2
    · obtain ⟨_, _, hL, _⟩ := hI.commits.commit_spec hcom
      rwa [← hlog] at hL
    · intro k' z hk' hz
      rw [reign_append_self, List.getElem?_append_left hk'] at hz
      exact hbelow k' z hz

/-- A leader's append keeps what is known of commits. -/
theorem Inv.safe_extend (hI : Inv S strict c) (hs : Safe S c) (hwon : c.won (c.term n) n Q)
    (he : S.termOf e = c.term n) : Safe S (c.append n e) := by
  have hlog := hI.logs.leader_log hwon rfl
  have hpre : c.reign (c.term n) <+: c.log n := hlog ▸ List.prefix_refl _
  have hx : Extends c (c.append n e) := extends_append hpre
  refine ⟨hold_append hI hs hpre, keep_append hI hs hpre hx rfl,
    heed_append hI hs hpre hx rfl, ?_, ?_⟩
  -- `inherit`
  · intro T' x P l T i hw hb hlt hown hfree
    rcases Nat.lt_or_ge (c.reign T).length i with hi | hi
    · -- the new entry: every later leader blocks it
      have hT : T = c.term n := by
        by_contra hT
        have := hown.le_length
        rw [reign_append_ne hT] at this
        omega
      subst hT
      have hlen := hown.le_length
      rw [reign_append_self, List.length_append, List.length_singleton] at hlen
      rw [← hlog] at hi
      refine absurd ⟨T', le_refl _, ?_⟩ hfree
      exact blockedBy_append hI hpre.length_le he (by omega) hlt hw hb
    -- an entry that was there already
    · have hown' := own_of_append hpre hown hi
      rw [hown'.take_eq hx]
      exact hs.inherit hw hb hlt hown' (fun h => hfree (h.mono hI hx hown'))
  -- `sealed`
  · rintro T i L hc T' ⟨hlt, x, P, l, hw, hb, hnot, hack⟩
    obtain ⟨hown, _⟩ := hI.commits.commit_spec hc
    rw [hown.take_eq hx] at hnot
    exact hs.sealed hc T' ⟨hlt, x, P, l, hw, hb, hnot, hack⟩

/-- **A leader's append keeps the invariant**, if it changes the configuration only as the rules
allow. -/
theorem Inv.extend (hI : Inv S strict c) (hwon : c.won (c.term n) n Q) (he : S.termOf e = c.term n)
    (hconf : S.isConf e → strict ∧ Overlap (S.conf (c.log n)) (S.conf (c.log n ++ [e])) ∧
      ∃ i L, c.commit (c.term n) i L ∧
        ∀ (k : Nat) (x : E), (c.log n)[k]? = some x → S.isConf x → k < i) :
    Inv S strict (c.append n e) := by
  have hpre : c.reign (c.term n) <+: c.log n :=
    hI.logs.leader_log hwon rfl ▸ List.prefix_refl _
  exact ⟨{ hI.ballots with }, hI.logs_extend hwon he,
    commits_append hI hpre (hI.gate_extend hwon hconf),
    fun hstrict => hI.safe_extend (hI.safe hstrict) hwon he⟩

end Extend

end Consensus
