import RaftStore.Consensus.Agreement

/-!
# What a leader may read

A leader that has committed an entry of its own term knows of every commit of that term and of
all earlier ones (`Inv.commit_isPrefix`). That there is no commit of a later term it learns from
a majority of voters that have not yet reached one (`Inv.commit_le_of_quorum`). Both together are
the argument behind reading at the commit index.
-/

namespace Consensus

variable {N E : Type} {S : Scheme N E} {strict : Prop} {c c' : Chronicle N E}
  {T T' : ℤ} {l : List E}

/-- Everything committed in a term up to `T` is part of `l`. -/
def HasCommitsTo (c : Chronicle N E) (T : ℤ) (l : List E) : Prop :=
  ∀ T' i L, c.commit T' i L → T' ≤ T → (c.reign T').take i <+: l

/-- Everything committed is part of `l`. -/
def HasCommits (c : Chronicle N E) (l : List E) : Prop :=
  ∀ T i L, c.commit T i L → (c.reign T).take i <+: l

theorem HasCommits.settled (h : HasCommits c l) {l' : List E} (hset : Settled c T l') :
    l' <+: l := by
  rcases hset with rfl | ⟨T', i, L, hc, _, hl⟩
  · exact List.nil_prefix
  · exact hl.trans (h T' i L hc)

/-- Commits on record stay what they are. -/
theorem HasCommitsTo.of_extends (h : HasCommitsTo c' T l) (hI : Inv S strict c)
    (hx : Extends c c') : HasCommitsTo c T l := by
  intro T' i L hc hle
  have := h T' i L (hx.commit_mono hc) hle
  rwa [(hI.commits.commit_spec hc).1.take_eq hx] at this

/-- **Nothing is committed beyond a term that a majority has not passed**, for a configuration
that never changes: the voters who elected a later leader would be among them. -/
theorem Inv.commit_le_of_quorum [DecidableEq N] (hI : Inv S strict c) {C A : Finset N}
    (hconf : ∀ {n T l}, c.bid n T = some l → S.conf l = C) (hA : Majority A C)
    (hterm : ∀ p ∈ A, c.term p ≤ T) {i L : Nat} (hc : c.commit T' i L) : T' ≤ T := by
  obtain ⟨n, Q, hwon⟩ := hI.exists_won hc
  obtain ⟨l, _, hbid, hQ, _⟩ := hI.logs.won_bid hwon
  rw [hconf hbid] at hQ
  obtain ⟨q, hqA, hqQ⟩ := Overlap.refl C A Q hA hQ
  exact (hI.ballots.vote_le (hI.ballots.won_vote hwon hqQ)).trans (hterm q hqA)

/-- **A leader's commit index covers its past**, once it has committed an entry of its own. -/
theorem Inv.commit_isPrefix (hI : Inv S strict c) (hs : Safe S c) {n : N} {Q : Finset N} {k L : Nat}
    (hwon : c.won T n Q) (hown : c.commit T k L) (hlast : ∀ {i L}, c.commit T i L → i ≤ k) :
    HasCommitsTo c T ((c.reign T).take k) := by
  intro T' i L' hc hle
  obtain ⟨⟨hi, e, he, hT'⟩, _, _, _⟩ := hI.commits.commit_spec hc
  obtain ⟨⟨hk, x, hx, hT⟩, _, _, _⟩ := hI.commits.commit_spec hown
  rcases hle.lt_or_eq with hlt | rfl
  · have hpre : (c.reign T').take i <+: c.reign T :=
      Settled.isPrefix_reign (Or.inr ⟨T', i, L', hc, le_refl _, List.prefix_refl _⟩) hI hs hwon hle
    -- terms do not fall along the log, so the older commit lies below the leader's own
    have hik : i ≤ k := by
      by_contra hgt
      have hget : (c.reign T)[i - 1]? = some e :=
        getElem?_of_isPrefix hpre (getElem?_take_succ he (by omega))
      have := hI.ascending_reign T (k - 1) (i - 1) x e (by omega) hx hget
      omega
    rw [List.prefix_take_iff]
    exact ⟨hpre, (List.length_take_le _ _).trans hik⟩
  · exact List.take_prefix_take_left (hlast hc)

end Consensus
