import RaftStore.Consensus.Configuration

/-!
# Elections and commits, and the safety of the whole protocol

The two steps left over. Under `strict` a bid that gathers a majority of its own
configuration holds everything committed in earlier terms (`Inv.bid_contains`): by
induction on the term, its configuration overlaps with the one a leader first committed
with, so a voter of the bid had acknowledged the commit. Then the bid's configuration
overlaps with the one of any other winner of its term, and the winner is unique
(`Inv.win_fresh`). Without `strict` the configuration never changes and uniqueness is
immediate. A commit is safe for the same reason, with the roles exchanged
(`Inv.seal_sealed`).

`Step.inv` collects the steps.
-/

namespace Consensus

variable {N E : Type} [DecidableEq N] {S : Scheme N E} {strict : Prop} {c c' : Chronicle N E}

/-! ## The configuration a leader commits with -/

omit [DecidableEq N] in
/-- A leader was elected with everything committed in earlier terms. -/
theorem Inv.won_contains (hs : Safe S c) (hI : Inv S strict c) {X : ℤ} {m : N} {Q : Finset N}
    {l : List E} (hwon : c.won X m Q) (hbid : c.bid m X = some l) : Contains c X l := by
  intro t i L hc ht
  exact hs.inherit hwon hbid ht (hI.commits.commit_spec hc).1 (hs.not_blockedTo hc)

section FirstMiss

variable {l : List E} {T : ℤ} {i L : Nat}

omit [DecidableEq N] in
theorem getElem?_of_take {r : List E} {k : Nat} {x : E} (h : (r.take L)[k]? = some x) :
    k < L ∧ r[k]? = some x := by
  rw [List.getElem?_take] at h
  split at h
  · next hk => exact ⟨hk, h⟩
  · cases h

omit [DecidableEq N] in
/-- Let no commit of `T` that `l` misses have been made with a leader's log shorter than `L`. A
change of term `T` below `L` was made after a commit, and that one `l` has not missed. -/
theorem Inv.gate_held (hI : Inv S strict c)
    (hmin : ∀ i' L', c.commit T i' L' → ¬ (c.reign T).take i' <+: l → L ≤ L') {k : Nat} {y : E}
    (hk : k < L) (hy : (c.reign T)[k]? = some y) (hc : S.isConf y) (hT : S.termOf y = T) :
    ∃ i' L', c.commit T i' L' ∧ (c.reign T).take i' <+: l ∧
      ∀ (k' : Nat) (x : E), k' < k → (c.reign T)[k']? = some x → S.isConf x → k' < i' := by
  obtain ⟨_, _, hgate⟩ := hI.commits.conf_gate hy hc
  obtain ⟨i', L', hcom, hL', hbelow⟩ := hgate hT
  refine ⟨i', L', hcom, ?_, hbelow⟩
  by_contra hmiss
  have := hmin i' L' hcom hmiss
  omega

/-- The case of a log that reaches into term `T`: it is a prefix of the leader's log, and between
its end and `L` there is one change at most. -/
theorem Inv.reign_overlap_of_mem (hI : Inv S strict c) (hown : Own S c T i) (hiL : i ≤ L)
    (hch : Chained S c l) (hasc : Ascending S l) (hle : ∀ e ∈ l, S.termOf e ≤ T)
    (hmiss : ¬ (c.reign T).take i <+: l)
    (hmin : ∀ i' L', c.commit T i' L' → ¬ (c.reign T).take i' <+: l → L ≤ L') {p : Nat} {x : E}
    (hx : l[p]? = some x) (hxT : S.termOf x = T) :
    Overlap (S.conf ((c.reign T).take L)) (S.conf l) := by
  have hplt : p < l.length := (List.getElem?_eq_some_iff.mp hx).1
  -- an entry of `T` in `l` makes it a part of that reign
  have hpre : l <+: c.reign T := by
    obtain ⟨y, hy⟩ : ∃ y, l[l.length - 1]? = some y := ⟨_, List.getElem?_eq_getElem (by omega)⟩
    have h1 := hasc p (l.length - 1) x y (by omega) hx hy
    have h2 := hle y (List.mem_of_getElem? hy)
    have h := hch _ y hy
    rwa [show S.termOf y = T from by omega, show l.length - 1 + 1 = l.length from by omega,
      List.take_length] at h
  -- too short to hold what is committed
  have hshort : l.length < i := by
    by_contra hge
    refine hmiss (List.prefix_of_prefix_length_le (List.take_prefix _ _) hpre ?_)
    rw [hown.length_take]
    omega
  -- above the end of `l` there is one change at most
  have hone : AtMostOne S l.length ((c.reign T).take L) := by
    intro k k' e e' hk hkk' he he' hc hc'
    obtain ⟨_, hr⟩ := getElem?_of_take he
    obtain ⟨hk'L, hr'⟩ := getElem?_of_take he'
    have hterm : S.termOf e' = T := by
      have h1 := hI.ascending_reign T p k' x e' (by omega) (getElem?_of_isPrefix hpre hx) hr'
      have h2 := hI.reign_le (List.mem_of_getElem? hr')
      omega
    -- the commit behind the later change covers the earlier one, so `l` would hold that
    obtain ⟨i', L', hcom, hheld, hbelow⟩ := hI.gate_held hmin hk'L hr' hc' hterm
    have hki := hbelow k e hkk' hr hc
    have hlen := hheld.length_le
    rw [(hI.commits.commit_spec hcom).1.length_take] at hlen
    omega
  have hcut : ((c.reign T).take L).take l.length = l := by
    rw [List.take_take, Nat.min_eq_left (by omega), take_eq_of_isPrefix hpre (le_refl _),
      List.take_length]
  have hov := hI.overlap_of_atMostOne
    ((hI.chained_reign T).of_isPrefix (List.take_prefix L _)) hone
  rw [hcut] at hov
  exact hov.symm

/-- The case of a log that stops before term `T`: up to `L` the leader has not changed the
configuration that it was elected with. -/
theorem Inv.reign_overlap_of_not_mem (hI : Inv S strict c) (hs : Safe S c) (hown : Own S c T i)
    (hiL : i ≤ L) (hch : Chained S c l) (hasc : Ascending S l) (hlt : ∀ e ∈ l, S.termOf e < T)
    (hmin : ∀ i' L', c.commit T i' L' → ¬ (c.reign T).take i' <+: l → L ≤ L')
    (hlow : Contains c T l) : Overlap (S.conf ((c.reign T).take L)) (S.conf l) := by
  obtain ⟨hi, e, he, heT⟩ := id hown
  obtain ⟨m, Q, hwon⟩ := hI.logs.reign_won (List.ne_nil_of_mem (List.mem_of_getElem? he))
  obtain ⟨lT, own, hbid, _, hreign, _, hterm⟩ := hI.logs.won_bid hwon
  -- the entry is of `T` itself, so it was appended after the election
  have hlT : lT.length < i := by
    by_contra hge
    rw [hreign, List.getElem?_append_left (by omega)] at he
    have := hI.logs.bid_lt hbid (List.mem_of_getElem? he)
    omega
  -- no change was made before the first commit of the term
  have hquiet : Quiet S lT.length ((c.reign T).take L) := by
    intro k x hk hx hc
    obtain ⟨hkL, hr⟩ := getElem?_of_take hx
    have hxT : S.termOf x = T := by
      rw [hreign, List.getElem?_append_right hk] at hr
      exact hterm x (List.mem_of_getElem? hr)
    -- the commit behind the change is of term `T`, and `l` holds nothing of that term
    obtain ⟨i', L', hcom, hheld, _⟩ := hI.gate_held hmin hkL hr hc hxT
    obtain ⟨y, hy, hyT⟩ := (hI.commits.commit_spec hcom).1.getElem?_of_isPrefix hheld
    have := hlt y (List.mem_of_getElem? hy)
    omega
  have hconf : S.conf ((c.reign T).take L) = S.conf lT := by
    rw [conf_of_quiet hquiet, List.take_take, Nat.min_eq_left (by omega), hreign,
      List.take_append_of_le_length (le_refl _), List.take_length]
  rw [hconf]
  exact hI.overlap_of_contains (X := T) (hI.logs.chained_bid hbid) (hI.logs.ascending_bid hbid)
    (fun x hx => hI.logs.bid_lt hbid hx) hch hasc hlt (hI.won_contains hs hwon hbid) hlow

/-- **The first commit that a bid misses.** Let `l` hold everything committed below `T` but
not the first `i` entries of `reign T`, and let no commit of `T` that it misses have been
made with a leader's log shorter than `L`. Then the configuration of that log, cut at `L`,
overlaps with the one of `l`. -/
theorem Inv.reign_overlap (hI : Inv S strict c) (hs : Safe S c) (hown : Own S c T i) (hiL : i ≤ L)
    (hch : Chained S c l) (hasc : Ascending S l) (hle : ∀ e ∈ l, S.termOf e ≤ T)
    (hmiss : ¬ (c.reign T).take i <+: l)
    (hmin : ∀ i' L', c.commit T i' L' → ¬ (c.reign T).take i' <+: l → L ≤ L')
    (hlow : Contains c T l) : Overlap (S.conf ((c.reign T).take L)) (S.conf l) := by
  -- `l` has an entry of the term, or it has none
  by_cases hT : ∃ x ∈ l, S.termOf x = T
  · obtain ⟨x, hx, hxT⟩ := hT
    obtain ⟨p, hp⟩ := List.getElem?_of_mem hx
    exact hI.reign_overlap_of_mem hown hiL hch hasc hle hmiss hmin hp hxT
  · push Not at hT
    exact hI.reign_overlap_of_not_mem hs hown hiL hch hasc
      (fun x hx => lt_of_le_of_ne (hle x hx) (hT x hx)) hmin hlow

end FirstMiss

/-! ## Elections -/

omit [DecidableEq N] in
/-- Entries above the last term of a log: there are none. -/
theorem le_of_lastTerm {l : List E} (hasc : Ascending S l) {T : ℤ} (h : ¬ T < lastTerm S l) :
    ∀ e ∈ l, S.termOf e ≤ T := by
  intro e he
  obtain ⟨p, hp⟩ := List.getElem?_of_mem he
  -- the last entry has the greatest term
  have hplt : p < l.length := (List.getElem?_eq_some_iff.mp hp).1
  obtain ⟨y, hy⟩ : ∃ y, l[l.length - 1]? = some y := ⟨_, List.getElem?_eq_getElem (by omega)⟩
  have h1 := hasc p (l.length - 1) e y (by omega) hp hy
  rw [lastTerm_of_getElem? hy] at h
  omega

/-- **A winning bid holds every earlier commit.** Induction on the term of the commit. -/
theorem Inv.bid_contains (hI : Inv S strict c) (hs : Safe S c) {m : N} {X : ℤ} {l : List E}
    {Q : Finset N} (hbid : c.bid m X = some l) (hQ : Majority Q (S.conf l))
    (hvotes : ∀ q ∈ Q, c.vote q X = some m) : Contains c X l := by
  have hch := hI.logs.chained_bid hbid
  have hasc := hI.logs.ascending_bid hbid
  suffices h : ∀ k : Nat, ∀ T : ℤ, T.toNat = k → ∀ i L, c.commit T i L → T < X →
      (c.reign T).take i <+: l from fun t i L hc ht => h _ t rfl i L hc ht
  intro k
  induction k using Nat.strong_induction_on with
  | _ k ih =>
    intro T hTk i L hc hTX
    by_contra hmiss
    have hlow : Contains c T l := by
      intro t i' L' hc' ht
      have htpos := (hI.commits.commit_spec hc').1.pos hI
      exact ih t.toNat (by omega) t rfl i' L' hc' (by omega)
    -- among the commits of `T` that `l` misses, take one with the shortest leader's log
    let p : Nat → Prop := fun L' => ∃ i', c.commit T i' L' ∧ ¬ (c.reign T).take i' <+: l
    have hex : ∃ L', p L' := ⟨L, i, hc, hmiss⟩
    classical
    obtain ⟨i₀, hc₀, hmiss₀⟩ := Nat.find_spec hex
    have hmin : ∀ i' L', c.commit T i' L' → ¬ (c.reign T).take i' <+: l → Nat.find hex ≤ L' :=
      fun i' L' h1 h2 => Nat.find_min' hex ⟨i', h1, h2⟩
    obtain ⟨hown, hiL, hL, Q₀, hQ₀, hack⟩ := hI.commits.commit_spec hc₀
    -- a later entry carries the commit; otherwise the majorities meet
    by_cases hlast : T < lastTerm S l
    · exact hmiss₀ (hI.carries hs hch hown (Or.inl hlast) (hs.not_blockedTo hc₀))
    · have hov := hI.reign_overlap hs hown hiL hch hasc (le_of_lastTerm hasc hlast) hmiss₀ hmin hlow
      obtain ⟨q, hq₀, hq⟩ := hov Q₀ Q hQ₀ hQ
      obtain ⟨j, hij, haq⟩ := hack q hq₀
      exact hmiss₀ (hI.bid_inherits hs (hvotes q hq) hbid hTX haq hown hij
        (hs.not_blockedTo hc₀))

omit [DecidableEq N] in
/-- Without `strict` no log ever holds a configuration change. -/
theorem Inv.quiet_of_not_strict (hI : Inv S strict c) (hns : ¬ strict) {l : List E}
    (hch : Chained S c l) : Quiet S 0 l := by
  intro k e _ he hc
  have hget : (c.reign (S.termOf e))[k]? = some e :=
    getElem?_of_isPrefix (hch k e he) (getElem?_take_succ he (by omega))
  exact hns (hI.commits.conf_gate hget hc).1

/-- **Nobody else has won the term.** -/
theorem Inv.win_fresh (hI : Inv S strict c) {n : N} {Q : Finset N} {l : List E} {T : ℤ}
    (hbid : c.bid n T = some l) (hQ : Majority Q (S.conf l))
    (hvotes : ∀ q ∈ Q, c.vote q T = some n) (hnew : ∀ Q, ¬ c.won T n Q) :
    ∀ m P, ¬ c.won T m P := by
  intro m P hwon
  obtain ⟨l', own, hbid', hP, _⟩ := hI.logs.won_bid hwon
  -- both logs hold all commits before the term, so the configurations overlap
  have hov : Overlap (S.conf l) (S.conf l') := by
    by_cases hstrict : strict
    · have hs := hI.safe hstrict
      exact hI.overlap_of_contains (X := T) (hI.logs.chained_bid hbid) (hI.logs.ascending_bid hbid)
        (fun x hx => hI.logs.bid_lt hbid hx) (hI.logs.chained_bid hbid')
        (hI.logs.ascending_bid hbid') (fun x hx => hI.logs.bid_lt hbid' hx)
        (hI.bid_contains hs hbid hQ hvotes) (hI.won_contains hs hwon hbid')
    · rw [conf_of_quiet (hI.quiet_of_not_strict hstrict (hI.logs.chained_bid hbid)),
        conf_of_quiet (hI.quiet_of_not_strict hstrict (hI.logs.chained_bid hbid'))]
      exact Overlap.refl _
  -- a common voter would have voted twice
  obtain ⟨q, hq, hq'⟩ := hov Q P hQ hP
  have h1 := hvotes q hq
  rw [hI.ballots.won_vote hwon hq'] at h1
  have hmn : m = n := Option.some.inj h1
  exact hnew P (hmn ▸ hwon)

section Win

variable {n : N} {Q : Finset N} {e : E}

omit [DecidableEq N] in
/-- Before its leader is elected, a term has no leader's log. -/
theorem Inv.reign_nil (hI : Inv S strict c) {T : ℤ} (hfresh : ∀ m P, ¬ c.won T m P) :
    c.reign T = [] := by
  by_contra hne
  obtain ⟨m, P, hw⟩ := hI.logs.reign_won hne
  exact hfresh m P hw

theorem extends_win (hlog : c.reign (c.term n) <+: c.log n) : Extends c (c.win n Q e) :=
  { extends_append (e := e) hlog with won_mono := Or.inl }

/-- The gate of a configuration change in the log a leader was elected with is the gate it
passed in its own term. -/
theorem Inv.gate_win (hI : Inv S strict c) (hbid : c.bid n (c.term n) = some (c.log n))
    (hconf : ¬ S.isConf e) {T : ℤ} {k : Nat} {y : E}
    (hy : ((c.append n e).reign T)[k]? = some y) (hc : S.isConf y) :
    strict ∧ Overlap (S.conf (((c.append n e).reign T).take k))
        (S.conf (((c.append n e).reign T).take (k + 1))) ∧
      (S.termOf y = T → ∃ i L, c.commit T i L ∧ L ≤ k ∧
        ∀ (k' : Nat) (x : E), k' < k → ((c.append n e).reign T)[k']? = some x → S.isConf x →
          k' < i) := by
  -- in the new term only the first entry is new
  by_cases hT : T = c.term n
  · subst hT
    rw [reign_append_self] at hy ⊢
    have hk : k < (c.log n).length := by
      by_contra hge
      have hlt := (List.getElem?_eq_some_iff.mp hy).1
      rw [List.length_append, List.length_singleton] at hlt
      rw [show k = (c.log n).length from by omega, List.getElem?_concat_length,
        Option.some.injEq] at hy
      exact hconf (hy ▸ hc)
    rw [List.getElem?_append_left hk] at hy
    have hpre := hI.logs.chained_log n k y hy
    have hget := getElem?_of_isPrefix hpre (getElem?_take_succ hy (Nat.lt_succ_self k))
    have hlt := hI.logs.bid_lt hbid (List.mem_of_getElem? hy)
    refine ⟨(hI.commits.conf_gate hget hc).1, ?_, fun h => by omega⟩
    rw [List.take_append_of_le_length hk.le, List.take_append_of_le_length hk]
    exact (hI.gate (hI.logs.chained_log n) hy hc).1
  · rw [reign_append_ne hT] at hy ⊢
    exact hI.commits.conf_gate hy hc

theorem Inv.logs_win (hI : Inv S strict c) (hbid : c.bid n (c.term n) = some (c.log n))
    (hQ : Majority Q (S.conf (c.log n))) (hfresh : ∀ m P, ¬ c.won (c.term n) m P)
    (he : S.termOf e = c.term n) : Logs S (c.win n Q e) := by
  have hpre : c.reign (c.term n) <+: c.log n := by
    rw [hI.reign_nil hfresh]
    exact List.nil_prefix
  have hx : Extends c (c.win n Q e) := extends_win hpre
  refine ⟨chained_log_append hI hpre he, ascending_log_append hI he, log_le_append hI he,
    fun hb => (hI.logs.chained_bid hb).mono hx, hI.logs.ascending_bid, hI.logs.bid_lt, ?_, ?_, ?_⟩
  -- an old election, or this one
  · rintro T m P (hw | ⟨rfl, rfl, rfl⟩)
    · obtain ⟨l, own, hb, hmaj, hr, hne, hterm⟩ := hI.logs.won_bid hw
      have hT : T ≠ c.term n := by
        rintro rfl
        exact hfresh m P hw
      exact ⟨l, own, hb, hmaj, (reign_append_ne hT).trans hr, hne, hterm⟩
    · refine ⟨c.log m, [e], hbid, hQ, reign_append_self m e, by simp, ?_⟩
      intro y hy
      rw [List.mem_singleton] at hy
      exact hy ▸ he
  · intro T hne
    by_cases hT : T = c.term n
    · exact ⟨n, Q, Or.inr ⟨hT, rfl, rfl⟩⟩
    · have hne' : c.reign T ≠ [] := by
        rw [← reign_append_ne (e := e) hT]
        exact hne
      obtain ⟨m, P, hw⟩ := hI.logs.reign_won hne'
      exact ⟨m, P, Or.inl hw⟩
  · rintro T m P (hw | ⟨rfl, rfl, rfl⟩) hT
    · have hTn : T ≠ c.term n := by
        rintro rfl
        exact hfresh m P hw
      have hmn : m ≠ n := by
        rintro rfl
        exact hTn hT.symm
      exact (log_append_ne hmn).trans ((hI.logs.leader_log hw hT).trans (reign_append_ne hTn).symm)
    · exact (log_append_self m e).trans (reign_append_self m e).symm

theorem bid_win {l : List E} (hbid : c.bid n (c.term n) = some (c.log n))
    (hb : (c.win n Q e).bid n (c.term n) = some l) : l = c.log n :=
  Option.some.inj (hb.symm.trans hbid)

/-- In its own term the new leader owns its first entry, and nothing else. -/
theorem Inv.own_win (hI : Inv S strict c) (hbid : c.bid n (c.term n) = some (c.log n)) {i : Nat}
    (hown : Own S (c.win n Q e) (c.term n) i) : i = (c.log n).length + 1 := by
  obtain ⟨hpos, y, hy, hyT⟩ := hown
  rw [show (c.win n Q e).reign (c.term n) = c.log n ++ [e] from reign_append_self n e] at hy
  have hlen := (List.getElem?_eq_some_iff.mp hy).1
  rw [List.length_append, List.length_singleton] at hlen
  -- an old entry is of an older term
  rcases Nat.lt_or_ge (i - 1) (c.log n).length with h | h
  · rw [List.getElem?_append_left h] at hy
    have := hI.logs.bid_lt hbid (List.mem_of_getElem? hy)
    omega
  · omega

/-- What no leader blocks, the new leader included, the new leader holds: otherwise one of its
voters has acknowledged it, and vouches for the log that it voted for. -/
theorem Inv.elected_holds (hI : Inv S strict c) (hs : Safe S c)
    (hbid : c.bid n (c.term n) = some (c.log n)) (hvotes : ∀ q ∈ Q, c.vote q (c.term n) = some n)
    (hx : Extends c (c.win n Q e)) {T : ℤ} {i : Nat} (hlt : T < c.term n) (hown : Own S c T i)
    (hfree : ¬ BlockedTo (c.win n Q e) T i (c.term n)) : (c.reign T).take i <+: c.log n := by
  by_contra hnot
  -- otherwise the new election itself blocks it
  have hack : ∃ q ∈ Q, ∃ k, i ≤ k ∧ c.ack q T k := by
    by_contra hno
    push Not at hno
    refine hfree ⟨c.term n, le_refl _, hlt, n, Q, c.log n, Or.inr ⟨rfl, rfl, rfl⟩, hbid, ?_, hno⟩
    rw [hown.take_eq hx]
    exact hnot
  obtain ⟨q, hq, k, hik, ha⟩ := hack
  exact hnot (hI.bid_inherits hs (hvotes q hq) hbid hlt ha hown hik
    (fun h => hfree (h.mono hI hx hown)))

theorem Inv.safe_win (hI : Inv S strict c) (hs : Safe S c)
    (hbid : c.bid n (c.term n) = some (c.log n)) (hQ : Majority Q (S.conf (c.log n)))
    (hvotes : ∀ q ∈ Q, c.vote q (c.term n) = some n) (hfresh : ∀ m P, ¬ c.won (c.term n) m P)
    (he : S.termOf e = c.term n) : Safe S (c.win n Q e) := by
  have hpre : c.reign (c.term n) <+: c.log n := by
    rw [hI.reign_nil hfresh]
    exact List.nil_prefix
  have hx : Extends c (c.win n Q e) := extends_win hpre
  refine ⟨hold_append hI hs hpre, keep_append hI hs hpre hx rfl,
    heed_append hI hs hpre hx rfl, ?_, ?_⟩
  · rintro T' m P l T i hw hb hlt hown hfree
    by_cases hT : T = c.term n
    · -- the new entry itself: whoever leads a later term already is elected without it
      subst hT
      have hw' : c.won T' m P := by
        rcases hw with hw | ⟨hT', _⟩
        · exact hw
        · omega
      obtain ⟨_, m', P', l', hw₁, hb₁, hnot, hack⟩ :=
        blockedBy_append (e := e) hI hpre.length_le he (hI.own_win hbid hown) hlt hw' hb
      exact absurd ⟨T', le_refl _, hlt, m', P', l', Or.inl hw₁, hb₁, hnot, hack⟩ hfree
    · have hown' : Own S c T i := by
        obtain ⟨hi, y, hy, hyT⟩ := hown
        refine ⟨hi, y, ?_, hyT⟩
        rwa [show (c.win n Q e).reign T = c.reign T from reign_append_ne hT] at hy
      rw [hown'.take_eq hx]
      rcases hw with hw | ⟨rfl, rfl, rfl⟩
      · exact hs.inherit hw hb hlt hown' (fun h => hfree (h.mono hI hx hown'))
      · rw [bid_win hbid hb]
        exact hI.elected_holds hs hbid hvotes hx hlt hown' hfree
  -- a commit was blocked by no election before, and is not by this one
  · rintro T i L hc T' ⟨hlt, m, P, l, hw, hb, hnot, hack⟩
    have hown := (hI.commits.commit_spec hc).1
    rw [hown.take_eq hx] at hnot
    rcases hw with hw | ⟨rfl, rfl, rfl⟩
    · exact hs.sealed hc T' ⟨hlt, m, P, l, hw, hb, hnot, hack⟩
    · rw [bid_win hbid hb] at hnot
      exact hnot (hI.bid_contains hs hbid hQ hvotes hc hlt)

/-- **Winning an election keeps the invariant.** -/
theorem Inv.win (hI : Inv S strict c) (hbid : c.bid n (c.term n) = some (c.log n))
    (hQ : Majority Q (S.conf (c.log n))) (hvotes : ∀ q ∈ Q, c.vote q (c.term n) = some n)
    (hnew : ∀ Q, ¬ c.won (c.term n) n Q) (he : S.termOf e = c.term n) (hconf : ¬ S.isConf e) :
    Inv S strict (c.win n Q e) := by
  have hfresh := hI.win_fresh hbid hQ hvotes hnew
  have hpre : c.reign (c.term n) <+: c.log n := by
    rw [hI.reign_nil hfresh]
    exact List.nil_prefix
  refine ⟨{ hI.ballots with won_vote := ?_, won_unique := ?_ },
    hI.logs_win hbid hQ hfresh he,
    { commits_append hI hpre (hI.gate_win hbid hconf) with },
    fun hstrict => hI.safe_win (hI.safe hstrict) hbid hQ hvotes hfresh he⟩
  · rintro T m P q (hw | ⟨rfl, rfl, rfl⟩) hq
    · exact hI.ballots.won_vote hw hq
    · exact hvotes q hq
  -- two elections, of which one may be new
  · rintro T m m' P P' (hw | ⟨rfl, rfl, rfl⟩) (hw' | ⟨h1, rfl, rfl⟩)
    · exact hI.ballots.won_unique hw hw'
    · exact absurd (h1 ▸ hw) (hfresh m P)
    · exact absurd hw' (hfresh m' P')
    · exact ⟨rfl, rfl⟩

end Win

/-! ## Commits -/

omit [DecidableEq N] in
theorem extends_seal (c : Chronicle N E) (n : N) (i : Nat) : Extends c (c.seal n i) :=
  { Extends.refl c with commit_mono := Or.inl }

omit [DecidableEq N] in
theorem Inv.lastTerm_lt (hI : Inv S strict c) {m : N} {T : ℤ} {l : List E}
    (hb : c.bid m T = some l) (hpos : 0 < lastTerm S l) : lastTerm S l < T := by
  cases hl : l[l.length - 1]? with
  | none =>
    obtain rfl : l = [] := by
      have := List.getElem?_eq_none_iff.mp hl
      exact List.eq_nil_of_length_eq_zero (by omega)
    exact absurd hpos (lt_irrefl 0)
  | some y =>
    rw [lastTerm_of_getElem? hl]
    exact hI.logs.bid_lt hb (List.mem_of_getElem? hl)

/-- **A new commit is not blocked**: the first leader to be elected without it would have
been elected by one of the nodes that acknowledged it. Induction on the term of that
leader. -/
theorem Inv.seal_sealed (hI : Inv S strict c) (hs : Safe S c) {T : ℤ} {Q : Finset N} {i : Nat}
    (hown : Own S c T i) (hQ : Majority Q (S.conf (c.reign T)))
    (hack : ∀ q ∈ Q, ∃ m, i ≤ m ∧ c.ack q T m) (T' : ℤ) : ¬ BlockedBy c T i T' := by
  suffices h : ∀ k : Nat, ∀ T' : ℤ, (T' - T).toNat = k → ¬ BlockedBy c T i T' from h _ T' rfl
  intro k
  induction k using Nat.strong_induction_on with
  | _ k ih =>
    -- take the first election that misses it
    rintro T' hk ⟨hlt, m, P, l, hw, hb, hmiss, hno⟩
    have hch := hI.logs.chained_bid hb
    have hasc := hI.logs.ascending_bid hb
    obtain ⟨l', own, hb', hP, _⟩ := hI.logs.won_bid hw
    rw [hb, Option.some.injEq] at hb'
    subst hb'
    have hall := hI.won_contains hs hw hb
    have hlow : Contains c T l := fun t j L hc ht => hall hc (ht.trans hlt)
    -- somebody before would have missed it
    by_cases hlast : T < lastTerm S l
    · refine hmiss (hI.carries hs hch hown (Or.inl hlast) ?_)
      rintro ⟨X, hX, hbX⟩
      have hTX : T < X := hbX.1
      have hXT : X < T' := hX.trans_lt (hI.lastTerm_lt hb ((hown.pos hI).trans hlast))
      exact ih (X - T).toNat (by omega) X rfl hbX
    · have hov := hI.reign_overlap hs (L := (c.reign T).length) hown hown.le_length hch hasc
        (le_of_lastTerm hasc hlast) hmiss (fun i' L' hc hm => absurd (hall hc hlt) hm) hlow
      rw [List.take_length] at hov
      obtain ⟨q, hq, hqP⟩ := hov Q P hQ hP
      obtain ⟨j, hij, ha⟩ := hack q hq
      exact hno q hqP j hij ha

/-- **Committing keeps the invariant.** -/
theorem Inv.seal (hI : Inv S strict c) {n : N} {Q : Finset N} {i : Nat}
    (hown : Own S c (c.term n) i) (hQ : Majority Q (S.conf (c.reign (c.term n))))
    (hack : ∀ q ∈ Q, ∃ m, i ≤ m ∧ c.ack q (c.term n) m) : Inv S strict (c.seal n i) := by
  refine ⟨{ hI.ballots with }, { hI.logs with },
    { hI.commits with commit_spec := ?_, conf_gate := ?_ }, fun hstrict => ?_⟩
  -- an old commit, or this one
  · rintro T k L (hc | ⟨rfl, rfl, rfl⟩)
    · exact hI.commits.commit_spec hc
    · refine ⟨hown, hown.le_length, le_refl _, Q, ?_, hack⟩
      rw [show (c.seal n k).reign = c.reign from rfl, List.take_length]
      exact hQ
  · intro T k e he hc
    obtain ⟨h1, h2, h3⟩ := hI.commits.conf_gate he hc
    refine ⟨h1, h2, fun hT => ?_⟩
    obtain ⟨j, L, hcom, hL, hbelow⟩ := h3 hT
    exact ⟨j, L, Or.inl hcom, hL, hbelow⟩
  · have hs := hI.safe hstrict
    refine { hs with sealed := ?_ }
    rintro T k L (hc | ⟨rfl, rfl, rfl⟩) T'
    · exact hs.sealed hc T'
    · exact hI.seal_sealed hs hown hQ hack T'

/-! ## All steps -/

theorem Step.inv {n : N} (h : Step S strict n c c') (hI : Inv S strict c) :
    Inv S strict c' ∧ Extends c c' := by
  cases h with
  | bump h => exact ⟨hI.bump h, extends_bump h⟩
  | campaign => exact ⟨hI.campaign n, extends_campaign hI n⟩
  | vote hbid hfree hup => exact ⟨hI.cast hbid hfree hup, extends_cast hfree⟩
  | win hbid hQ hvotes hnew he hconf =>
    refine ⟨hI.win hbid hQ hvotes hnew he hconf, extends_win ?_⟩
    rw [hI.reign_nil (hI.win_fresh hbid hQ hvotes hnew)]
    exact List.nil_prefix
  | extend hwon he hconf =>
    exact ⟨hI.extend hwon he hconf,
      extends_append (hI.logs.leader_log hwon rfl ▸ List.prefix_refl _)⟩
  | adopt hwon hne hg hkeep => exact ⟨hI.adopt hwon hne hg hkeep, extends_adopt _ _⟩
  | ack hm hpre => exact ⟨hI.acknowledge hm hpre, extends_acknowledge _ _⟩
  | commit hwon hi he hT hQ' hack =>
    exact ⟨hI.seal ⟨hi, _, he, hT⟩ hQ' hack, extends_seal _ _ _⟩

end Consensus
