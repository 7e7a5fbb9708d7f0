import RaftStore.Consensus.Safety

/-!
# What a run of the protocol gives

`Later n c c'` is what any number of steps of node `n` may change: the records grow, and
what belongs to the other nodes stays as it is. Whoever relates an implementation to the
protocol shows that each of its critical sections is `Later` for the node that runs it.

`Settled c X l` says that the log `l` is committed, by a leader of a term up to `X`. It is
never revoked (`Settled.mono`), two settled logs are one a prefix of the other
(`Settled.comparable`), and every later leader holds it (`Settled.isPrefix_reign`).
-/

namespace Consensus

variable {N E : Type}

/-! ## The frame of a node's steps -/

/-- `c'` comes after `c` by steps of node `n` alone. -/
structure Later (n : N) (c c' : Chronicle N E) : Prop extends Extends c c' where
  term_eq : ∀ {m}, m ≠ n → c'.term m = c.term m
  log_eq : ∀ {m}, m ≠ n → c'.log m = c.log m
  vote_eq : ∀ {m}, m ≠ n → c'.vote m = c.vote m
  won_eq : ∀ {T m Q}, m ≠ n → c'.won T m Q → c.won T m Q
  commit_eq : ∀ {T i L}, c'.commit T i L → c.commit T i L ∨ ∃ Q, c'.won T n Q

theorem Later.refl (n : N) (c : Chronicle N E) : Later n c c :=
  { Extends.refl c with
    term_eq := fun _ => rfl
    log_eq := fun _ => rfl
    vote_eq := fun _ => rfl
    won_eq := fun _ h => h
    commit_eq := Or.inl }

theorem Later.trans {n : N} {a b c : Chronicle N E} (hab : Later n a b) (hbc : Later n b c) :
    Later n a c :=
  { hab.toExtends.trans hbc.toExtends with
    term_eq := fun h => (hbc.term_eq h).trans (hab.term_eq h)
    log_eq := fun h => (hbc.log_eq h).trans (hab.log_eq h)
    vote_eq := fun h => (hbc.vote_eq h).trans (hab.vote_eq h)
    won_eq := fun h hw => hab.won_eq h (hbc.won_eq h hw)
    commit_eq := by
      intro T i L h
      rcases hbc.commit_eq h with hb | hw
      · rcases hab.commit_eq hb with ha | ⟨Q, hw⟩
        · exact Or.inl ha
        · exact Or.inr ⟨Q, hbc.won_mono hw⟩
      · exact Or.inr hw }

section Frame

variable [DecidableEq N] {S : Scheme N E} {strict : Prop} {c c' : Chronicle N E}

theorem setAt_of_ne {α : Type} (f : N → ℤ → α) {n m : N} (T : ℤ) (v : α) (h : m ≠ n) :
    setAt f n T v m = f m := by
  funext T'
  unfold setAt
  rw [if_neg (fun hc => h hc.1)]

/-- **A step stays within its node.** -/
theorem Step.later {n : N} (h : Step S strict n c c') (hI : Inv S strict c) : Later n c c' := by
  have hx := (h.inv hI).2
  cases h with
  | bump _ =>
    exact { hx, Later.refl n c with term_eq := fun h => Function.update_of_ne h .. }
  | campaign =>
    exact { hx, Later.refl n c with
      term_eq := fun h => Function.update_of_ne h ..
      vote_eq := fun h => setAt_of_ne _ _ _ h }
  | vote _ _ _ =>
    exact { hx, Later.refl n c with vote_eq := fun h => setAt_of_ne _ _ _ h }
  | win _ _ _ _ _ _ =>
    refine { hx, Later.refl n c with
      log_eq := fun h => log_append_ne h, won_eq := ?_, commit_eq := fun h => Or.inl h }
    rintro T m Q hm (hw | ⟨_, rfl, _⟩)
    · exact hw
    · exact absurd rfl hm
  | extend _ _ _ =>
    exact { hx, Later.refl n c with log_eq := fun h => log_append_ne h }
  | adopt _ _ _ _ =>
    exact { hx, Later.refl n c with log_eq := fun h => Function.update_of_ne h .. }
  | ack _ _ =>
    exact { hx, Later.refl n c with }
  | commit hwon _ _ _ _ _ =>
    refine { hx, Later.refl n c with commit_eq := ?_ }
    rintro T i L (hc | ⟨rfl, _, _⟩)
    · exact Or.inl hc
    · exact Or.inr ⟨_, hwon⟩

end Frame

/-! ## Settled logs -/

/-- `l` is empty, or part of what a leader of a term up to `X` has committed. -/
def Settled (c : Chronicle N E) (X : ℤ) (l : List E) : Prop :=
  l = [] ∨ ∃ T i L, c.commit T i L ∧ T ≤ X ∧ l <+: (c.reign T).take i

variable {S : Scheme N E} {strict : Prop} {c c' : Chronicle N E} {X Y : ℤ} {l l' : List E}

/-- Only a leader commits. -/
theorem Inv.exists_won (hI : Inv S strict c) {T : ℤ} {i L : Nat} (hc : c.commit T i L) :
    ∃ n Q, c.won T n Q := by
  obtain ⟨_, e, he, _⟩ := (hI.commits.commit_spec hc).1
  exact hI.logs.reign_won (List.ne_nil_of_mem (List.mem_of_getElem? he))

theorem Settled.nil : Settled c X [] :=
  Or.inl rfl

theorem Settled.of_isPrefix (h : Settled c X l) (hp : l' <+: l) : Settled c X l' := by
  rcases h with rfl | ⟨T, i, L, hc, hT, hl⟩
  · exact Or.inl (List.prefix_nil.mp hp)
  · exact Or.inr ⟨T, i, L, hc, hT, hp.trans hl⟩

theorem Settled.mono (h : Settled c X l) (hI : Inv S strict c) (hx : Extends c c') (hXY : X ≤ Y) :
    Settled c' Y l := by
  rcases h with rfl | ⟨T, i, L, hc, hT, hl⟩
  · exact Settled.nil
  · refine Or.inr ⟨T, i, L, hx.commit_mono hc, hT.trans hXY, ?_⟩
    rw [(hI.commits.commit_spec hc).1.take_eq hx]
    exact hl

/-- **Later leaders are elected with what is settled.** -/
theorem Settled.isPrefix_bid (h : Settled c X l) (hI : Inv S strict c) (hs : Safe S c) {m : N}
    {Q : Finset N} {lb : List E} (hwon : c.won Y m Q) (hbid : c.bid m Y = some lb) (hXY : X < Y) :
    l <+: lb := by
  rcases h with rfl | ⟨T, i, L, hc, hT, hl⟩
  · exact List.nil_prefix
  · exact hl.trans (hI.won_contains hs hwon hbid hc (hT.trans_lt hXY))

/-- **Later leaders hold what is settled.** -/
theorem Settled.isPrefix_reign (h : Settled c X l) (hI : Inv S strict c) (hs : Safe S c) {m : N}
    {Q : Finset N} (hwon : c.won Y m Q) (hXY : X ≤ Y) : l <+: c.reign Y := by
  rcases h with rfl | ⟨T, i, L, hc, hT, hl⟩
  · exact List.nil_prefix
  · rcases (hT.trans hXY).lt_or_eq with hlt | rfl
    · obtain ⟨lb, own, hbid, _, hreign, _⟩ := hI.logs.won_bid hwon
      have hlb : l <+: lb :=
        Settled.isPrefix_bid (Or.inr ⟨T, i, L, hc, le_refl _, hl⟩) hI hs hwon hbid hlt
      rw [hreign]
      exact hlb.trans (List.prefix_append _ _)
    · exact hl.trans (List.take_prefix _ _)

/-- **Settled logs agree.** -/
theorem Settled.comparable (h : Settled c X l) (h' : Settled c Y l') (hI : Inv S strict c)
    (hs : Safe S c) : l <+: l' ∨ l' <+: l := by
  rcases h with rfl | ⟨T, i, L, hc, _, hl⟩
  · exact Or.inl List.nil_prefix
  rcases h' with rfl | ⟨T', i', L', hc', _, hl'⟩
  · exact Or.inr List.nil_prefix
  -- both are prefixes of the log of whichever leader came later
  rcases le_total T T' with hle | hle
  · obtain ⟨m, Q, hw⟩ := hI.exists_won hc'
    have h1 : l <+: c.reign T' :=
      Settled.isPrefix_reign (Or.inr ⟨T, i, L, hc, le_refl _, hl⟩) hI hs hw hle
    exact List.prefix_or_prefix_of_prefix h1 (hl'.trans (List.take_prefix _ _))
  · obtain ⟨m, Q, hw⟩ := hI.exists_won hc
    have h1 : l' <+: c.reign T :=
      Settled.isPrefix_reign (Or.inr ⟨T', i', L', hc', le_refl _, hl'⟩) hI hs hw hle
    exact List.prefix_or_prefix_of_prefix (hl.trans (List.take_prefix _ _)) h1

/-- Two settled logs carry the same entry wherever both have one. -/
theorem Settled.getElem?_eq (h : Settled c X l) (h' : Settled c Y l') (hI : Inv S strict c)
    (hs : Safe S c) {k : Nat} {e e' : E} (he : l[k]? = some e) (he' : l'[k]? = some e') :
    e = e' := by
  rcases h.comparable h' hI hs with hp | hp
  · have := getElem?_of_isPrefix hp he
    rw [he'] at this
    exact (Option.some.inj this).symm
  · have := getElem?_of_isPrefix hp he'
    rw [he] at this
    exact Option.some.inj this

theorem Settled.chained (h : Settled c X l) (hI : Inv S strict c) : Chained S c l := by
  rcases h with rfl | ⟨T, i, L, _, _, hl⟩
  · exact Chained.nil
  · exact (hI.chained_reign T).of_isPrefix (hl.trans (List.take_prefix _ _))

/-- Of finitely many settled logs the longest has the others as prefixes. -/
theorem exists_settled_upper (hI : Inv S strict c) (hs : Safe S c) (Ps : List (List E → Prop))
    (hPs : ∀ P ∈ Ps, ∃ l X, Settled c X l ∧ P l) :
    ∃ H X, Settled c X H ∧ (H = [] ∨ ∃ P ∈ Ps, P H) ∧ ∀ P ∈ Ps, ∃ l, P l ∧ l <+: H := by
  induction Ps with
  | nil => exact ⟨[], 0, Settled.nil, Or.inl rfl, fun P hP => by cases hP⟩
  | cons P Ps ih =>
    obtain ⟨H, X, hH, hsome, hle⟩ := ih (fun P hP => hPs P (List.mem_cons_of_mem _ hP))
    obtain ⟨l, Y, hl, hP⟩ := hPs P List.mem_cons_self
    rcases hl.comparable hH hI hs with hp | hp
    · refine ⟨H, X, hH, hsome.imp_right ?_, List.forall_mem_cons.mpr ⟨⟨l, hP, hp⟩, hle⟩⟩
      rintro ⟨P', hmem, hH'⟩
      exact ⟨P', List.mem_cons_of_mem _ hmem, hH'⟩
    · -- the new one is the longest so far
      refine ⟨l, Y, hl, Or.inr ⟨P, List.mem_cons_self, hP⟩,
        List.forall_mem_cons.mpr ⟨⟨l, hP, List.prefix_refl _⟩, fun P' hP' => ?_⟩⟩
      obtain ⟨l', hP', hp'⟩ := hle P' hP'
      exact ⟨l', hP', hp'.trans hp⟩

/-- **Settled logs are held by a majority**, of a configuration that was in force when they were
committed. -/
theorem Settled.held (h : Settled c X l) (hI : Inv S strict c) (hs : Safe S c) (hne : l ≠ []) :
    ∃ T L Q, Majority Q (S.conf ((c.reign T).take L)) ∧ ∀ q ∈ Q, l <+: c.log q := by
  rcases h with rfl | ⟨T, i, L, hc, _, hl⟩
  · exact absurd rfl hne
  obtain ⟨hown, _, _, Q, hQ, hack⟩ := hI.commits.commit_spec hc
  refine ⟨T, L, Q, hQ, fun q hq => hl.trans ?_⟩
  obtain ⟨m, him, hm⟩ := hack q hq
  exact hs.keep hm hown him (fun ⟨T', _, hb⟩ => hs.sealed hc T' hb)

end Consensus
