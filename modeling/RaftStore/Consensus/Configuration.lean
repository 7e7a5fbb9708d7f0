import RaftStore.Consensus.Steps
import Mathlib.Data.Nat.Find

/-!
# Configurations of competing logs overlap

The configuration that counts is the one of the log at hand, so two candidates, or a
candidate and a committing leader, may count majorities of different configurations. This
module shows that the majorities meet all the same, whenever it matters.

Every change in a log was let through a gate: its leader had committed an entry of its own
term and every change below (`Inv.gate`). Take two logs that both hold everything
committed in terms below `X`, and their longest common part. A gate's commit lies in the
common part, so

* neither log has two changes above it (the gate of the second covers the first);
* the two logs do not both have one (the one of the later term has its gate's entry below
  the other's change, against the order of terms).

Hence at most one change separates the two configurations (`overlap_of_contains`).
-/

namespace Consensus

variable {N E : Type} {S : Scheme N E} {strict : Prop} {c c' : Chronicle N E}

/-! ## Logs with few changes -/

/-- No configuration change in `l` from position `d` on. -/
def Quiet (S : Scheme N E) (d : Nat) (l : List E) : Prop :=
  ∀ (k : Nat) (e : E), d ≤ k → l[k]? = some e → ¬ S.isConf e

/-- At most one configuration change in `l` from position `d` on. -/
def AtMostOne (S : Scheme N E) (d : Nat) (l : List E) : Prop :=
  ∀ (k k' : Nat) (e e' : E), d ≤ k → k < k' → l[k]? = some e → l[k']? = some e' →
    S.isConf e → S.isConf e' → False

/-- The configuration does not move along entries that do not change it. -/
theorem conf_take_of_quiet {l : List E} {d j : Nat} (hdj : d ≤ j) (h : Quiet S d (l.take j)) :
    S.conf (l.take j) = S.conf (l.take d) := by
  induction j, hdj using Nat.le_induction with
  | base => rfl
  | succ j hdj ih =>
    rcases Nat.lt_or_ge j l.length with hj | hj
    · have hget : l[j]? = some l[j] := List.getElem?_eq_getElem hj
      have hstep : l.take (j + 1) = l.take j ++ [l[j]] := by
        rw [List.take_add_one, hget]
        rfl
      have hnot : ¬ S.isConf l[j] := h j _ hdj (getElem?_take_succ hget (by omega))
      rw [hstep, S.conf_snoc _ _ hnot]
      refine ih ?_
      rw [hstep] at h
      intro k e hk he
      exact h k e hk (getElem?_of_isPrefix (List.prefix_append _ _) he)
    · rw [List.take_of_length_le hj] at ih
      rw [List.take_of_length_le (by omega)] at h ⊢
      exact ih h

theorem conf_of_quiet {l : List E} {d : Nat} (h : Quiet S d l) : S.conf l = S.conf (l.take d) := by
  rcases Nat.lt_or_ge l.length d with hd | hd
  · rw [List.take_of_length_le hd.le]
  · have h' := conf_take_of_quiet (l := l) hd (by rwa [List.take_length])
    rwa [List.take_length] at h'

/-! ## Gates -/

/-- **The gate of a change.** Below a configuration change of a chained log its leader had
committed an index of the same term, above every change further down. -/
theorem Inv.gate (hI : Inv S strict c) {l : List E} (hch : Chained S c l) {k : Nat} {e : E}
    (he : l[k]? = some e) (hc : S.isConf e) :
    Overlap (S.conf (l.take k)) (S.conf (l.take (k + 1))) ∧
      ∃ i L, c.commit (S.termOf e) i L ∧ L ≤ k ∧
        ∀ (k' : Nat) (x : E), k' < k → l[k']? = some x → S.isConf x → k' < i := by
  have hpre := hch k e he
  have hlen := length_take_of_getElem? he
  have hget : (c.reign (S.termOf e))[k]? = some e :=
    getElem?_of_isPrefix hpre (getElem?_take_succ he (by omega))
  obtain ⟨_, hover, hgate⟩ := hI.commits.conf_gate hget hc
  obtain ⟨i, L, hcom, hL, hbelow⟩ := hgate rfl
  have htake : ∀ j, j ≤ k + 1 → (c.reign (S.termOf e)).take j = l.take j := by
    intro j hj
    rw [take_eq_of_isPrefix hpre (by omega), List.take_take, Nat.min_eq_left hj]
  rw [htake k (by omega), htake (k + 1) (le_refl _)] at hover
  refine ⟨hover, i, L, hcom, hL, fun k' x hk' hx => hbelow k' x hk' ?_⟩
  exact getElem?_of_isPrefix hpre (getElem?_take_succ hx (by omega))

/-- One change moves the configuration to one that overlaps. -/
theorem Inv.overlap_of_atMostOne (hI : Inv S strict c) [DecidableEq N] {l : List E} {d : Nat}
    (hch : Chained S c l) (hone : AtMostOne S d l) :
    Overlap (S.conf (l.take d)) (S.conf l) := by
  by_cases hq : Quiet S d l
  · rw [conf_of_quiet hq]
    exact Overlap.refl _
  · unfold Quiet at hq
    push Not at hq
    obtain ⟨k, e, hk, he, hc⟩ := hq
    -- nothing changes between `d` and `k`, nor above `k`
    have hbelow : Quiet S d (l.take k) := by
      intro k' x hk' hx hxc
      have hlt : k' < k := by
        have := (List.getElem?_eq_some_iff.mp hx).1
        rw [List.length_take] at this
        omega
      exact hone k' k x e hk' hlt (getElem?_of_isPrefix (List.take_prefix k l) hx) he hxc hc
    have habove : Quiet S (k + 1) l := by
      intro k' x hk' hx hxc
      exact hone k k' e x hk (by omega) he hx hc hxc
    rw [conf_of_quiet habove, ← conf_take_of_quiet hk hbelow]
    exact (hI.gate hch he hc).1

/-! ## Two logs that hold the same commits -/

/-- Two lists have a longest common part. -/
theorem exists_longest_common (l l' : List E) :
    ∃ d, d ≤ l.length ∧ d ≤ l'.length ∧ l.take d = l'.take d ∧
      ∀ x, x ≤ l.length → x ≤ l'.length → l.take x = l'.take x → x ≤ d := by
  classical
  let p : Nat → Prop := fun d => d ≤ l'.length ∧ l.take d = l'.take d
  have h0 : p 0 := ⟨Nat.zero_le _, by simp⟩
  have hspec : p (Nat.findGreatest p l.length) := Nat.findGreatest_spec (Nat.zero_le _) h0
  refine ⟨Nat.findGreatest p l.length, Nat.findGreatest_le _, hspec.1, hspec.2, ?_⟩
  intro x hx hx' heq
  exact Nat.le_findGreatest hx ⟨hx', heq⟩

section Contains

variable {l l' : List E} {d : Nat} {X : ℤ}

/-- `l` holds everything that was committed in terms below `X`. -/
def Contains (c : Chronicle N E) (X : ℤ) (l : List E) : Prop :=
  ∀ ⦃t i L⦄, c.commit t i L → t < X → (c.reign t).take i <+: l

/-- A committed index that both logs hold lies in their common part. -/
theorem Inv.commit_le_common (hI : Inv S strict c) (hl : Contains c X l) (hl' : Contains c X l')
    (hmax : ∀ x, x ≤ l.length → x ≤ l'.length → l.take x = l'.take x → x ≤ d)
    {t : ℤ} {i L : Nat} (hc : c.commit t i L) (ht : t < X) : i ≤ d := by
  have hown := (hI.commits.commit_spec hc).1
  have hp := hl hc ht
  have hp' := hl' hc ht
  have hlen := hown.length_take
  refine hmax i (by have := hp.length_le; omega) (by have := hp'.length_le; omega) ?_
  rw [take_eq_of_isPrefix hp (by omega), take_eq_of_isPrefix hp' (by omega)]

theorem Inv.atMostOne_of_contains (hI : Inv S strict c) (hch : Chained S c l)
    (hlt : ∀ e ∈ l, S.termOf e < X) (hl : Contains c X l) (hl' : Contains c X l')
    (hmax : ∀ x, x ≤ l.length → x ≤ l'.length → l.take x = l'.take x → x ≤ d) :
    AtMostOne S d l := by
  intro k k' e e' hk hkk' he he' hc hc'
  obtain ⟨_, i, L, hcom, _, hbelow⟩ := hI.gate hch he' hc'
  have h1 := hbelow k e hkk' he hc
  have h2 := hI.commit_le_common hl hl' hmax hcom (hlt e' (List.mem_of_getElem? he'))
  omega

/-- A change of `l` above the common part cannot have a later term than one of `l'`: its
gate's entry lies below the change of `l'`. -/
theorem Inv.change_term_le (hI : Inv S strict c) (hch : Chained S c l)
    (hlt : ∀ e ∈ l, S.termOf e < X) (hasc' : Ascending S l')
    (hl : Contains c X l) (hl' : Contains c X l')
    (hmax : ∀ x, x ≤ l.length → x ≤ l'.length → l.take x = l'.take x → x ≤ d)
    {k k' : Nat} {e e' : E} (hk' : d ≤ k') (he : l[k]? = some e) (he' : l'[k']? = some e')
    (hc : S.isConf e) : S.termOf e ≤ S.termOf e' := by
  obtain ⟨_, i, L, hcom, _, _⟩ := hI.gate hch he hc
  have htX := hlt e (List.mem_of_getElem? he)
  have hown := (hI.commits.commit_spec hcom).1
  have hid := hI.commit_le_common hl hl' hmax hcom htX
  obtain ⟨x, hx, hxT⟩ := hown.getElem?_of_isPrefix (hl' hcom htX)
  rw [← hxT]
  exact hasc' (i - 1) k' x e' (by omega) hx he'

/-- **Overlap.** Two chained logs of terms below `X` that both hold everything committed
below `X` have overlapping configurations. -/
theorem Inv.overlap_of_contains (hI : Inv S strict c) [DecidableEq N]
    (hch : Chained S c l) (hasc : Ascending S l) (hlt : ∀ e ∈ l, S.termOf e < X)
    (hch' : Chained S c l') (hasc' : Ascending S l') (hlt' : ∀ e ∈ l', S.termOf e < X)
    (hl : Contains c X l) (hl' : Contains c X l') :
    Overlap (S.conf l) (S.conf l') := by
  obtain ⟨d, hd, hd', heq, hmax⟩ := exists_longest_common l l'
  have hmax' : ∀ x, x ≤ l'.length → x ≤ l.length → l'.take x = l.take x → x ≤ d :=
    fun x h1 h2 h3 => hmax x h2 h1 h3.symm
  have hone := hI.atMostOne_of_contains hch hlt hl hl' hmax
  have hone' := hI.atMostOne_of_contains hch' hlt' hl' hl hmax'
  by_cases hq : Quiet S d l
  · rw [conf_of_quiet hq, heq]
    exact hI.overlap_of_atMostOne hch' hone'
  by_cases hq' : Quiet S d l'
  · rw [conf_of_quiet hq', ← heq]
    exact (hI.overlap_of_atMostOne hch hone).symm
  -- a change on either side: they have the same term, so they sit in one leader's log
  exfalso
  unfold Quiet at hq hq'
  push Not at hq hq'
  obtain ⟨k, e, hk, he, hc⟩ := hq
  obtain ⟨k', e', hk', he', hc'⟩ := hq'
  have h1 := hI.change_term_le hch hlt hasc' hl hl' hmax hk' he he' hc
  have h2 := hI.change_term_le hch' hlt' hasc hl' hl hmax' hk he' he hc'
  have hpre := hch k e he
  have hpre' := hch' k' e' he'
  rw [show S.termOf e' = S.termOf e from by omega] at hpre'
  have hklen := length_take_of_getElem? he
  have hklen' := length_take_of_getElem? he'
  have hkl : k < l.length := (List.getElem?_eq_some_iff.mp he).1
  have hkl' : k' < l'.length := (List.getElem?_eq_some_iff.mp he').1
  have hcommon : l.take (d + 1) = l'.take (d + 1) := by
    have hr : (c.reign (S.termOf e)).take (d + 1) = l.take (d + 1) := by
      rw [take_eq_of_isPrefix hpre (by omega), List.take_take, Nat.min_eq_left (by omega)]
    have hr' : (c.reign (S.termOf e)).take (d + 1) = l'.take (d + 1) := by
      rw [take_eq_of_isPrefix hpre' (by omega), List.take_take, Nat.min_eq_left (by omega)]
    rw [← hr, hr']
  have := hmax (d + 1) (by omega) (by omega) hcommon
  omega

end Contains

end Consensus
