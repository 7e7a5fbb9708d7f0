import RaftStore.Consensus.Majority
import Mathlib.Algebra.Order.Ring.Int
import Mathlib.Data.List.Basic

/-!
# The chronicle of a replicated log

The history that a leader-based replicated log leaves behind, over arbitrary types of
nodes `N` and entries `E`. A `Chronicle` records for every node its term, its whole log
(nothing is ever compacted here), the votes it cast and the logs it campaigned with, and
for the group as a whole who won which term with whose votes, the log of each term's
leader (`reign`), which prefixes of it were acknowledged, and what was committed.

Everything but a node's term and log only grows (`Extends`), so a fact about the
chronicle that was true when a message was sent is still true when it arrives.

* **`Chained`** — every entry of a log stands in the leader's log of its own term, with
  the same entries below it. Two chained logs that carry the same term at an index agree
  up to that index (`Chained.agree`).
* **`Ascending`** — terms do not decrease along a log.
* **`UpToDate`** — the comparison a voter makes before it grants its vote.
-/

namespace Consensus

variable {N E : Type} {i : Nat} {e : E}

/-! ## Prefixes of lists -/

/-- An entry of a piece is one of the whole. -/
theorem getElem?_of_isPrefix {l l' : List E} (h : l <+: l')
    (he : l[i]? = some e) : l'[i]? = some e := by
  obtain ⟨t, rfl⟩ := h
  have hlt : i < l.length := (List.getElem?_eq_some_iff.mp he).1
  rw [List.getElem?_append_left hlt]
  exact he

theorem getElem?_of_isPrefix_lt {l l' : List E} (h : l <+: l') (hi : i < l.length) :
    l'[i]? = l[i]? := by
  rw [getElem?_of_isPrefix h (List.getElem?_eq_getElem hi), List.getElem?_eq_getElem hi]

theorem take_eq_of_isPrefix {l l' : List E} (h : l <+: l') (hi : i ≤ l.length) :
    l'.take i = l.take i := by
  obtain ⟨t, rfl⟩ := h
  exact List.take_append_of_le_length hi

/-- Up to an entry that is there. -/
theorem length_take_of_getElem? {l : List E} (h : l[i]? = some e) :
    (l.take (i + 1)).length = i + 1 := by
  have hlt : i < l.length := (List.getElem?_eq_some_iff.mp h).1
  rw [List.length_take]
  omega

theorem getElem?_take_succ {l : List E} {i j : Nat} (h : l[i]? = some e) (hij : i < j) :
    (l.take j)[i]? = some e := by
  rw [List.getElem?_take_of_lt hij]
  exact h

/-! ## Schemes and chronicles -/

/-- What the protocol has to know about entries: the term of each, which of them change
the configuration, and the configuration in force after a log. -/
structure Scheme (N E : Type) where
  termOf : E → ℤ
  isConf : E → Prop
  conf : List E → Finset N
  conf_snoc : ∀ l e, ¬ isConf e → conf (l ++ [e]) = conf l

/-- The history of the group. `won T n Q`: node `n` became leader of term `T` with the
votes of `Q`. `ack n T m`: node `n`, in term `T`, confirmed the first `m` entries of
`reign T`. `commit T i L`: the leader of `T` committed index `i` when its log had length
`L`. -/
structure Chronicle (N E : Type) where
  term : N → ℤ
  log : N → List E
  vote : N → ℤ → Option N
  bid : N → ℤ → Option (List E)
  won : ℤ → N → Finset N → Prop
  reign : ℤ → List E
  ack : N → ℤ → Nat → Prop
  commit : ℤ → Nat → Nat → Prop

/-- The chronicle before anything happened. -/
def Chronicle.init : Chronicle N E where
  term := fun _ => 0
  log := fun _ => []
  vote := fun _ _ => none
  bid := fun _ _ => none
  won := fun _ _ _ => False
  reign := fun _ => []
  ack := fun _ _ _ => False
  commit := fun _ _ _ => False

/-- `c'` is a later chronicle than `c`. Acknowledgements that are new in `c'` belong to
terms the acknowledging node had not left in `c`. -/
structure Extends (c c' : Chronicle N E) : Prop where
  term_le : ∀ n, c.term n ≤ c'.term n
  vote_mono : ∀ {n T m}, c.vote n T = some m → c'.vote n T = some m
  bid_mono : ∀ {n T l}, c.bid n T = some l → c'.bid n T = some l
  won_mono : ∀ {T n Q}, c.won T n Q → c'.won T n Q
  reign_mono : ∀ T, c.reign T <+: c'.reign T
  ack_mono : ∀ {n T m}, c.ack n T m → c'.ack n T m
  ack_new : ∀ {n T m}, c'.ack n T m → c.ack n T m ∨ c.term n ≤ T
  commit_mono : ∀ {T i L}, c.commit T i L → c'.commit T i L

/-- A chronicle extends itself. -/
theorem Extends.refl (c : Chronicle N E) : Extends c c where
  term_le := fun _ => le_refl _
  vote_mono := id
  bid_mono := id
  won_mono := id
  reign_mono := fun _ => List.prefix_refl _
  ack_mono := id
  ack_new := Or.inl
  commit_mono := id

/-- Extension is transitive. -/
theorem Extends.trans {a b c : Chronicle N E} (hab : Extends a b) (hbc : Extends b c) :
    Extends a c where
  term_le := fun n => (hab.term_le n).trans (hbc.term_le n)
  vote_mono := fun h => hbc.vote_mono (hab.vote_mono h)
  bid_mono := fun h => hbc.bid_mono (hab.bid_mono h)
  won_mono := fun h => hbc.won_mono (hab.won_mono h)
  reign_mono := fun T => (hab.reign_mono T).trans (hbc.reign_mono T)
  ack_mono := fun h => hbc.ack_mono (hab.ack_mono h)
  -- an acknowledgement is old, or of a term that was not left before
  ack_new := by
    intro n T m h
    rcases hbc.ack_new h with hb | hle
    · exact hab.ack_new hb
    · exact Or.inr ((hab.term_le n).trans hle)
  commit_mono := fun h => hbc.commit_mono (hab.commit_mono h)

/-! ## Chained and ascending logs -/

/-- Every entry of `l` sits in the leader's log of its term, above the same entries. -/
def Chained (S : Scheme N E) (c : Chronicle N E) (l : List E) : Prop :=
  ∀ (i : Nat) (e : E), l[i]? = some e → l.take (i + 1) <+: c.reign (S.termOf e)

/-- Terms do not decrease along `l`. -/
def Ascending (S : Scheme N E) (l : List E) : Prop :=
  ∀ (i j : Nat) (e e' : E), i ≤ j → l[i]? = some e → l[j]? = some e' →
    S.termOf e ≤ S.termOf e'

variable {S : Scheme N E} {c c' : Chronicle N E} {l l' : List E}

theorem Chained.nil : Chained S c [] := by
  intro i e h
  simp at h

theorem Chained.mono (h : Chained S c l) (hx : Extends c c') : Chained S c' l :=
  fun i e he => (h i e he).trans (hx.reign_mono _)

/-- A piece of a chained log is chained. -/
theorem Chained.of_isPrefix (h : Chained S c l) (hp : l' <+: l) : Chained S c l' := by
  intro i e he
  have hlt : i < l'.length := (List.getElem?_eq_some_iff.mp he).1
  rw [← take_eq_of_isPrefix hp (by omega)]
  exact h i e (getElem?_of_isPrefix hp he)

/-- A chained log stays chained when an entry of a term is appended whose leader's log
starts with the result. -/
theorem Chained.snoc (h : Chained S c l) (he : l ++ [e] <+: c.reign (S.termOf e)) :
    Chained S c (l ++ [e]) := by
  intro i x hx
  rcases Nat.lt_or_ge i l.length with hi | hi
  · rw [List.getElem?_append_left hi] at hx
    rw [List.take_append_of_le_length (by omega)]
    exact h i x hx
  -- the new entry, with all that is before it
  · have hi' : i = l.length := by
      have := (List.getElem?_eq_some_iff.mp hx).1
      rw [List.length_append, List.length_singleton] at this
      omega
    subst hi'
    rw [List.getElem?_concat_length, Option.some.injEq] at hx
    subst hx
    rw [List.take_of_length_le (by simp)]
    exact he

/-- **Agreement.** Chained logs with the same term at an index are equal up to it. -/
theorem Chained.agree (h : Chained S c l) (h' : Chained S c l') {e e' : E}
    (he : l[i]? = some e) (he' : l'[i]? = some e') (ht : S.termOf e = S.termOf e') :
    l.take (i + 1) = l'.take (i + 1) := by
  have h1 := h i e he
  have h2 := h' i e' he'
  rw [← ht] at h2
  have hlen : (l.take (i + 1)).length = (l'.take (i + 1)).length := by
    rw [length_take_of_getElem? he, length_take_of_getElem? he']
  exact (List.prefix_of_prefix_length_le h1 h2 hlen.le).eq_of_length hlen

theorem Ascending.nil : Ascending S [] := by
  intro i j e e' _ h
  simp at h

theorem Ascending.of_isPrefix (h : Ascending S l) (hp : l' <+: l) : Ascending S l' :=
  fun i j e e' hij he he' =>
    h i j e e' hij (getElem?_of_isPrefix hp he) (getElem?_of_isPrefix hp he')

/-- A log stays ascending with an entry of no lower term. -/
theorem Ascending.snoc (h : Ascending S l) (he : ∀ x ∈ l, S.termOf x ≤ S.termOf e) :
    Ascending S (l ++ [e]) := by
  intro i j x y hij hx hy
  have hj : j < l.length + 1 := by
    have := (List.getElem?_eq_some_iff.mp hy).1
    simpa using this
  rcases Nat.lt_or_ge j l.length with hjl | hjl
  · rw [List.getElem?_append_left (by omega)] at hx hy
    exact h i j x y hij hx hy
  -- the last of the two is the new entry
  · have hjeq : j = l.length := by omega
    subst hjeq
    rw [List.getElem?_concat_length, Option.some.injEq] at hy
    subst hy
    rcases Nat.lt_or_ge i l.length with hil | hil
    · rw [List.getElem?_append_left hil] at hx
      exact he x (List.mem_of_getElem? hx)
    · rw [show i = l.length from by omega, List.getElem?_concat_length, Option.some.injEq] at hx
      rw [hx]

/-! ## The voter's comparison -/

/-- The term of the last entry, `0` for an empty log. -/
def lastTerm (S : Scheme N E) (l : List E) : ℤ :=
  (l.getLast?).elim 0 S.termOf

/-- The term of a log's end is that of its last entry. -/
theorem lastTerm_of_getElem? (h : l[l.length - 1]? = some e) :
    lastTerm S l = S.termOf e := by
  unfold lastTerm
  rw [List.getLast?_eq_getElem?, h]
  rfl

/-- `l` is at least as up to date as `l'`: a higher last term, or the same and at least
the same length. -/
def UpToDate (S : Scheme N E) (l l' : List E) : Prop :=
  lastTerm S l' < lastTerm S l ∨ (lastTerm S l = lastTerm S l' ∧ l'.length ≤ l.length)

/-- An entry of term `T` at index `i` (counted from one) is matched by every log that is
at least as up to date as a log holding it. -/
theorem UpToDate.covers {T : ℤ} (hup : UpToDate S l l')
    (hasc : Ascending S l') (hi : 0 < i) (he : l'[i - 1]? = some e) (hT : S.termOf e = T) :
    T < lastTerm S l ∨ (T = lastTerm S l ∧ i ≤ l.length) := by
  have hlt : i - 1 < l'.length := (List.getElem?_eq_some_iff.mp he).1
  obtain ⟨x, hx⟩ : ∃ x, l'[l'.length - 1]? = some x :=
    ⟨_, List.getElem?_eq_getElem (by omega)⟩
  -- the voter's last term is at least `T`, since its log holds an entry of that term
  have hle : T ≤ lastTerm S l' := by
    rw [lastTerm_of_getElem? hx, ← hT]
    exact hasc (i - 1) (l'.length - 1) e x (by omega) he hx
  rcases hup with hgt | ⟨heq, hlen⟩
  · exact Or.inl (hle.trans_lt hgt)
  · rw [heq]
    rcases hle.lt_or_eq with h | h
    · exact Or.inl h
    · exact Or.inr ⟨h, by omega⟩

end Consensus
