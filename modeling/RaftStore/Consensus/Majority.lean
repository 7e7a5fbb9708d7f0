import Mathlib.Data.Finset.Card

/-!
# Majorities of a configuration, and which configurations share a voter

A configuration is a finite set of voters. A majority of it is a subset with more than
half of its members, counted as `card / 2 + 1`. Two configurations *overlap* when every
majority of the one meets every majority of the other: equal configurations do
(`Overlap.refl`), and so do two that differ by one voter (`overlap_insert`,
`overlap_erase`), whatever their size and parity.
-/

namespace Consensus

variable {N : Type}

/-- `Q` holds more than half of the voters of `c`, and nobody else. -/
def Majority (Q c : Finset N) : Prop :=
  Q ⊆ c ∧ c.card / 2 + 1 ≤ Q.card

/-- Every majority of `c` shares a voter with every majority of `c'`. -/
def Overlap (c c' : Finset N) : Prop :=
  ∀ Q Q', Majority Q c → Majority Q' c' → ∃ q, q ∈ Q ∧ q ∈ Q'

theorem Overlap.symm {c c' : Finset N} (h : Overlap c c') : Overlap c' c := by
  intro Q Q' hQ hQ'
  obtain ⟨q, hq', hq⟩ := h Q' Q hQ' hQ
  exact ⟨q, hq, hq'⟩

section Overlapping

variable [DecidableEq N]

/-- Two sets that together outnumber a set holding both of them have a common member. -/
theorem exists_common_of_card {Q Q' u : Finset N} (hQ : Q ⊆ u) (hQ' : Q' ⊆ u)
    (hcard : u.card < Q.card + Q'.card) : ∃ q, q ∈ Q ∧ q ∈ Q' := by
  by_contra hno
  have hdisj : Disjoint Q Q' := by
    rw [Finset.disjoint_left]
    intro q hq hq'
    exact hno ⟨q, hq, hq'⟩
  have hunion : (Q ∪ Q').card = Q.card + Q'.card := Finset.card_union_of_disjoint hdisj
  have hle : (Q ∪ Q').card ≤ u.card := Finset.card_le_card (Finset.union_subset hQ hQ')
  omega

theorem Overlap.refl (c : Finset N) : Overlap c c := by
  intro Q Q' hQ hQ'
  refine exists_common_of_card hQ.1 hQ'.1 ?_
  have h1 := hQ.2
  have h2 := hQ'.2
  omega

/-- Adding one voter: the two thresholds together exceed the larger configuration. -/
theorem overlap_insert (x : N) (c : Finset N) : Overlap c (insert x c) := by
  by_cases hx : x ∈ c
  · rw [Finset.insert_eq_of_mem hx]
    exact Overlap.refl c
  intro Q Q' hQ hQ'
  have hcard : (insert x c).card = c.card + 1 := Finset.card_insert_of_notMem hx
  have h1 := hQ.2
  have h2 := hQ'.2
  rw [hcard] at h2
  refine exists_common_of_card (hQ.1.trans (Finset.subset_insert x c)) hQ'.1 ?_
  rw [hcard]
  omega

/-- Removing one voter is adding it, read backwards. -/
theorem overlap_erase (x : N) (c : Finset N) : Overlap c (c.erase x) := by
  by_cases hx : x ∈ c
  · have h := overlap_insert x (c.erase x)
    rw [Finset.insert_erase hx] at h
    exact h.symm
  · rw [Finset.erase_eq_of_notMem hx]
    exact Overlap.refl c

end Overlapping

end Consensus
