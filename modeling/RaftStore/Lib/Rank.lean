import Mathlib.Data.List.Sort

/-!
# The largest elements of a list

`nthLargest l k` is the `k`-th element of `l` in descending order, counted from one and with
multiplicity. Counting determines it: a bound is at most the `k`-th largest element exactly when `k`
elements reach the bound (`le_nthLargest_iff`). A threshold that is checked by counting is therefore
one comparison with an element of the list.
-/

namespace Rank

variable {α : Type} [LinearOrder α] {l : List α} {k : Nat} {a x : α}

/-- The `k`-th largest element. -/
def nthLargest (l : List α) : Nat → Option α
  | 0 => none
  | k + 1 => (l.insertionSort (· ≥ ·))[k]?

theorem exists_nthLargest (h0 : 0 < k) (hk : k ≤ l.length) : ∃ a, nthLargest l k = some a := by
  cases k with
  | zero => cases h0
  | succ k =>
    have hlt : k < (l.insertionSort (· ≥ ·)).length := by
      rw [List.length_insertionSort]
      exact hk
    exact ⟨_, List.getElem?_eq_getElem hlt⟩

theorem mem_of_nthLargest (h : nthLargest l k = some a) : a ∈ l := by
  cases k with
  | zero => cases h
  | succ k => exact (List.mem_insertionSort _).mp (List.mem_of_getElem? h)

/-- In descending order the elements that reach a bound come first. -/
theorem le_getElem_iff_lt_countP (hl : l.Pairwise (· ≥ ·)) (h : l[k]? = some a) :
    x ≤ a ↔ k < l.countP (fun b => x ≤ b) := by
  induction l generalizing k with
  | nil => simp at h
  | cons b l ih =>
    obtain ⟨hb, hl⟩ := List.pairwise_cons.mp hl
    by_cases hx : x ≤ b
    · rw [List.countP_cons_of_pos (by simpa using hx)]
      cases k with
      | zero =>
        obtain rfl : b = a := by simpa using h
        simp [hx]
      | succ k =>
        rw [ih hl (by simpa using h)]
        omega
    · -- the bound is above the first element, so nothing reaches it
      have hnone : ∀ c ∈ b :: l, ¬ x ≤ c := by
        intro c hc hxc
        rcases List.mem_cons.mp hc with rfl | hc
        · exact hx hxc
        · exact hx (hxc.trans (hb c hc))
      have hzero : (b :: l).countP (fun c => x ≤ c) = 0 :=
        List.countP_eq_zero.mpr fun c hc => by simpa using hnone c hc
      rw [hzero]
      exact ⟨fun hxa => absurd hxa (hnone a (List.mem_of_getElem? h)), fun hlt => by omega⟩

/-- **The `k`-th largest element by counting.** -/
theorem le_nthLargest_iff (h : nthLargest l k = some a) :
    x ≤ a ↔ k ≤ l.countP (fun b => x ≤ b) := by
  cases k with
  | zero => cases h
  | succ k =>
    rw [le_getElem_iff_lt_countP (List.pairwise_insertionSort _ l) h,
      (List.perm_insertionSort _ l).countP_eq]
    exact Nat.lt_iff_add_one_le

end Rank
