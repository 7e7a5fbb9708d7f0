import Mathlib.Data.List.Basic
import Mathlib.Data.Int.Order.Basic
import Mathlib.Tactic.NormNum

/-!
# Slices and 64-bit integers

An index or slice expression of Go delivers a value or panics. Here it is an `Option`, a panic being
`none`: `Slice.at?` is `xs[i]` and `Slice.sub?` is `xs[lo:hi]`, for integers that may be negative or
too large. `wrap64` is the value of a sum or a difference in the type `int`.
-/

namespace Slice

variable {α : Type} {xs : List α} {i lo hi : Int}

/-- `xs[i]`. -/
def at? (xs : List α) (i : Int) : Option α :=
  if 0 ≤ i ∧ i < xs.length then xs[i.toNat]? else none

/-- `xs[lo:hi]`. -/
def sub? (xs : List α) (lo hi : Int) : Option (List α) :=
  if 0 ≤ lo ∧ lo ≤ hi ∧ hi ≤ xs.length then some ((xs.take hi.toNat).drop lo.toNat) else none

theorem at?_eq (h0 : 0 ≤ i) (h : i < xs.length) : at? xs i = xs[i.toNat]? := if_pos ⟨h0, h⟩

@[simp] theorem at?_cons_zero (x : α) : at? (x :: xs) 0 = some x := by simp [at?]

/-- `xs[lo:]`. -/
theorem sub?_from (h0 : 0 ≤ lo) (h : lo ≤ xs.length) :
    sub? xs lo xs.length = some (xs.drop lo.toNat) := by
  simp [sub?, h0, h]

/-- `xs[:hi]`. -/
theorem sub?_to (h0 : 0 ≤ hi) (h : hi ≤ xs.length) : sub? xs 0 hi = some (xs.take hi.toNat) := by
  simp [sub?, h0, h]

end Slice

/-- The value of a sum or difference of 64-bit integers. -/
def wrap64 (i : Int) : Int := Int.bmod i (2 ^ 64)

theorem wrap64_of_range {i : Int} (h : -2 ^ 63 ≤ i) (h' : i < 2 ^ 63) : wrap64 i = i := by
  unfold wrap64 Int.bmod
  norm_num
  split <;> omega

/-- A difference below the range comes out above it. -/
theorem wrap64_of_lt {i : Int} (h : -2 ^ 64 ≤ i) (h' : i < -2 ^ 63) : wrap64 i = i + 2 ^ 64 := by
  unfold wrap64 Int.bmod
  norm_num
  split <;> omega
