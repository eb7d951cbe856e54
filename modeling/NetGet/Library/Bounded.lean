import Mathlib.Data.List.Basic
import Mathlib.Order.MinMax

/-! # Lists that forget their oldest entry when they are full -/

namespace NetGet.Library

variable {α : Type*} {xs : List α} {bound : ℕ}

/-- Append an entry, after dropping the first when there are `bound` of them. -/
def boundedPush (bound : ℕ) (xs : List α) (x : α) : List α :=
  (if xs.length ≥ bound then xs.tail else xs) ++ [x]

theorem boundedPush_of_lt (h : xs.length < bound) (x : α) : boundedPush bound xs x = xs ++ [x] := by
  rw [boundedPush, if_neg (Nat.not_le.2 h)]

theorem length_boundedPush (hpos : 0 < bound) (h : xs.length ≤ bound) (x : α) :
    (boundedPush bound xs x).length = min (xs.length + 1) bound := by
  rw [boundedPush, List.length_append, List.length_singleton]
  split
  · rw [List.length_tail]
    omega
  · omega

def keepLast (bound : ℕ) (xs : List α) : List α := xs.drop (xs.length - bound)

/-- Forgetting as entries come is forgetting at the end. -/
theorem keepLast_concat (bound : ℕ) (xs : List α) (x : α) :
    keepLast bound (keepLast bound xs ++ [x]) = keepLast bound (xs ++ [x]) := by
  simp only [keepLast, List.length_append, List.length_drop, List.length_singleton,
    List.drop_append, List.drop_drop]
  congr 2 <;> omega

end NetGet.Library
