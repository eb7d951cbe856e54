import Mathlib.Data.List.Basic

/-! # Overwriting a stretch of a list -/

namespace NetGet.Library

open List

variable {α : Type*} {xs ys : List α} {i : ℕ}

/-- The list with `ys` written over its entries from `i` on. -/
def overwrite (xs : List α) (i : ℕ) (ys : List α) : List α :=
  xs.take i ++ ys ++ xs.drop (i + ys.length)

theorem length_overwrite (h : i + ys.length ≤ xs.length) :
    (overwrite xs i ys).length = xs.length := by
  simp only [overwrite, length_append, length_take, length_drop]
  omega

theorem getElem?_overwrite_of_outside (h : i + ys.length ≤ xs.length) {j : ℕ}
    (hj : j < i ∨ i + ys.length ≤ j) : (overwrite xs i ys)[j]? = xs[j]? := by
  have ht : (xs.take i).length = i := by
    rw [length_take]
    omega
  rw [overwrite, append_assoc]
  cases hj with
  | inl hlt =>
    rw [getElem?_append_left (by omega), getElem?_take_of_lt hlt]
  | inr hle =>
    rw [getElem?_append_right (by omega), ht, getElem?_append_right (by omega), getElem?_drop]
    congr 1
    omega

/-- The stretch of `n` entries from `i` on holds what was written, and behind it what was there. -/
theorem take_drop_overwrite (h : i + ys.length ≤ xs.length) {n : ℕ} (hn : ys.length ≤ n) :
    ((overwrite xs i ys).drop i).take n = ys ++ ((xs.drop i).take n).drop ys.length := by
  have ht : (xs.take i).length = i := by
    rw [length_take]
    omega
  rw [overwrite, append_assoc, drop_left' ht, take_append,
    take_of_length_le hn, drop_take, drop_drop]

end NetGet.Library
