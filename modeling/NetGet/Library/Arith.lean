import Mathlib.Algebra.Group.Nat.Defs
import Mathlib.Order.MinMax

/-! # Machine arithmetic on naturals -/

namespace NetGet.Library

def wrappingAdd (w a b : ℕ) : ℕ := (a + b) % 2 ^ w

/-- The sum, or the largest `w`-bit number when it does not fit. -/
def saturatingAdd (w a b : ℕ) : ℕ := min (a + b) (2 ^ w - 1)

def checkedAdd (w a b : ℕ) : Option ℕ := if a + b < 2 ^ w then some (a + b) else none

theorem wrappingAdd_of_lt {w a b : ℕ} (h : a + b < 2 ^ w) : wrappingAdd w a b = a + b :=
  Nat.mod_eq_of_lt h

variable {w a b c : ℕ}

theorem le_saturatingAdd (hc : c < 2 ^ w) (h : c ≤ a + b) : c ≤ saturatingAdd w a b := by
  unfold saturatingAdd
  omega

theorem checkedAdd_eq_some : checkedAdd w a b = some c ↔ c = a + b ∧ a + b < 2 ^ w := by
  unfold checkedAdd
  split
  · rename_i h
    simp [h, eq_comm]
  · rename_i h
    simp [h]

theorem checkedAdd_of_lt (h : a + b < 2 ^ w) : checkedAdd w a b = some (a + b) :=
  if_pos h

theorem checkedAdd_cases (w a b : ℕ) :
    checkedAdd w a b = none ∨ checkedAdd w a b = some (a + b) := by
  unfold checkedAdd
  split
  · exact .inr rfl
  · exact .inl rfl

end NetGet.Library
