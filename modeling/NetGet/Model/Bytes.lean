import Mathlib.Algebra.Group.Nat.Defs

/-! # Byte slices and checks on them -/

namespace NetGet

abbrev Bytes := List UInt8

/-- A slice in memory: no object is larger than `isize::MAX` bytes. -/
structure Slice where
  bytes : Bytes
  length_lt : bytes.length < 2 ^ 63

/-- The slice `&data[start..stop]`, which panics when it is out of range. -/
def slice (data : Bytes) (start stop : ℕ) : Option Bytes :=
  if start ≤ stop ∧ stop ≤ data.length then some ((data.drop start).take (stop - start))
  else none

/-- `ensure!`: go on, or fail with a message. -/
def ensure (condition : Bool) (message : String) : Except String Unit :=
  if condition then .ok () else .error message

@[simp] theorem ensure_eq_ok {condition : Bool} {message : String} {u : Unit} :
    ensure condition message = .ok u ↔ condition = true := by
  cases condition <;> simp [ensure]

@[simp] theorem ensure_true (message : String) : ensure true message = .ok () := rfl

end NetGet
