import Mathlib.Data.List.TakeDrop

/-! # A stack in a fixed array -/

namespace NetGet.Library.ArrayStack

variable {α : Type*} {slots : List α} {depth : ℕ}

/-- What the stack holds, innermost first. -/
def contents (slots : List α) (depth : ℕ) : List α := (slots.take depth).reverse

@[simp] theorem contents_zero (slots : List α) : contents slots 0 = [] := rfl

theorem length_contents (h : depth ≤ slots.length) : (contents slots depth).length = depth := by
  rw [contents, List.length_reverse, List.length_take, Nat.min_eq_left h]

theorem contents_succ (h : depth < slots.length) :
    contents slots (depth + 1) = slots[depth] :: contents slots depth := by
  rw [contents, List.take_add_one, List.getElem?_eq_getElem h]
  simp [contents]

/-- A write above the stack does not change it. -/
theorem contents_set {slot : ℕ} (h : depth ≤ slot) (value : α) :
    contents (slots.set slot value) depth = contents slots depth := by
  rw [contents, List.take_set_of_le h, contents]

theorem contents_push (h : depth < slots.length) (value : α) :
    contents (slots.set depth value) (depth + 1) = value :: contents slots depth := by
  have hlt : depth < (slots.set depth value).length := by simpa using h
  rw [contents_succ hlt, contents_set (Nat.le_refl depth), List.getElem_set_self]

end NetGet.Library.ArrayStack
