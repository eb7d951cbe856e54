import Mathlib.Data.List.Basic

/-! # One entry of a list and what stands around it -/

namespace NetGet.Library

open List

variable {α : Type*} {xs : List α} {i : ℕ} {y : α} {P : ℕ → α → Prop}

/-- Changing or removing an entry leaves what stands around it. -/
theorem exists_focus (h : i < xs.length) :
    ∃ front x back, xs = front ++ x :: back ∧ xs[i]? = some x ∧
      (∀ f, xs.modify i f = front ++ f x :: back) ∧ xs.eraseIdx i = front ++ back := by
  refine ⟨xs.take i, xs[i], xs.drop (i + 1), ?_, ?_, ?_, ?_⟩
  · rw [← drop_eq_getElem_cons h, take_append_drop]
  · exact getElem?_eq_getElem h
  · intro f
    exact modify_eq_take_cons_drop h
  · exact eraseIdx_eq_take_drop_succ xs i

theorem mem_of_mem_modify {f : α → α} (h : y ∈ xs.modify i f) :
    y ∈ xs ∨ ∃ x, xs[i]? = some x ∧ y = f x := by
  by_cases hi : i < xs.length
  · obtain ⟨front, x, back, hf, hx, hm, -⟩ := exists_focus hi
    rw [hm, mem_append, mem_cons] at h
    rcases h with hfr | heq | hb
    · exact .inl (by rw [hf]; exact mem_append_left _ hfr)
    · exact .inr ⟨x, hx, heq⟩
    · exact .inl (by rw [hf]; simp [hb])
  · rw [modify_eq_self (Nat.le_of_not_lt hi)] at h
    exact .inl h

theorem modify_length_concat (front : List α) (x : α) (f : α → α) :
    (front ++ [x]).modify front.length f = front ++ [f x] := by
  induction front with
  | nil => rfl
  | cons first front ih => simp [ih]

/-- Put a value in the place of an entry, or take the entry out. -/
def replaceIdx (xs : List α) (i : ℕ) : Option α → List α
  | some y => xs.set i y
  | none => xs.eraseIdx i

theorem exists_replace {x : α} (h : xs[i]? = some x) : ∃ back, xs = xs.take i ++ x :: back ∧
      ∀ next, replaceIdx xs i next = xs.take i ++ next.toList ++ back := by
  obtain ⟨hi, hget⟩ := List.getElem?_eq_some_iff.1 h
  refine ⟨xs.drop (i + 1), ?_, ?_⟩
  · rw [← hget, ← drop_eq_getElem_cons hi, take_append_drop]
  intro next
  cases next with
  | none => simp [replaceIdx, eraseIdx_eq_take_drop_succ]
  | some y => simp [replaceIdx, set_eq_take_append_cons_drop, hi]

theorem forall_getElem?_concat (h : ∀ j x, xs[j]? = some x → P j x) (hy : P xs.length y) :
    ∀ j x, (xs ++ [y])[j]? = some x → P j x := by
  intro j x hx
  rcases Nat.lt_trichotomy j xs.length with hlt | rfl | hgt
  · rw [getElem?_append_left hlt] at hx
    exact h j x hx
  · rw [getElem?_concat_length] at hx
    cases hx
    exact hy
  · rw [getElem?_eq_none (by simp; omega)] at hx
    cases hx

theorem exists_getElem?_concat {P : α → Prop} {j : ℕ} (h : ∃ x, xs[j]? = some x ∧ P x) (y : α) :
    ∃ x, (xs ++ [y])[j]? = some x ∧ P x := by
  obtain ⟨x, hx, hP⟩ := h
  have hj := (List.getElem?_eq_some_iff.1 hx).1
  exact ⟨x, by rw [List.getElem?_append_left hj, hx], hP⟩

theorem forall_getElem?_set (h : ∀ j x, j ≠ i → xs[j]? = some x → P j x) (hy : P i y) :
    ∀ j x, (xs.set i y)[j]? = some x → P j x := by
  intro j x hx
  by_cases hj : j = i
  · subst hj
    rw [getElem?_set_self'] at hx
    obtain ⟨_, -, rfl⟩ := Option.map_eq_some_iff.1 hx
    exact hy
  · rw [getElem?_set_ne (Ne.symm hj)] at hx
    exact h j x hj hx

/-- A fact about an entry survives a change of another entry, or one that keeps the fact. -/
theorem exists_getElem?_set {P : α → Prop} {j : ℕ} {x : α} (hx : xs[i]? = some x)
    (h : ∃ z, xs[j]? = some z ∧ P z) (hy : P x → P y) : ∃ z, (xs.set i y)[j]? = some z ∧ P z := by
  obtain ⟨z, hz, hP⟩ := h
  by_cases hj : j = i
  · subst hj
    rw [hx] at hz
    cases hz
    exact ⟨y, by simp [getElem?_set_self', hx], hy hP⟩
  · exact ⟨z, by rw [getElem?_set_ne (Ne.symm hj), hz], hP⟩

end NetGet.Library
