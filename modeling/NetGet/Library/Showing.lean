import Mathlib.Data.List.Chain

/-! # Showing things in order, some of them again

A log of what was shown. An entry marked `again` is shown once more as the beginning of the
next, so only what was shown last and what was not marked counts. -/

namespace NetGet.Library

/-- Something shown, and whether it is to be shown again. -/
structure Showing (β : Type*) where
  content : β
  again : Bool

namespace Showing

variable {α β : Type*} {parts : β → List α} {log : List (Showing β)} {r : β → β → Prop}
  {content : β} {x : Showing β}

/-- What the last entry holds back. -/
def Held (log : List (Showing β)) (content : β) : Prop :=
  log.getLast? = some { content, again := true }

/-- What is shown again stands in the relation to what it is shown with. -/
def Chained (r : β → β → Prop) (log : List (Showing β)) : Prop :=
  log.IsChain fun x y => x.again = true → r x.content y.content

section Parts

variable (parts : β → List α)

def settled (log : List (Showing β)) : List α :=
  (log.filter fun x => !x.again).flatMap fun x => parts x.content

/-- The parts of all that was shown, those shown again counted once. -/
def presented (log : List (Showing β)) : List α :=
  settled parts log.dropLast ++ (log.getLast?.map fun x => parts x.content).getD []

theorem settled_append (log rest : List (Showing β)) :
    settled parts (log ++ rest) = settled parts log ++ settled parts rest := by
  simp [settled]

theorem settled_concat (log : List (Showing β)) (x : Showing β) :
    settled parts (log ++ [x]) = settled parts log ++ if x.again then [] else parts x.content := by
  cases ha : x.again <;> simp [settled, ha]

theorem presented_concat (log : List (Showing β)) (x : Showing β) :
    presented parts (log ++ [x]) = settled parts log ++ parts x.content := by
  simp [presented]

end Parts

theorem held_concat : Held (log ++ [x]) content ↔ x = { content, again := true } := by
  simp [Held]

theorem presented_of_not_held (h : ∀ content, ¬ Held log content) :
    presented parts log = settled parts log := by
  rcases List.eq_nil_or_concat log with rfl | ⟨earlier, x, rfl⟩
  · rfl
  rw [List.concat_eq_append] at h ⊢
  have ha : x.again = false := by
    by_contra ht
    exact h x.content (held_concat.2 (by cases x; simp_all))
  rw [presented_concat, settled_concat, ha]
  rfl

theorem presented_of_held (h : Held log content) :
    presented parts log = settled parts log ++ parts content := by
  rcases List.eq_nil_or_concat log with rfl | ⟨earlier, x, rfl⟩
  · cases h
  rw [List.concat_eq_append] at h ⊢
  obtain rfl := held_concat.1 h
  rw [presented_concat, settled_concat]
  simp

theorem Chained.concat (h : Chained r log)
    (hl : ∀ content, Held log content → r content x.content) : Chained r (log ++ [x]) := by
  refine h.append (List.isChain_singleton _) ?_
  intro last hmem next hn ha
  obtain rfl : x = next := by simpa using hn
  refine hl last.content ?_
  rw [Held, Option.mem_def.1 hmem]
  cases last
  simp_all

/-- Whether the last entry is to be shown again does not matter yet. -/
theorem Chained.mark {again : Bool} (h : Chained r (log ++ [⟨content, again⟩])) (again' : Bool) :
    Chained r (log ++ [⟨content, again'⟩]) := by
  refine (h.left_of_append).append (List.isChain_singleton _) ?_
  intro last hmem next hn ha
  obtain rfl : ⟨content, again'⟩ = next := by simpa using hn
  exact (List.isChain_append.1 h).2.2 last hmem ⟨content, again⟩ rfl ha

end Showing

end NetGet.Library
