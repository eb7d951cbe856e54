import Mathlib.Data.List.Dedup

/-! # Interleavings of keyed sequences

A trace carries a key with every element. It interleaves the sequences that its elements of one
key form, each in its own order. -/

namespace NetGet.Library

variable {K α : Type*} [DecidableEq K]

/-- The elements of one key, in the order of the trace. -/
def own (k : K) (trace : List (K × α)) : List α :=
  (trace.filter fun e => e.1 = k).map Prod.snd

/-- The trace consists of the sequences `seqs`. -/
def Interleaves (seqs : K → List α) (trace : List (K × α)) : Prop := ∀ k, own k trace = seqs k

theorem own_append (k : K) (front rest : List (K × α)) :
    own k (front ++ rest) = own k front ++ own k rest := by
  simp [own]

@[simp] theorem own_cons_self (k : K) (a : α) (rest : List (K × α)) :
    own k ((k, a) :: rest) = a :: own k rest := by
  simp [own]

theorem own_cons_of_ne {k k' : K} (h : k' ≠ k) (a : α) (rest : List (K × α)) :
    own k ((k', a) :: rest) = own k rest := by
  simp [own, h]

theorem length_own_pos {k : K} {trace : List (K × α)} :
    0 < (own k trace).length ↔ k ∈ trace.map Prod.fst := by
  induction trace with
  | nil => simp [own]
  | cons e trace ih =>
    obtain ⟨k', a⟩ := e
    by_cases h : k' = k
    · subst h
      simp
    · rw [own_cons_of_ne h, ih]
      simp [Ne.symm h]

/-- The sequence of a key around one of its elements. -/
theorem Interleaves.split {seqs : K → List α} {front rest : List (K × α)} {k : K} {a : α}
    (h : Interleaves seqs (front ++ (k, a) :: rest)) : seqs k = own k front ++ a :: own k rest := by
  rw [← h k, own_append, own_cons_self]

end NetGet.Library
