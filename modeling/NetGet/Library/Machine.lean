import Mathlib.Data.List.Induction
import Mathlib.Order.Basic

/-! # Deterministic machines driven by a list of labels

A machine is a total step function. A label that is not enabled leaves the state
unchanged, so every list of labels is a run. -/

namespace NetGet.Library.Machine

variable {σ ι : Type*} (step : σ → ι → σ)

/-- The state reached from `s` by taking the steps `ls` in order. -/
def run (s : σ) (ls : List ι) : σ := ls.foldl step s

@[simp] theorem run_nil (s : σ) : run step s [] = s := rfl

@[simp] theorem run_cons (s : σ) (l : ι) (ls : List ι) :
    run step s (l :: ls) = run step (step s l) ls := rfl

theorem run_append (s : σ) (ls rest : List ι) :
    run step s (ls ++ rest) = run step (run step s ls) rest := by
  simp [run]

@[simp] theorem run_concat (s : σ) (ls : List ι) (l : ι) :
    run step s (ls ++ [l]) = step (run step s ls) l := by
  simp [run]

/-- Every step of the run, taken in the state it starts from, meets `ok`. -/
def Meets (ok : σ → ι → Prop) (s : σ) (ls : List ι) : Prop :=
  ∀ front l rest, ls = front ++ l :: rest → ok (run step s front) l

variable {step} {ok : σ → ι → Prop} {s : σ} {ls : List ι} {Inv : σ → Prop}

theorem meets_nil : Meets step ok s [] := by
  intro front l rest hls
  simp at hls

theorem Meets.cons {l : ι} (hl : ok s l) (hls : Meets step ok (step s l) ls) :
    Meets step ok s (l :: ls) := by
  intro front l' rest heq
  cases front with
  | nil =>
    obtain ⟨rfl, rfl⟩ := List.cons.inj heq
    exact hl
  | cons x front =>
    obtain ⟨rfl, rfl⟩ := List.cons.inj heq
    exact hls front l' rest rfl

theorem meets_cons {l : ι} : Meets step ok s (l :: ls) ↔ ok s l ∧ Meets step ok (step s l) ls := by
  constructor
  · intro h
    refine ⟨h [] l ls rfl, ?_⟩
    intro front l' rest hls
    exact h (l :: front) l' rest (by simp [hls])
  · intro h
    exact .cons h.1 h.2

instance Meets.decidable {ok : σ → ι → Prop} [∀ t l, Decidable (ok t l)] :
    ∀ s ls, Decidable (Meets step ok s ls)
  | _, [] => isTrue meets_nil
  | s, l :: ls =>
    have : Decidable (Meets step ok (step s l) ls) := Meets.decidable (step s l) ls
    decidable_of_iff (ok s l ∧ Meets step ok (step s l) ls) meets_cons.symm

theorem Meets.front {rest : List ι} (h : Meets step ok s (ls ++ rest)) : Meets step ok s ls := by
  intro front l tail hls
  exact h front l (tail ++ rest) (by simp [hls])

/-- A property kept by every step that meets `ok` holds after every run that meets it. -/
theorem run_invariant_of_meets (hs : Inv s) (hst : ∀ t l, Inv t → ok t l → Inv (step t l)) :
    ∀ ls, Meets step ok s ls → Inv (run step s ls) := by
  intro ls
  induction ls using List.reverseRecOn with
  | nil => intro _; exact hs
  | append_singleton ls l ih =>
    intro hok
    rw [run_concat]
    exact hst _ _ (ih hok.front) (hok ls l [] rfl)

/-- A property kept by every step holds after every run. -/
theorem run_invariant (hs : Inv s) (hst : ∀ t l, Inv t → Inv (step t l)) (ls : List ι) :
    Inv (run step s ls) := by
  have hm : Meets step (fun _ _ => True) s ls := fun _ _ _ _ => trivial
  exact run_invariant_of_meets hs (fun t l h _ => hst t l h) ls hm

/-- A quantity that no step lowers is not lowered by a run. -/
theorem le_run {β : Type*} [Preorder β] {μ : σ → β} (hs : ∀ t l, μ t ≤ μ (step t l)) (s : σ)
    (ls : List ι) : μ s ≤ μ (run step s ls) := by
  induction ls generalizing s with
  | nil => exact le_rfl
  | cons l ls ih => exact (hs s l).trans (ih (step s l))

end NetGet.Library.Machine
