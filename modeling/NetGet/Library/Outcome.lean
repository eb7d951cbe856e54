import Mathlib.Logic.Basic

/-! # Programs that change a state and may fail -/

namespace NetGet.Library

variable {ε σ α β : Type} {m : EStateM ε σ α} {s t : σ} {Q Q' : α → σ → Prop} {P E E' : σ → Prop}
  {R F : σ → σ → Prop}

/-- From the state `s` the program ends with a result and a state in `Q`, or fails in a state
in `E`. -/
def Ends (m : EStateM ε σ α) (s : σ) (Q : α → σ → Prop) (E : σ → Prop) : Prop :=
  match m s with
  | .ok a t => Q a t
  | .error _ t => E t

theorem Ends.imp (h : Ends m s Q E) (hQ : ∀ a t, Q a t → Q' a t) (hE : ∀ t, E t → E' t) :
    Ends m s Q' E' := by
  unfold Ends at h ⊢
  cases hm : m s with
  | ok a t => exact hQ a t (by simpa only [hm] using h)
  | error e t => exact hE t (by simpa only [hm] using h)

/-- The state in which the program ends or fails. -/
def final (m : EStateM ε σ α) (s : σ) : σ :=
  match m s with
  | .ok _ t => t
  | .error _ t => t

theorem Ends.final (h : Ends m s (fun _ => E) E) : E (final m s) := by
  unfold Ends at h
  unfold Library.final
  cases hm : m s with
  | ok a t => simpa only [hm] using h
  | error e t => simpa only [hm] using h

/-- Two runs end alike, with one result and in states in `R`, or both fail, in states in `F`. -/
def Alike (R F : σ → σ → Prop) : EStateM.Result ε σ α → EStateM.Result ε σ α → Prop
  | .ok a s, .ok b t => a = b ∧ R s t
  | .error _ s, .error _ t => F s t
  | _, _ => False

/-- From states in `R` the program runs alike. -/
def Agrees (R F : σ → σ → Prop) (m : EStateM ε σ α) : Prop :=
  ∀ s t, R s t → Alike R F (m s) (m t)

theorem Agrees.final (h : Agrees R F m) (hF : ∀ s t, R s t → F s t) (hr : R s t) :
    F (final m s) (final m t) := by
  have hst := h s t hr
  unfold Library.final
  match m s, m t, hst with
  | .ok _ s', .ok _ t', ⟨_, hr'⟩ => exact hF s' t' hr'
  | .error _ _, .error _ _, hf => exact hf

/-- Programs that touch the state through the operations `op` only. -/
inductive Made {ι : Type} (op : ι → EStateM ε σ β) : {α : Type} → EStateM ε σ α → Prop where
  | pure {α : Type} (a : α) : Made op (pure a)
  | throw {α : Type} (e : ε) : Made op (throw e : EStateM ε σ α)
  | op (i : ι) : Made op (op i)
  | bind {α γ : Type} {m : EStateM ε σ α} {f : α → EStateM ε σ γ} (hm : Made op m)
      (hf : ∀ a, Made op (f a)) : Made op (m >>= f)

namespace Made

variable {ι : Type} {op : ι → EStateM ε σ β}

theorem mapM {κ : Type} {f : κ → EStateM ε σ α} (hf : ∀ k, Made op (f k)) (l : List κ) :
    Made op (l.mapM f) := by
  induction l with
  | nil => exact pure []
  | cons k l ih =>
    rw [List.mapM_cons]
    exact (hf k).bind fun a => ih.bind fun as => pure (a :: as)

/-- Two runs of a program agree when those of its operations do. -/
theorem agrees (h : Made op m) (hop : ∀ i, Agrees R F (op i)) (hF : ∀ s t, R s t → F s t) :
    Agrees R F m := by
  induction h with
  | pure a => exact fun _ _ hr => ⟨rfl, hr⟩
  | throw e => exact hF
  | op i => exact hop i
  | bind hm hf ihm ihf =>
    rename_i m f
    intro s t hr
    have hst := ihm s t hr
    simp only [Bind.bind, EStateM.bind]
    match m s, m t, hst with
    | .ok a s', .ok _ t', ⟨rfl, hr'⟩ => exact ihf a s' t' hr'
    | .error _ _, .error _ _, hf => exact hf

end Made

end NetGet.Library
