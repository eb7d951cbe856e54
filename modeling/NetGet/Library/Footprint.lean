import Mathlib.Data.List.Basic

/-! # Writing into a sequence that grows

What a program has written at places of a sequence, or appended, holds of every later sequence that
keeps it, so programs that write apart from each other are run one after the other without a look
at what they wrote. -/

namespace NetGet.Library

variable {α : Type*}

def Row (pos n i : ℕ) : Prop := pos ≤ i ∧ i < pos + n

/-- `ws'` is not shorter than `ws` and has the same elements at the places in `P`. -/
structure Keeps (P : ℕ → Prop) (ws ws' : List α) : Prop where
  length_le : ws.length ≤ ws'.length
  get : ∀ i < ws.length, P i → ws'[i]? = ws[i]?

theorem Keeps.mono {P P' : ℕ → Prop} {ws ws' : List α} (h : Keeps P ws ws')
    (hP : ∀ i, P' i → P i) : Keeps P' ws ws' where
  length_le := h.length_le
  get := fun i hi hi' => h.get i hi (hP i hi')

/-- `ws'` comes from `ws` by writing at places in `P` and appending `n` elements; `Q` holds as long
as nothing of this changes. -/
structure Writes (P : ℕ → Prop) (ws ws' : List α) (n : ℕ) (Q : List α → Prop) : Prop where
  length_eq : ws'.length = ws.length + n
  frame : ∀ i < ws.length, ¬ P i → ws'[i]? = ws[i]?
  post : ∀ later, Keeps (fun i => P i ∨ ws.length ≤ i) ws' later → Q later

namespace Writes

variable {P P' : ℕ → Prop} {ws ws' ws₁ ws₂ : List α} {n n₁ n₂ : ℕ} {Q Q' Q₁ Q₂ : List α → Prop}

theorem nothing (P : ℕ → Prop) (ws : List α) : Writes P ws ws 0 fun _ => True where
  length_eq := rfl
  frame := fun _ _ _ => rfl
  post := fun _ _ => trivial

theorem keep {i : ℕ} {a : α} (h : ws[i]? = some a) :
    Writes (Row i 1) ws ws 0 fun later => later[i]? = some a where
  length_eq := rfl
  frame := fun _ _ _ => rfl
  post := by
    intro later hl
    rw [hl.get i (List.getElem?_eq_some_iff.1 h).1 (.inl ⟨Nat.le_refl i, Nat.lt_succ_self i⟩), h]

theorem set {i : ℕ} (hi : i < ws.length) (a : α) :
    Writes (Row i 1) ws (ws.set i a) 0 fun later => later[i]? = some a where
  length_eq := List.length_set
  frame := by
    intro j _ hj
    refine List.getElem?_set_ne fun heq => hj ?_
    rw [← heq]
    exact ⟨Nat.le_refl i, Nat.lt_succ_self i⟩
  post := by
    intro later h
    rw [h.get i (by rwa [List.length_set]) (.inl ⟨Nat.le_refl i, Nat.lt_succ_self i⟩),
      List.getElem?_set_self hi]

theorem post_self (h : Writes P ws ws' n Q) : Q ws' :=
  h.post ws' ⟨Nat.le_refl _, fun _ _ _ => rfl⟩

theorem mono (h : Writes P ws ws' n Q) (hP : ∀ i, P i → P' i)
    (hQ : ∀ later, ws'.length ≤ later.length → Q later → Q' later) : Writes P' ws ws' n Q' where
  length_eq := h.length_eq
  frame := fun i hi hP' => h.frame i hi fun hi' => hP' (hP i hi')
  post := fun later hl => hQ later hl.length_le (h.post later (hl.mono fun i => Or.imp_left (hP i)))

/-- One program after the other, at places apart from each other. -/
theorem trans (h₁ : Writes P ws ws₁ n₁ Q₁) (h₂ : Writes P' ws₁ ws₂ n₂ Q₂)
    (hb : ∀ i, P' i → i < ws.length) (ha : ∀ i, P i → ¬ P' i) :
    Writes (fun i => P i ∨ P' i) ws ws₂ (n₁ + n₂) fun later => Q₁ later ∧ Q₂ later where
  length_eq := by rw [h₂.length_eq, h₁.length_eq, Nat.add_assoc]
  frame := by
    intro i hi hP
    have hlt : i < ws₁.length := by
      rw [h₁.length_eq]
      exact Nat.lt_add_right n₁ hi
    rw [h₂.frame i hlt fun h => hP (.inr h), h₁.frame i hi fun h => hP (.inl h)]
  post := by
    intro later hl
    have hle₁ : ws₁.length ≤ ws₂.length := h₂.length_eq ▸ Nat.le_add_right _ _
    have hle : ws.length ≤ ws₁.length := h₁.length_eq ▸ Nat.le_add_right _ _
    refine ⟨h₁.post later ⟨Nat.le_trans hle₁ hl.length_le, fun i hi hp => ?_⟩,
      h₂.post later (hl.mono fun i hp => ?_)⟩
    · have hk : ¬ P' i := by
        intro hi'
        obtain hP | hnew := hp
        · exact ha i hP hi'
        · exact absurd (hb i hi') (Nat.not_lt.2 hnew)
      rw [hl.get i (Nat.lt_of_lt_of_le hi hle₁) (hp.imp_left .inl), h₂.frame i hi hk]
    · exact hp.imp .inr (Nat.le_trans hle)

theorem row_append {pos k k' : ℕ} (h₁ : Writes (Row pos k) ws ws₁ n₁ Q₁)
    (h₂ : Writes (Row (pos + k) k') ws₁ ws₂ n₂ Q₂) (hf : pos + k + k' ≤ ws.length) :
    Writes (Row pos (k + k')) ws ws₂ (n₁ + n₂) fun later => Q₁ later ∧ Q₂ later := by
  refine (h₁.trans h₂ (fun i hi => Nat.lt_of_lt_of_le hi.2 hf)
    fun i hi hi' => absurd hi.2 (Nat.not_lt.2 hi'.1)).mono (fun i hi => ?_) fun _ _ h => h
  unfold Row at hi ⊢
  omega

/-- Writing into what has just been appended is no writing. -/
theorem fresh {new : List α} (h : Writes P (ws ++ new) ws' n Q)
    (hP : ∀ i, P i → P' i ∨ ws.length ≤ i) : Writes P' ws ws' (new.length + n) Q where
  length_eq := by rw [h.length_eq, List.length_append, Nat.add_assoc]
  frame := by
    intro i hi hP'
    have hp : ¬ P i := fun h => (hP i h).elim hP' (Nat.not_le.2 hi)
    rw [h.frame i (by rw [List.length_append]; exact Nat.lt_add_right _ hi) hp,
      List.getElem?_append_left hi]
  post := by
    intro later hl
    refine h.post later (hl.mono fun i hp => ?_)
    obtain hi | hi := hp
    · exact hP i hi
    · rw [List.length_append] at hi
      exact .inr (Nat.le_trans (Nat.le_add_right _ _) hi)

end Writes

end NetGet.Library
