import Mathlib.Data.List.Forall2

/-! # Computations that may fail -/

namespace NetGet.Library

open List

universe u

variable {ε : Type*} {α β : Type u} {x : Except ε α} {r : List β}

theorem bind_eq_ok {f : α → Except ε β} {r : β} :
    (x >>= f) = .ok r ↔ ∃ a, x = .ok a ∧ f a = .ok r := by
  cases x with
  | error e => exact ⟨nofun, nofun⟩
  | ok a => exact ⟨fun h => ⟨a, rfl, h⟩, fun ⟨_, ha, h⟩ => Except.ok.inj ha ▸ h⟩

/-- A statement that is run under a condition. -/
theorem ite_bind_eq_ok {c : Prop} [Decidable c] {y : Except ε β} {r : β} :
    (if c then x >>= fun _ => y else y) = .ok r ↔ (c → ∃ a, x = .ok a) ∧ y = .ok r := by
  split_ifs with hc
  · rw [bind_eq_ok]
    exact ⟨fun ⟨a, hx, hy⟩ => ⟨fun _ => ⟨a, hx⟩, hy⟩,
      fun ⟨hx, hy⟩ => (hx hc).imp fun _ h => ⟨h, hy⟩⟩
  · exact ⟨fun hy => ⟨fun h => absurd h hc, hy⟩, And.right⟩

theorem ok_bind (a : α) (f : α → Except ε β) : (Except.ok a >>= f) = f a := rfl

@[simp] theorem elim_eq_ok {x : Option α} {e : ε} {a : α} :
    x.elim (Except.error e) Except.ok = .ok a ↔ x = some a := by
  cases x <;> simp

theorem mapM_eq_ok {ι : Type*} {l : List ι} {f : ι → Except ε β} :
    l.mapM f = .ok r ↔ List.Forall₂ (fun a b => f a = .ok b) l r := by
  induction l generalizing r with
  | nil =>
    rw [forall₂_nil_left_iff]
    exact ⟨fun h => (Except.ok.inj h).symm, fun h => h ▸ rfl⟩
  | cons a l ih =>
    rw [mapM_cons, bind_eq_ok, forall₂_cons_left_iff]
    refine exists_congr fun b => ?_
    rw [bind_eq_ok]
    constructor
    · rintro ⟨hb, bs, hbs, hr⟩
      exact ⟨bs, hb, ih.1 hbs, (Except.ok.inj hr).symm⟩
    · rintro ⟨bs, hb, hbs, rfl⟩
      exact ⟨hb, bs, ih.2 hbs, rfl⟩

theorem mapM_range_eq_ok {n : ℕ} {f : ℕ → Except ε β} :
    (List.range n).mapM f = .ok r ↔ r.length = n ∧ ∀ i b, r[i]? = some b → f i = .ok b := by
  rw [mapM_eq_ok, forall₂_iff_get]
  simp only [length_range, get_eq_getElem, getElem_range]
  constructor
  · rintro ⟨hl, h⟩
    refine ⟨hl.symm, fun i b hb => ?_⟩
    obtain ⟨hi, rfl⟩ := List.getElem?_eq_some_iff.1 hb
    exact h i (hl ▸ hi) hi
  · rintro ⟨hl, h⟩
    exact ⟨hl.symm, fun i _ hi => h i _ (getElem?_eq_getElem hi)⟩

/-- The result has `P`, and only `allowed` errors come. -/
inductive Ensures (allowed : ε → Prop) (P : α → Prop) : Except ε α → Prop where
  | ok {a : α} (h : P a) : Ensures allowed P (.ok a)
  | error {e : ε} (h : allowed e) : Ensures allowed P (.error e)

namespace Ensures

variable {allowed : ε → Prop} {P P' : α → Prop} {Q : β → Prop}

variable {x : Except ε α}

theorem bind {f : α → Except ε β} (hx : Ensures allowed P x)
    (hf : ∀ a, P a → Ensures allowed Q (f a)) : Ensures allowed Q (x >>= f) := by
  cases hx with
  | ok h => exact hf _ h
  | error h => exact .error h

theorem mono (hx : Ensures allowed P x) (h : ∀ a, P a → P' a) : Ensures allowed P' x := by
  cases hx with
  | ok hP => exact .ok (h _ hP)
  | error he => exact .error he

theorem elim {o : Option α} {e : ε} (he : allowed e) :
    Ensures allowed (fun a => o = some a) (o.elim (.error e) .ok) := by
  cases o with
  | none => exact .error he
  | some a => exact .ok rfl

theorem of_eq_ok {a : α} (hx : Ensures allowed P x) (h : x = .ok a) : P a := by
  cases hx with
  | ok hP => exact Except.ok.inj h ▸ hP
  | error _ => cases h

theorem of_eq_error {e : ε} (hx : Ensures allowed P x) (h : x = .error e) : allowed e := by
  cases hx with
  | ok _ => cases h
  | error he => exact Except.error.inj h ▸ he

theorem mapM {ι : Type u} {is : List ι} {f : ι → Except ε α}
    (h : ∀ i ∈ is, Ensures allowed (fun _ => True) (f i)) :
    Ensures allowed (fun _ => True) (is.mapM f) := by
  induction is with
  | nil => exact .ok trivial
  | cons i is ih =>
    rw [mapM_cons]
    refine (h i mem_cons_self).bind fun a _ => ?_
    exact (ih fun j hj => h j (mem_cons_of_mem _ hj)).bind fun _ _ => .ok trivial

end Ensures

end NetGet.Library
