import NetGet.Model.Redact
import Mathlib.Data.List.Forall2

/-! # Values that agree up to hidden entries -/

namespace NetGet.Redact

open Json
open Library

section

variable (hidden : String → Value → Bool)

mutual

/-- The values differ only inside hidden entries of their objects. -/
inductive LowEq : Value → Value → Prop
  | null : LowEq .null .null
  | bool (b : Bool) : LowEq (.bool b) (.bool b)
  | number (n : Number) : LowEq (.number n) (.number n)
  | string (s : String) : LowEq (.string s) (.string s)
  | array {values values' : List Value} :
      LowEqValues values values' → LowEq (.array values) (.array values')
  | object {fields fields' : List (String × Value)} :
      LowEqFields fields fields' → LowEq (.object fields) (.object fields')

inductive LowEqValues : List Value → List Value → Prop
  | nil : LowEqValues [] []
  | cons {value value' : Value} {values values' : List Value} :
      LowEq value value' → LowEqValues values values' →
        LowEqValues (value :: values) (value' :: values')

inductive LowEqFields : List (String × Value) → List (String × Value) → Prop
  | nil : LowEqFields [] []
  | hide {key : String} {value value' : Value} {fields fields' : List (String × Value)} :
      hidden key value = true → hidden key value' = true → LowEqFields fields fields' →
        LowEqFields ((key, value) :: fields) ((key, value') :: fields')
  | cons {key : String} {value value' : Value} {fields fields' : List (String × Value)} :
      LowEq value value' → LowEqFields fields fields' →
        LowEqFields ((key, value) :: fields) ((key, value') :: fields')

end

end

variable {hidden : String → Value → Bool} {value value' : Value} {key : String}
  {values values' : List Value} {fields fields' : List (String × Value)}
  {pending pending' : List (Value × ℕ)}

section

variable (h : LowEq hidden value value')

include h

theorem LowEq.isNull_eq : value.isNull = value'.isNull := by
  cases h <;> rfl

theorem LowEq.isString_eq : value.isString = value'.isString := by
  cases h <;> rfl

theorem LowEq.asStr_eq : value.asStr = value'.asStr := by
  cases h <;> rfl

theorem LowEq.isSensitiveEntry_eq (key : String) :
    isSensitiveEntry key value = isSensitiveEntry key value' := by
  simp only [isSensitiveEntry, h.isNull_eq, h.isString_eq]

end

theorem isShownRedacted_of_isSensitiveEntry (h : isSensitiveEntry key value = true) :
    isShownRedacted key value = true := by
  have hn : value.isNull = false := by
    by_contra hn
    simp [isSensitiveEntry, hn] at h
  simp [isShownRedacted, hn, h]

theorem LowEqValues.map_eq {β : Type*} {f : Value → β}
    (hf : ∀ {value value'}, LowEq hidden value value' → f value = f value')
    (h : LowEqValues hidden values values') : values.map f = values'.map f := by
  induction values generalizing values' with
  | nil =>
    cases h
    rfl
  | cons value values ih =>
    cases h with
    | cons hv hr => rw [List.map_cons, List.map_cons, hf hv, ih hr]

theorem LowEqValues.length_eq (h : LowEqValues hidden values values') :
    values.length = values'.length := by
  simpa using congrArg List.length (h.map_eq fun _ => rfl (a := ()))

theorem LowEqFields.length_eq (h : LowEqFields hidden fields fields') :
    fields.length = fields'.length := by
  induction fields generalizing fields' with
  | nil =>
    cases h
    rfl
  | cons field fields ih =>
    cases h with
    | hide _ _ hr => simp [ih hr]
    | cons _ hr => simp [ih hr]

theorem LowEqFields.getField_asStr_eq (h : LowEqFields hidden fields fields')
    (hkey : ∀ value, hidden key value = false) :
    (getField key fields).bind Value.asStr = (getField key fields').bind Value.asStr := by
  induction fields generalizing fields' with
  | nil =>
    cases h
    rfl
  | cons field fields ih =>
    cases h with
    | @hide k value value' _ _ hs _ hr =>
      have hne : k ≠ key := by
        intro hk
        simp [hk, hkey] at hs
      simpa [getField, hne] using ih hr
    | @cons k value value' _ _ hv hr =>
      by_cases hk : k = key
      · simpa [getField, hk] using hv.asStr_eq
      · simpa [getField, hk] using ih hr

mutual

theorem LowEq.redactAt_eq {value value' : Value} (h : LowEq hidden value value')
    (hh : ∀ key value, hidden key value = true → isShownRedacted key value = true) (depth : ℕ) :
    redactAt value depth = redactAt value' depth := by
  cases h with
  | null | bool | number | string => rfl
  | array hv => simp only [redactAt, hv.redactValues_eq hh depth]
  | object hf => simp only [redactAt, hf.redactFields_eq hh depth]

theorem LowEqValues.redactValues_eq {values values' : List Value}
    (h : LowEqValues hidden values values')
    (hh : ∀ key value, hidden key value = true → isShownRedacted key value = true) (depth : ℕ) :
    redactValues values depth = redactValues values' depth := by
  cases h with
  | nil => rfl
  | cons hv hr =>
    simp only [redactValues, hv.redactAt_eq hh (depth + 1), hr.redactValues_eq hh depth]

theorem LowEqFields.redactFields_eq {fields fields' : List (String × Value)}
    (h : LowEqFields hidden fields fields')
    (hh : ∀ key value, hidden key value = true → isShownRedacted key value = true) (depth : ℕ) :
    redactFields fields depth = redactFields fields' depth := by
  cases h with
  | nil => rfl
  | hide hv hv' hr =>
    simp only [redactFields, hh _ _ hv, hh _ _ hv', if_true, hr.redactFields_eq hh depth]
  | cons hv hr =>
    simp only [redactFields, isShownRedacted, hv.isNull_eq, hv.isSensitiveEntry_eq,
      hv.redactAt_eq hh (depth + 1), hr.redactFields_eq hh depth]
    rfl

end

mutual

/-- Every entry that is to be shown redacted holds the constant, at every depth. -/
def Masked : Value → Prop
  | .object fields => MaskedFields fields
  | .array values => MaskedValues values
  | _ => True

def MaskedFields : List (String × Value) → Prop
  | [] => True
  | (key, value) :: fields =>
    (isShownRedacted key value = true → value = .string redacted) ∧ Masked value ∧
      MaskedFields fields

def MaskedValues : List Value → Prop
  | [] => True
  | value :: values => Masked value ∧ MaskedValues values

end

mutual

theorem masked_redactAt (value : Value) (depth : ℕ) : Masked (redactAt value depth) := by
  cases value with
  | null | bool | number | string =>
    simp only [redactAt]
    split <;> exact trivial
  | array values =>
    simp only [redactAt]
    split
    · exact trivial
    · exact maskedValues_redactValues values depth
  | object fields =>
    simp only [redactAt]
    split
    · exact trivial
    · exact maskedFields_redactFields fields depth

theorem maskedFields_redactFields (fields : List (String × Value)) (depth : ℕ) :
    MaskedFields (redactFields fields depth) := by
  match fields with
  | [] => trivial
  | (key, value) :: fields =>
    rw [redactFields]
    refine ⟨?_, ?_, maskedFields_redactFields fields depth⟩ <;> split
    · exact fun _ => rfl
    · rename_i hs
      intro h
      -- redacting an entry that is shown does not make it one that is hidden
      have hcases : redactAt value (depth + 1) = .string redacted ∨
          (redactAt value (depth + 1)).isNull = value.isNull ∧
            (redactAt value (depth + 1)).isString = value.isString := by
        cases value <;> simp only [redactAt] <;> split <;>
          first | exact .inl rfl | exact .inr ⟨rfl, rfl⟩
      rcases hcases with hr | ⟨hn, hst⟩
      · exact hr
      · simp only [isShownRedacted, isSensitiveEntry, hn, hst] at h
        exact absurd h hs
    · exact trivial
    · exact masked_redactAt value (depth + 1)

theorem maskedValues_redactValues (values : List Value) (depth : ℕ) :
    MaskedValues (redactValues values depth) := by
  match values with
  | [] => trivial
  | value :: values =>
    exact ⟨masked_redactAt value (depth + 1), maskedValues_redactValues values depth⟩

end

/-- What is shown does not depend on what is hidden, and everything to be hidden is. -/
theorem redactSensitive_noninterference :
    (∀ value value', LowEq isShownRedacted value value' →
      redactSensitive value = redactSensitive value') ∧
      ∀ value, Masked (redactSensitive value) :=
  ⟨fun _ _ h => h.redactAt_eq (fun _ _ hk => hk) 0, fun value => masked_redactAt value 0⟩

/-- Stacks of values at the same depths that agree one by one up to credentials. -/
def PendingEq (pending pending' : List (Value × ℕ)) : Prop :=
  List.Forall₂ (fun p q => LowEq isSensitiveEntry p.1 q.1 ∧ p.2 = q.2) pending pending'

/-- Turns of the loop that end alike, with the same count and agreeing stacks. -/
def VisitEq (outcome outcome' : Option (ℕ × List (Value × ℕ))) : Prop :=
  Option.Rel (fun a b => a.1 = b.1 ∧ PendingEq a.2 b.2) outcome outcome'

theorem PendingEq.cons (h : PendingEq pending pending')
    (hv : LowEq isSensitiveEntry value value') (depth : ℕ) :
    PendingEq ((value, depth) :: pending) ((value', depth) :: pending') :=
  List.Forall₂.cons ⟨hv, rfl⟩ h

theorem PendingEq.push (h : PendingEq pending pending')
    (hv : LowEqValues isSensitiveEntry values values') (depth : ℕ) :
    PendingEq ((values.map fun value => (value, depth)).reverse ++ pending)
      ((values'.map fun value => (value, depth)).reverse ++ pending') := by
  induction values generalizing values' pending pending' with
  | nil =>
    cases hv
    exact h
  | cons value values ih =>
    cases hv with
    | cons hva hr =>
      simpa using ih (h.cons hva depth) hr

theorem LowEqFields.visitFields_rel (h : LowEqFields isSensitiveEntry fields fields')
    (depth bytes : ℕ) (hp : PendingEq pending pending') :
    VisitEq (visitFields depth fields bytes pending)
      (visitFields depth fields' bytes pending') := by
  induction fields generalizing fields' bytes pending pending' with
  | nil =>
    cases h
    exact .some ⟨rfl, hp⟩
  | cons field fields ih =>
    cases h with
    | hide hv hv' hr =>
      simp only [visitFields, hv, hv', if_true, ite_self]
      exact .none
    | @cons key value value' _ _ hv hr =>
      simp only [visitFields, hv.isSensitiveEntry_eq key]
      split
      · exact .none
      · split
        · exact .none
        · exact ih hr _ (hp.cons hv (depth + 1))

theorem LowEq.visit_rel (h : LowEq isSensitiveEntry value value') (budget bytes depth : ℕ)
    (hp : PendingEq pending pending') : VisitEq (visit budget bytes value depth pending)
      (visit budget bytes value' depth pending') := by
  have hl : pending.length = pending'.length := List.Forall₂.length_eq hp
  cases h with
  | null | bool | number | string => exact .some ⟨rfl, hp⟩
  | array hv =>
    simp only [visit, hv.length_eq, hl]
    split
    · exact .none
    · exact .some ⟨rfl, hp.push hv (depth + 1)⟩
  | object hf =>
    simp only [visit, hf.length_eq, hl]
    split
    · exact .none
    · exact hf.visitFields_rel depth bytes hp

/-- The detector walks agreeing stacks in lockstep. -/
theorem PendingEq.walk_eq (h : PendingEq pending pending') (valueSize budget bytes : ℕ) :
    walk valueSize budget bytes pending = walk valueSize budget bytes pending' := by
  induction budget generalizing bytes pending pending' with
  | zero =>
    cases h <;> rfl
  | succ budget ih =>
    cases h with
    | nil => rfl
    | @cons p q pending pending' hpq hr =>
      obtain ⟨value, depth⟩ := p
      obtain ⟨value', depth'⟩ := q
      obtain ⟨hva, hd⟩ := hpq
      simp only at hva hd
      subst hd
      simp only [walk]
      split
      · rfl
      have hv := hva.visit_rel budget (saturatingAdd 64 bytes valueSize) depth hr
      revert hv
      generalize visit budget (saturatingAdd 64 bytes valueSize) value depth pending = r
      generalize visit budget (saturatingAdd 64 bytes valueSize) value' depth pending' = r'
      intro hv
      cases hv with
      | none => rfl
      | @some a b hab =>
        obtain ⟨bytes, pending⟩ := a
        obtain ⟨bytes', pending'⟩ := b
        obtain ⟨hb, hp⟩ := hab
        simp only at hb hp
        subst hb
        simp only [ih hp bytes]

/-- Whether a request is private does not depend on the values of its credentials. -/
theorem LowEq.containsCredentials_eq (h : LowEq isSensitiveEntry value value') (valueSize : ℕ) :
    containsCredentials valueSize value = containsCredentials valueSize value' := by
  have hp : PendingEq [(value, 0)] [(value', 0)] := PendingEq.cons .nil h 0
  exact hp.walk_eq valueSize maxNodes 0

end NetGet.Redact
