import NetGet.Library.Machine

/-! # Agents that share a keyed store

An agent has a state of its own and changes the store one key at a time. Programs say which
operations an agent calls and what it asks its surroundings. Agents that keep to keys of their
own do not notice each other. -/

namespace NetGet.Library.Sharing

open Function

/-- The operations on a value of the store and the questions to the surroundings. An operation
without a result has panicked and changed nothing. -/
structure Interface where
  Value : Type
  Op : Type
  Reply : Op → Type
  apply : (op : Op) → Value → Option (Value × Reply op)
  Question : Type
  Answer : Question → Type

inductive Program (S : Interface) (κ : Type) (α : Type) : Type where
  | done (result : α)
  | call (key : κ) (op : S.Op) (next : S.Reply op → Program S κ α)
  | ask (question : S.Question) (next : S.Answer question → Program S κ α)

namespace Program

variable {S : Interface} {κ α β ε : Type} {P : κ → S.Op → Prop} {Q : S.Question → Prop}

def bind : Program S κ α → (α → Program S κ β) → Program S κ β
  | .done a, f => f a
  | .call key op next, f => .call key op fun r => (next r).bind f
  | .ask question next, f => .ask question fun a => (next a).bind f

instance : Monad (Program S κ) where
  pure := .done
  bind := .bind

/-- Every call and every question has the property. -/
def Within (P : κ → S.Op → Prop) (Q : S.Question → Prop) : Program S κ α → Prop
  | .done _ => True
  | .call key op next => P key op ∧ ∀ r, (next r).Within P Q
  | .ask question next => Q question ∧ ∀ a, (next a).Within P Q

theorem within_bind {p : Program S κ α} {f : α → Program S κ β} (hp : p.Within P Q)
    (hf : ∀ a, (f a).Within P Q) : (p >>= f).Within P Q := by
  induction p with
  | done a => exact hf a
  | call key op next ih => exact ⟨hp.1, fun r => ih r (hp.2 r)⟩
  | ask question next ih => exact ⟨hp.1, fun a => ih a (hp.2 a)⟩

end Program

/-- What an agent does next: something of its own, or an operation on a key. -/
inductive Act (S : Interface) (κ L : Type) where
  | own (next : L)
  | use (key : κ) (op : S.Op) (next : Option (S.Reply op) → L)

structure World (S : Interface) (ι κ L : Type) where
  store : κ → S.Value
  agents : ι → L

variable {S : Interface} {ι κ L A : Type}

/-- The operation has the property `K`, and the agent ends with the property `P`. -/
def Act.Respects (K : κ → S.Op → Prop) (P : L → Prop) : Act S κ L → Prop
  | .own next => P next
  | .use key op next => K key op ∧ ∀ r, P (next r)

/-- Agents in states with the property `P` use operations with the property `K` only, under labels
that are `ok`. -/
structure Confined (act : L → A → Act S κ L) (K : ι → κ → S.Op → Prop) (ok : ι → A → Prop)
    (P : ι → L → Prop) : Prop where
  respects : ∀ i l a, P i l → ok i a → (act l a).Respects (K i) (P i)

variable {act : L → A → Act S κ L} {a : A} {i : ι} {key : κ} {op : S.Op} {K : ι → κ → S.Op → Prop}
  {owner : κ → ι} {ok : ι → A → Prop} {P : ι → L → Prop} (hact : Confined act K ok P)

section

include hact

theorem Confined.own {l next : L} (hl : P i l) (hla : ok i a)
    (h : act l a = .own next) : P i next := by
  have hr := hact.respects i l a hl hla
  rwa [h] at hr

theorem Confined.use {l : L} (hl : P i l) (hla : ok i a)
    {next : Option (S.Reply op) → L} (h : act l a = .use key op next) :
    K i key op ∧ ∀ r, P i (next r) := by
  have hr := hact.respects i l a hl hla
  rwa [h] at hr

end

variable [DecidableEq ι] [DecidableEq κ]

variable (act) in
/-- One step of an agent. -/
def step (w : World S ι κ L) (label : ι × A) : World S ι κ L :=
  match act (w.agents label.1) label.2 with
  | .own next => { w with agents := update w.agents label.1 next }
  | .use key op next =>
    match S.apply op (w.store key) with
    | some (v, r) =>
      { store := update w.store key v
        agents := update w.agents label.1 (next (some r)) }
    | none => { w with agents := update w.agents label.1 (next none) }

variable {w w' : World S ι κ L} {j : ι}

theorem step_own {next : L} (h : act (w.agents i) a = .own next) :
    step act w (i, a) = { w with agents := update w.agents i next } := by
  simp only [step, h]

/-- A step with an operation, whether it panics or not. -/
theorem step_use {next : Option (S.Reply op) → L} (h : act (w.agents i) a = .use key op next) :
    step act w (i, a) =
      { store := update w.store key ((S.apply op (w.store key)).elim (w.store key) (·.1))
        agents := update w.agents i (next ((S.apply op (w.store key)).map (·.2))) } := by
  simp only [step, h]
  cases S.apply op (w.store key) with
  | some r => rfl
  | none => simp only [Option.elim_none, update_eq_self, Option.map_none]

theorem agents_eq (w : World S ι κ L) (a : A) (h : j ≠ i) :
    (step act w (i, a)).agents j = w.agents j := by
  cases hact : act (w.agents i) a with
  | own next =>
    rw [step_own hact]
    exact update_of_ne h _ _
  | use key op next =>
    rw [step_use hact]
    exact update_of_ne h _ _

/-- The store changes by operations only. -/
theorem store_invariant (J : κ → S.Value → Prop) (allowed : κ → S.Op → S.Value → Prop)
    (hop : ∀ key op v v' r, J key v → allowed key op v → S.apply op v = some (v', r) → J key v')
    (hw : ∀ key, J key (w.store key)) (ha : ∀ key op next, act (w.agents i) a = .use key op next →
      allowed key op (w.store key)) (key : κ) : J key ((step act w (i, a)).store key) := by
  cases hact : act (w.agents i) a with
  | own next =>
    rw [step_own hact]
    exact hw key
  | use key' op next =>
    rw [step_use hact]
    simp only
    by_cases hkey : key = key'
    · subst hkey
      rw [update_self]
      cases hap : S.apply op (w.store key) with
      | none => exact hw key
      | some r => exact hop key op _ _ r.2 (hw key) (ha key op next hact) hap
    · rw [update_of_ne hkey]
      exact hw key

include hact

theorem Confined.step (hw : ∀ i, P i (w.agents i)) (hl : ok j a) (i : ι) :
    P i ((step act w (j, a)).agents i) := by
  by_cases hi : i = j
  · subst hi
    cases h : act (w.agents i) a with
    | own next =>
      rw [step_own h]
      simp only [update_self]
      exact hact.own (hw i) hl h
    | use key op next =>
      rw [step_use h]
      simp only [update_self]
      exact (hact.use (hw i) hl h).2 _
  · rw [agents_eq w a hi]
    exact hw i

variable (ho : ∀ {i key op}, K i key op → owner key = i)

include ho

/-- A step of an agent leaves the keys of others as they are. -/
theorem Confined.store_eq (hw : P i (w.agents i)) (hl : ok i a)
    (hkey : owner key ≠ i) : (Sharing.step act w (i, a)).store key = w.store key := by
  cases h : act (w.agents i) a with
  | own next => rw [step_own h]
  | use key' op next =>
    have hne : key ≠ key' := by
      rintro rfl
      exact hkey (ho (hact.use hw hl h).1)
    rw [step_use h]
    exact update_of_ne hne _ _

/-- The same for one agent: its own state and the values at its keys. -/
structure SameFor (owner : κ → ι) (i : ι) (w w' : World S ι κ L) : Prop where
  agent : w.agents i = w'.agents i
  store : ∀ key, owner key = i → w.store key = w'.store key

theorem Confined.sameFor_self (hw : P i (w.agents i)) (hl : ok i a) (h : SameFor owner i w w') :
    SameFor owner i (Sharing.step act w (i, a)) (Sharing.step act w' (i, a)) := by
  cases hs : act (w.agents i) a with
  | own next =>
    have hs' := hs
    rw [h.agent] at hs'
    rw [step_own hs, step_own hs']
    exact ⟨by simp only [update_self], h.store⟩
  | use key op next =>
    have hkey := ho (hact.use hw hl hs).1
    have hs' := hs
    rw [h.agent] at hs'
    rw [step_use hs, step_use hs', h.store key hkey]
    refine ⟨by simp only [update_self], fun key' hkey' => ?_⟩
    by_cases heq : key' = key
    · subst heq
      simp only [update_self]
    · simp only [update_of_ne heq]
      exact h.store key' hkey'

theorem Confined.sameFor_other (hw : P j (w.agents j)) (hl : ok j a) (hne : i ≠ j)
    (h : SameFor owner i w w') :
    SameFor owner i (Sharing.step act w (j, a)) w' where
  agent := (agents_eq w a hne).trans h.agent
  store key hkey := by
    rw [hact.store_eq ho hw hl (hkey.trans_ne hne)]
    exact h.store key hkey

/-- An agent cannot tell a run from the same run without the steps of the others. -/
theorem Confined.sameFor_run (i : ι) {labels : List (ι × A)} (hla : ∀ l ∈ labels, ok l.1 l.2)
    (hw : ∀ j, P j (w.agents j)) (h : SameFor owner i w w') :
    SameFor owner i (Machine.run (Sharing.step act) w labels)
      (Machine.run (Sharing.step act) w' (labels.filter (·.1 = i))) := by
  induction labels generalizing w w' with
  | nil => exact h
  | cons l labels ih =>
    obtain ⟨hl, hr⟩ := List.forall_mem_cons.1 hla
    obtain ⟨j, a⟩ := l
    have hn := fun k => hact.step hw hl k
    by_cases hi : j = i
    · subst hi
      rw [List.filter_cons_of_pos (by simp)]
      exact ih hr hn (hact.sameFor_self ho (hw j) hl h)
    · rw [List.filter_cons_of_neg (by simpa using hi)]
      exact ih hr hn (hact.sameFor_other ho (hw j) hl (Ne.symm hi) h)

end NetGet.Library.Sharing
