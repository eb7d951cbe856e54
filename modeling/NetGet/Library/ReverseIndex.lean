import Mathlib.Data.Finset.Card
import NetGet.Library.Table

/-! # Reverse indexes -/

namespace NetGet.Library.ReverseIndex

variable {A B : Type*} [DecidableEq B] {t : Table B (Finset A)} {a a' : A} {b b' : B}

def holders (t : Table B (Finset A)) (b : B) : Finset A := (t.lookup b).getD ∅

def Tight (t : Table B (Finset A)) : Prop := ∀ b s, t.lookup b = some s → s ≠ ∅

theorem mem_holders_iff : a ∈ holders t b ↔ ∃ s, t.lookup b = some s ∧ a ∈ s := by
  unfold holders
  cases t.lookup b <;> simp

theorem mem_iff_holders (h : Tight t) : b ∈ t ↔ ∃ a, a ∈ holders t b := by
  rw [AList.mem_iff_lookup]
  constructor
  · rintro ⟨s, hs⟩
    obtain ⟨a, ha⟩ := Finset.nonempty_iff_ne_empty.2 (h b s hs)
    exact ⟨a, mem_holders_iff.2 ⟨s, hs, ha⟩⟩
  · rintro ⟨a, ha⟩
    obtain ⟨s, hs, -⟩ := mem_holders_iff.1 ha
    exact ⟨s, hs⟩

theorem card_keys (t : Table B (Finset A)) : t.keys.toFinset.card = t.keys.length :=
  List.toFinset_card_of_nodup t.keys_nodup

variable [DecidableEq A]

def add (t : Table B (Finset A)) (b : B) (a : A) : Table B (Finset A) :=
  t.insert b (insert a (holders t b))

/-- Take out a holder, and the name with its last one. -/
def remove (t : Table B (Finset A)) (b : B) (a : A) : Table B (Finset A) :=
  match t.lookup b with
  | none => t
  | some s => if s.erase a = ∅ then t.erase b else t.insert b (s.erase a)

theorem holders_add : holders (add t b a) b' =
    if b' = b then insert a (holders t b) else holders t b' := by
  rw [add, holders, AList.lookup_insert_ite]
  split <;> rfl

theorem mem_holders_add : a' ∈ holders (add t b a) b' ↔ a' = a ∧ b' = b ∨ a' ∈ holders t b' := by
  rw [holders_add]
  split_ifs with h
  · subst h
    simp
  · simp [h]

theorem holders_remove : holders (remove t b a) b' =
    if b' = b then (holders t b).erase a else holders t b' := by
  unfold remove
  split
  · rename_i h
    split_ifs with heq
    · rw [heq, holders, h]
      rfl
    · rfl
  rename_i s h
  rw [show holders t b = s by rw [holders, h, Option.getD_some]]
  split
  · rename_i he
    rw [holders, AList.lookup_erase_ite, he]
    split <;> rfl
  · rw [holders, AList.lookup_insert_ite]
    split <;> rfl

theorem mem_holders_remove :
    a' ∈ holders (remove t b a) b' ↔ a' ∈ holders t b' ∧ ¬ (a' = a ∧ b' = b) := by
  rw [holders_remove]
  split_ifs with h
  · subst h
    simp [and_comm]
  · simp [h]

theorem tight_add (h : Tight t) : Tight (add t b a) := by
  exact AList.forall_insert h (Finset.insert_ne_empty _ _)

theorem tight_remove (h : Tight t) : Tight (remove t b a) := by
  intro b' s hs
  unfold remove at hs
  split at hs
  · exact h b' s hs
  split_ifs at hs with hne
  · exact h b' s (AList.lookup_of_erase hs)
  · exact AList.forall_insert h hne b' s hs

end NetGet.Library.ReverseIndex
