import Mathlib.Algebra.Order.BigOperators.Group.List
import Mathlib.Algebra.Order.Group.Nat
import NetGet.Model.Conversation

/-! # Trimming a request -/

namespace NetGet.Conversation.ConversationHandler

open List

def Within (c : ConversationHandler) : Prop :=
  c.messages.length ≤ c.maxHistoryMessages ∧ c.historyChars ≤ c.maxHistoryChars

def rest (c : ConversationHandler) : List Message := c.messages.drop c.protectedCount

def before (c : ConversationHandler) (ms : List Message) : ConversationHandler :=
  { c with messages := c.messages.take c.protectedCount ++ ms }

/-- The protected messages, then the notice in place of the `n` oldest of the others. -/
def noticed (c : ConversationHandler) (n : ℕ) : ConversationHandler :=
  c.before (.user trimNotice :: c.rest.drop n)

variable {c : ConversationHandler}

theorem overHistoryBudget_iff : c.overHistoryBudget ↔ ¬ c.Within := by
  simp [overHistoryBudget, Within, imp_iff_not_or]

theorem before_rest (c : ConversationHandler) : c.before c.rest = c := by
  simp [before, rest]

section

variable (h : c.rest ≠ []) (ms : List Message)

include h

theorem length_protected : (c.messages.take c.protectedCount).length = c.protectedCount := by
  have hl := length_pos_iff.2 h
  rw [rest, length_drop] at hl
  rw [length_take]
  omega

theorem length_before : (c.before ms).messages.length = c.protectedCount + ms.length := by
  rw [before, length_append, length_protected h]

theorem historyChars_before_le {ms ms' : List Message} (hs : ms <+ ms') :
    (c.before ms).historyChars ≤ (c.before ms').historyChars := by
  have hp : 1 ≤ (c.messages.take c.protectedCount).length := by
    rw [length_protected h, protectedCount]
    split <;> omega
  simp only [historyChars, before, drop_append_of_le_length hp]
  exact Sublist.sum_le_sum ((hs.append_left _).map _) fun _ _ => Nat.zero_le _

theorem eraseIdx_before (i : ℕ) :
    { c.before ms with messages := (c.before ms).messages.eraseIdx (c.protectedCount + i) } =
      c.before (ms.eraseIdx i) := by
  have he := eraseIdx_append_of_length_le (k := c.protectedCount + i)
    ((length_protected h).trans_le (Nat.le_add_right _ _)) ms
  rw [length_protected h, Nat.add_sub_cancel_left] at he
  simp only [before, he]

theorem dropOldest_before (rounds : ℕ) (removedAny : Bool) (hr : ms.length ≤ rounds) :
    ∃ n, dropOldest c.protectedCount rounds (c.before ms) removedAny =
        (c.before (ms.drop n), removedAny || decide (0 < n)) ∧
      (n = 0 ∨ n + 2 ≤ ms.length) ∧ (∀ j < n, ¬ (c.before (ms.drop j)).Within) ∧
      (n + 2 < ms.length → (c.before (ms.drop n)).Within) := by
  induction ms generalizing rounds removedAny with
  | nil =>
    refine ⟨0, ?_, .inl rfl, by simp, by simp⟩
    cases rounds with
    | zero => simp [dropOldest]
    | succ rounds => simp [dropOldest, length_before h]
  | cons m ms ih =>
    obtain _ | rounds := rounds
    · cases hr
    have hc : ((c.before (m :: ms)).messages.length > c.protectedCount + 2 &&
        (c.before (m :: ms)).overHistoryBudget) ↔
          2 ≤ ms.length ∧ ¬ (c.before (m :: ms)).Within := by
      rw [Bool.and_eq_true, decide_eq_true_eq, overHistoryBudget_iff, length_before h, length_cons]
      exact and_congr_left' (by omega)
    rw [dropOldest]
    by_cases ho : 2 ≤ ms.length ∧ ¬ (c.before (m :: ms)).Within
    · obtain ⟨n, hd, hn, hb, hw⟩ := ih rounds true (Nat.le_of_succ_le_succ hr)
      have he := eraseIdx_before h (m :: ms) 0
      refine ⟨n + 1, ?_, by grind, ?_, fun hlt => hw (Nat.lt_of_succ_lt_succ hlt)⟩
      · rw [if_pos (hc.2 ho)]
        simpa using (congrArg (dropOldest _ rounds · true) he).trans hd
      intro j hj
      cases j with
      | zero => exact ho.2
      | succ j => exact hb j (Nat.lt_of_succ_lt_succ hj)
    · rw [if_neg (mt hc.1 ho)]
      exact ⟨0, by simp, .inl rfl, by simp, by grind⟩

end

/-- With the `n` oldest dropped the caps are met, the notice counted as a message only. -/
def Room (c : ConversationHandler) (n : ℕ) : Prop :=
  (c.noticed n).messages.length ≤ c.maxHistoryMessages ∧
    (c.before (c.rest.drop n)).historyChars ≤ c.maxHistoryChars

theorem trimHistory_of_le (h : c.rest.length ≤ 2) : c.trimHistory = c := by
  have hl : ¬ c.messages.length > c.protectedCount + 2 := by
    rw [rest, length_drop] at h
    omega
  have hd : dropOldest c.protectedCount c.messages.length c false = (c, false) := by
    cases c.messages.length <;> simp [dropOldest, hl]
  simp [trimHistory, hd]

theorem trimHistory_of_within (h : c.Within) : c.trimHistory = c := by
  simp [trimHistory, overHistoryBudget_iff.not_left.2 h]

theorem trimHistory_eq (h : 2 < c.rest.length) (hw : ¬ c.Within) :
    ∃ k, c.trimHistory = { c.noticed k with trimGeneration := c.trimGeneration + 1 } ∧
      k + 2 ≤ c.rest.length ∧ (∀ j < k, ¬ c.Room j) ∧ (k + 2 < c.rest.length → c.Room k) := by
  have hne : c.rest ≠ [] := ne_nil_of_length_pos (by omega)
  have hlen : ∀ n, (c.noticed n).messages.length = c.protectedCount + (c.rest.length - n + 1) :=
    fun n => by rw [noticed, length_before hne, length_cons, length_drop]
  obtain ⟨n, hd, hn, hb, hk⟩ :=
    dropOldest_before hne c.rest c.messages.length false (by simp [rest])
  rw [before_rest, Bool.false_or] at hd
  have hn0 : 0 < n := n.pos_of_ne_zero fun h0 => hw (by simpa [h0, before_rest, h] using hk)
  have hroom : ∀ j < n, ¬ c.Room j := by
    intro j hj hr
    refine hb j hj ⟨?_, hr.2⟩
    have := (hlen j).symm.trans_le hr.1
    rw [length_before hne, length_drop]
    show _ ≤ c.maxHistoryMessages
    omega
  have hi : (c.before (c.rest.drop n)).messages.insertIdx c.protectedCount (.user trimNotice) =
    (c.noticed n).messages := by
    have hins : ∀ l : List Message, (l ++ c.rest.drop n).insertIdx l.length (.user trimNotice) =
        l ++ .user trimNotice :: c.rest.drop n := by
      intro l
      induction l with
      | nil => rfl
      | cons x l ih => simp [ih]
    have hp := hins (c.messages.take c.protectedCount)
    rwa [length_protected hne] at hp
  simp only [trimHistory, overHistoryBudget_iff.2 hw, hd, hn0, hi, decide_true, Bool.not_true,
    Bool.false_eq_true, if_false]
  split
  case isTrue ho =>
    -- the notice went over the message cap: one more message makes room for it
    simp only [hlen, Bool.and_eq_true, decide_eq_true_eq] at ho
    have hc := hk (by omega)
    have he := congrArg messages (eraseIdx_before hne (.user trimNotice :: c.rest.drop n) 1)
    rw [eraseIdx_cons_succ, eraseIdx_zero, tail_drop] at he
    refine ⟨n + 1, ?_, by omega, fun j hj hr => ?_, fun _ => ⟨?_, ?_⟩⟩
    · exact congrArg (fun messages =>
        ({ c with messages, trimGeneration := c.trimGeneration + 1 } : ConversationHandler)) he
    · obtain hj | rfl := Nat.lt_succ_iff_lt_or_eq.1 hj
      · exact hroom j hj hr
      · exact absurd ((hlen j).symm.trans_le hr.1) (by omega)
    · have := (length_before hne (c.rest.drop n)).symm.trans_le hc.1
      rw [length_drop] at this
      change _ ≤ c.maxHistoryMessages at this
      rw [hlen]
      omega
    · exact (historyChars_before_le hne (drop_sublist_drop_left _ n.le_succ)).trans hc.2
  case isFalse ho =>
    refine ⟨n, rfl, by omega, hroom, fun hlt => ⟨?_, (hk hlt).2⟩⟩
    simp only [hlen, Bool.and_eq_true, decide_eq_true_eq] at ho ⊢
    omega

/-- What is left is the protected messages, at most one notice and a suffix of the others with
at least the last two. -/
theorem trim_keeps_protected (c : ConversationHandler) : (∃ n, (n = 0 ∨ n + 2 ≤ c.rest.length) ∧
      (c.trimHistory.messages = c.messages.take c.protectedCount ++ c.rest.drop n ∨
        c.trimHistory.messages =
          c.messages.take c.protectedCount ++ .user trimNotice :: c.rest.drop n)) ∧
      (c.trimHistory.trimGeneration = c.trimGeneration → c.trimHistory.messages = c.messages) := by
  by_cases hc : c.rest.length ≤ 2 ∨ c.Within
  · rw [hc.elim trimHistory_of_le trimHistory_of_within]
    exact ⟨⟨0, .inl rfl, .inl (congrArg messages (before_rest c)).symm⟩, fun _ => rfl⟩
  · rw [not_or, not_le] at hc
    obtain ⟨k, he, hk, -⟩ := trimHistory_eq hc.1 hc.2
    rw [he]
    exact ⟨⟨k, .inr hk, .inr rfl⟩, fun hg => absurd hg c.trimGeneration.succ_ne_self⟩

def Bounded (c c' : ConversationHandler) : Prop :=
  c'.Within ∨ ∃ l, (l = [] ∨ l = [.user trimNotice]) ∧
    c'.messages = c.messages.take c.protectedCount ++ l ++ c.rest.drop (c.rest.length - 2)

/-- Where more than two messages leave room, the notice fits the cap on characters as well. -/
def NoticeFits (c : ConversationHandler) : Prop :=
  c.Within ∨ ∀ n, n + 2 < c.rest.length → c.Room n →
    (c.noticed n).historyChars ≤ c.maxHistoryChars

/-- Trimming gets below the caps, or down to two messages, just when the notice fits. -/
theorem trim_bounded_iff (c : ConversationHandler) : c.Bounded c.trimHistory ↔ c.NoticeFits := by
  by_cases hw : c.Within
  · rw [trimHistory_of_within hw]
    exact iff_of_true (.inl hw) (.inl hw)
  by_cases h : c.rest.length ≤ 2
  · rw [trimHistory_of_le h]
    refine iff_of_true (.inr ⟨[], .inl rfl, ?_⟩) (.inr fun n hn => by omega)
    rw [Nat.sub_eq_zero_of_le h, append_nil]
    exact (congrArg messages (before_rest c)).symm
  rw [not_le] at h
  obtain ⟨k, he, hk, hj, hr⟩ := trimHistory_eq h hw
  have hne : c.rest ≠ [] := ne_nil_of_length_pos (by omega)
  rw [he]
  obtain hlt | heq := hk.lt_or_eq
  · constructor
    · rintro (hb | ⟨l, hl, hm⟩)
      · refine .inr fun n _ hn => ?_
        have hkn : k ≤ n := not_lt.1 fun hlt => hj n hlt hn
        exact (historyChars_before_le hne
          ((drop_sublist_drop_left _ hkn).cons_cons _)).trans hb.2
      · have hl : l.length ≤ 1 := by rcases hl with rfl | rfl <;> simp
        have hm := (length_before hne _).symm.trans (congrArg length hm)
        simp only [length_append, length_protected hne, length_cons, length_drop] at hm
        omega
    · rintro (hb | hn)
      · exact absurd hb hw
      · exact .inl ⟨(hr hlt).1, hn k hlt (hr hlt)⟩
  · refine iff_of_true (.inr ⟨[.user trimNotice], .inr rfl, ?_⟩)
      (.inr fun n hn hn' => absurd hn' (hj n (by omega)))
    rw [← heq, Nat.add_sub_cancel, append_assoc]
    rfl

def fourShort : ConversationHandler where
  messages := [⟨"system", "", none⟩, .user ""] ++ replicate 4 ⟨"assistant", "a", none⟩
  maxHistoryMessages := 24
  maxHistoryChars := 3
  trimGeneration := 0

theorem not_bounded_fourShort : ¬ fourShort.Bounded fourShort.trimHistory := by
  have hw : fourShort.trimHistory.maxHistoryChars < fourShort.trimHistory.historyChars := by
    decide +kernel
  rintro (h | ⟨l, rfl | rfl, h⟩)
  · exact h.2.not_gt hw
  · exact absurd h (by decide +kernel)
  · exact absurd h (by decide +kernel)

end NetGet.Conversation.ConversationHandler
