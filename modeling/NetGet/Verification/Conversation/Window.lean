import NetGet.Library.Machine
import NetGet.Model.Conversation

/-! # The window of a conversation -/

namespace NetGet.Conversation

open Library.Machine Truncate List

theorem utf8ByteSize_sliceTo_le (bytes : ℕ) (cs : List Char) :
    (String.ofList (sliceTo bytes cs)).utf8ByteSize ≤ bytes := by
  induction cs generalizing bytes with
  | nil => exact Nat.zero_le _
  | cons c cs ih =>
    rw [sliceTo]
    split
    · have hs := ih (bytes - c.utf8Size)
      simp only [String.ofList_cons, String.utf8ByteSize_append, String.utf8ByteSize_singleton]
      omega
    · exact Nat.zero_le _

theorem floorCharBoundary_le (s : String) (maxBytes : ℕ) :
    floorCharBoundary s maxBytes ≤ maxBytes := by
  rw [floorCharBoundary]
  split
  · assumption
  cases h : ((charIndices 0 s.toList).takeWhile fun i => i ≤ maxBytes).getLast? with
  | none => exact Nat.zero_le _
  | some i =>
    exact of_decide_eq_true (all_eq_true.1 (all_takeWhile (p := fun i => decide (i ≤ maxBytes))) i
      (mem_of_getLast? h))

namespace ConversationState

theorem utf8ByteSize_boundMessage_le (m : ℕ) (content : String) :
    (boundMessage m content).utf8ByteSize ≤ min (max (m / 2) 1) m := by
  have hs : ∀ n, (truncateStr content n).utf8ByteSize ≤ n := fun n =>
    Nat.le_trans (utf8ByteSize_sliceTo_le _ _) (floorCharBoundary_le content n)
  simp only [boundMessage]
  split
  · assumption
  split
  · exact hs _
  · have := hs (min (max (m / 2) 1) m - truncationMarker.utf8ByteSize)
    have := floorCharBoundary_le content
      (min (max (m / 2) 1) m - truncationMarker.utf8ByteSize)
    rw [truncateWithSuffix]
    split
    · omega
    · rw [String.utf8ByteSize_append]
      exact Nat.add_le_of_le_sub (by omega) (hs _)

def total (messages : List ConversationMessage) : ℕ :=
  (messages.map (·.content.utf8ByteSize)).sum

/-- The non-empty messages added since the history was cleared. -/
def remember (withinBudget : ℕ → Json.Value → Bool) (m : ℕ) (recent : List ConversationMessage)
    (call : Call) : List ConversationMessage :=
  match message withinBudget m call with
  | some message => if message.content.utf8ByteSize = 0 then recent else recent ++ [message]
  | none => []

structure Window (m : ℕ) (recent : List ConversationMessage) (s : ConversationState) : Prop where
  limit : s.maxTokenSize = m
  size : s.currentSize = total s.messages
  le : s.currentSize ≤ m
  count : s.messages.length ≤ 1024
  nonempty : ∀ message ∈ s.messages, 0 < message.content.utf8ByteSize
  newest : s.messages <:+ recent
  atLeastTwo : 2 ≤ m → min 2 recent.length ≤ s.messages.length
  bounded : ∀ message ∈ recent, message.content.utf8ByteSize ≤ min (max (m / 2) 1) m

variable {withinBudget : ℕ → Json.Value → Bool} {m : ℕ} {recent : List ConversationMessage}
  {s : ConversationState}

theorem makeRoom_spec (size : ℕ) (l : List ConversationMessage) (hl : s.messages = l)
    (hc : s.currentSize = total l) :
    ∃ kept truncated,
      s.makeRoom size l = { s with messages := kept, currentSize := total kept, truncated } ∧
      kept <:+ l ∧ (kept = [] ∨ total kept + size ≤ s.maxTokenSize ∧ kept.length < 1024) ∧
      (l ≠ [] → (∀ x ∈ l, x.content.utf8ByteSize + size ≤ s.maxTokenSize) → kept ≠ []) := by
  induction l generalizing s with
  | nil =>
    refine ⟨[], s.truncated, ?_, suffix_rfl, .inl rfl, fun h => absurd rfl h⟩
    rw [makeRoom, ← hl, ← hc.trans (congrArg total hl.symm)]
  | cons removed l ih =>
    have ht : total (removed :: l) = removed.content.utf8ByteSize + total l := rfl
    rw [makeRoom]
    split
    case isTrue ho =>
      obtain ⟨kept, truncated, he, hs, hf, hn⟩ := ih (s := { s with
        messages := l, currentSize := s.currentSize - removed.content.utf8ByteSize,
        truncated := true }) rfl (by simp only; omega)
      refine ⟨kept, truncated, he, hs.trans (suffix_cons _ _), hf, fun _ hfit => ?_⟩
      -- the last message is never in the way of the new one
      refine hn ?_ fun x hx => hfit x (mem_cons_of_mem _ hx)
      rintro rfl
      have hle := hfit removed mem_cons_self
      simp only [hc, total, map_cons, map_nil, sum_cons, sum_nil, length_singleton,
        maxMessages] at ho
      omega
    case isFalse ho =>
      simp only [hc, maxMessages] at ho
      refine ⟨_, s.truncated, ?_, suffix_rfl, .inr (by omega), fun h _ => h⟩
      rw [← hl, ← hc.trans (congrArg total hl.symm)]

theorem Window.new (m : ℕ) : Window m [] (new m) :=
  ⟨rfl, rfl, Nat.zero_le _, Nat.zero_le _, nofun, suffix_rfl, fun _ => Nat.zero_le _, nofun⟩

theorem Window.addMessage (h : Window m recent s) {message : ConversationMessage}
    (hpos : message.content.utf8ByteSize ≠ 0)
    (hb : message.content.utf8ByteSize ≤ min (max (m / 2) 1) m) :
    Window m (recent ++ [message]) (s.addMessage message) := by
  obtain ⟨kept, truncated, he, hs, hf, hn⟩ :=
    makeRoom_spec message.content.utf8ByteSize s.messages rfl h.size
  rw [h.limit] at hf hn
  rw [ConversationState.addMessage, if_neg hpos, he]
  constructor
  case limit => exact h.limit
  case size => simp [total]
  case le =>
    obtain rfl | hf := hf
    · simp only [total, map_nil, sum_nil]
      omega
    · exact hf.1
  case count =>
    rw [length_append]
    obtain rfl | hf := hf
    · simp
    · exact hf.2
  case nonempty =>
    simp only [forall_mem_append, forall_mem_singleton]
    exact ⟨fun x hx => h.nonempty x (hs.subset hx), Nat.pos_of_ne_zero hpos⟩
  case newest => exact (suffix_append_inj_of_length_eq rfl).2 ⟨hs.trans h.newest, rfl⟩
  case atLeastTwo =>
    intro h2
    have htwo := h.atLeastTwo h2
    have hk : s.messages ≠ [] → kept ≠ [] := fun hne => hn hne fun x hx => by
      have := h.bounded x (h.newest.subset hx)
      omega
    simp only [← length_pos_iff] at hk
    simp only [length_append, length_singleton]
    omega
  case bounded =>
    simp only [forall_mem_append, forall_mem_singleton]
    exact ⟨h.bounded, hb⟩

theorem Window.step (h : Window m recent s) (call : Call) :
    Window m (remember withinBudget m recent call) (s.step withinBudget call) := by
  rw [ConversationState.step, remember, h.limit]
  cases hc : message withinBudget m call with
  | none => exact .new m
  | some message =>
    simp only
    split
    case isTrue h0 =>
      rw [ConversationState.addMessage, if_pos h0]
      exact h
    case isFalse h0 =>
      refine h.addMessage h0 ?_
      cases call <;> cases hc <;> exact utf8ByteSize_boundMessage_le m _

/-- After any calls the state holds the newest messages, within its bounds. -/
theorem window_run (withinBudget : ℕ → Json.Value → Bool) (m : ℕ) (calls : List Call) :
    Window m (run (remember withinBudget m) [] calls) (run (step withinBudget) (new m) calls) := by
  have hr : ∀ recent s, Window m recent s →
      Window m (run (remember withinBudget m) recent calls) (run (step withinBudget) s calls) := by
    induction calls with
    | nil => exact fun _ _ h => h
    | cons call calls ih => exact fun _ _ h => ih _ _ (h.step call)
  exact hr [] (new m) (.new m)

end ConversationState

end NetGet.Conversation
