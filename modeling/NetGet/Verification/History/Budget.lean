import Mathlib.Algebra.Ring.Nat
import NetGet.Library.Machine
import NetGet.Verification.History.Noninterference

/-! # The size of the history block -/

namespace NetGet.History

open Library Machine List

inductive Call where
  | record (exchange : Exchange)
  | trim (limit : ℕ)

namespace ExchangeHistory

variable (compact : Json.Value → String) (valueSize : ℕ) {h : ExchangeHistory}

def step (h : ExchangeHistory) : Call → ExchangeHistory
  | .record e => h.record compact valueSize e.eventType e.request e.response e.limit
  | .trim limit => h.trim limit

/-- The entries are the last of all that were recorded, with their numbers. -/
def Numbered (h : ExchangeHistory) : Prop := h.entries.map (·.seq) <:+ range' 1 h.recorded

theorem Numbered.trim (hn : h.Numbered) (limit : ℕ) : (h.trim limit).Numbered :=
  IsSuffix.trans ((drop_suffix _ _).map _) hn

theorem Numbered.step (hn : h.Numbered) (call : Call) :
    (h.step compact valueSize call).Numbered := by
  cases call with
  | trim limit => exact hn.trim limit
  | record e =>
    rw [ExchangeHistory.step, record]
    split
    · exact hn
    split
    · exact hn
    · rename_i recorded hr
      obtain ⟨rfl, -⟩ := checkedAdd_eq_some.1 hr
      refine Numbered.trim ?_ e.limit
      rw [Numbered, range'_1_concat, Nat.add_comm 1, map_append]
      exact suffix_concat_iff.2 (.inr ⟨_, rfl, hn⟩)

def cost (entries : List HistoryEntry) : ℕ :=
  (entries.map fun e => e.text.utf8ByteSize + 8).sum

def Within (entries : List HistoryEntry) : Prop :=
  entries.length = 1 ∨ cost entries ≤ historyPromptBudgetChars

theorem choose_spec {chosen : List HistoryEntry} (hc : chosen ≠ []) (used : ℕ)
    (rest : List HistoryEntry) : ∃ n ≤ rest.length,
      choose used chosen rest = (rest.take n).reverse ++ chosen ∧
      (n = 0 ∨ used + cost (rest.take n) ≤ historyPromptBudgetChars) ∧
      (used + cost rest ≤ historyPromptBudgetChars → n = rest.length) := by
  induction rest generalizing used chosen with
  | nil => exact ⟨0, Nat.le_refl _, rfl, .inl rfl, fun _ => rfl⟩
  | cons e rest ih =>
    have hcost : ∀ l, used + cost (e :: l) = used + (e.text.utf8ByteSize + 8) + cost l :=
      fun l => (Nat.add_assoc ..).symm
    rw [choose]
    by_cases hov : used + (e.text.utf8ByteSize + 8) > historyPromptBudgetChars
    · rw [if_pos ⟨hov, hc⟩]
      refine ⟨0, Nat.zero_le _, rfl, .inl rfl, fun hle => ?_⟩
      rw [hcost] at hle
      omega
    rw [if_neg (fun h => hov h.1)]
    obtain ⟨n, hn, he, hf, hall⟩ := ih (cons_ne_nil e chosen) (used + (e.text.utf8ByteSize + 8))
    refine ⟨n + 1, Nat.succ_le_succ hn, by simp [he], .inr ?_, fun hle => ?_⟩
    · rw [take_succ_cons, hcost]
      obtain rfl | hf := hf
      · exact Nat.le_of_not_lt hov
      · exact hf
    · exact congrArg _ (hall (hcost rest ▸ hle))

theorem choose_eq {recent : List HistoryEntry} (hr : recent ≠ []) :
    ∃ n, 0 < n ∧ n ≤ recent.length ∧ Within (recent.take n) ∧
      choose 0 [] recent = (recent.take n).reverse ∧ (Within recent → n = recent.length) := by
  obtain ⟨e, rest, rfl⟩ := exists_cons_of_ne_nil hr
  obtain ⟨n, hn, he, hf, hall⟩ := choose_spec (cons_ne_nil e []) (e.text.utf8ByteSize + 8) rest
  refine ⟨n + 1, n.succ_pos, Nat.succ_le_succ hn, hf.imp (fun h => by simp [h]) id, ?_, ?_⟩
  · rw [choose, if_neg (fun h => h.2 rfl), Nat.zero_add, he]
    simp
  · rintro (hone | hle)
    · rw [length_cons] at hone ⊢
      omega
    · exact congrArg _ (hall hle)

def header (shown omitted : ℕ) : String :=
  "Earlier on this connection, oldest first" ++
    (if omitted > 0 then
      " (" ++ toString shown ++ " shown; " ++ toString omitted ++
        " earlier not shown — keep anything that must outlive this in memory)"
    else "") ++
    ". Each was already answered; it is here for context. Answer only the event below.\n"

def line (e : HistoryEntry) : String := "#" ++ toString e.seq ++ " " ++ e.text ++ "\n"

def width (n : ℕ) : ℕ := (toString n).utf8ByteSize

/-- The bytes of a block that lists these entries, after so many that are not shown. -/
def size (omitted : ℕ) (listed : List HistoryEntry) : ℕ :=
  (if omitted > 0 then 202 + width listed.length + width omitted else 122) +
    (listed.map fun e => e.text.utf8ByteSize + width e.seq + 3).sum

theorem utf8ByteSize_header (shown omitted : ℕ) : (header shown omitted).utf8ByteSize =
    if omitted > 0 then 202 + width shown + width omitted else 122 := by
  unfold header
  split
  · simp only [String.utf8ByteSize_append]
    change 40 + (2 + width _ + 8 + width _ + 70) + 82 = _
    omega
  · rfl

theorem utf8ByteSize_lines (listed : List HistoryEntry) :
    (String.join (listed.map line)).utf8ByteSize =
      (listed.map fun e => e.text.utf8ByteSize + width e.seq + 3).sum := by
  induction listed with
  | nil => rfl
  | cons e listed ih =>
    rw [map_cons, String.join_cons, String.utf8ByteSize_append, ih, map_cons, sum_cons]
    simp only [line, String.utf8ByteSize_append]
    change 1 + width e.seq + 1 + _ + 1 + _ = _
    omega

def newest (h : ExchangeHistory) (n : ℕ) : List HistoryEntry := (h.entries.reverse.take n).reverse

theorem within_newest {n : ℕ} : Within (h.newest n) ↔ Within (h.entries.reverse.take n) := by
  rw [Within, Within, cost, cost, newest, length_reverse, map_reverse, sum_reverse]

theorem length_newest {n : ℕ} (hn : n ≤ h.entries.length) : (h.newest n).length = n := by
  rw [newest, length_reverse, length_take, length_reverse, Nat.min_eq_left hn]

theorem newest_suffix (h : ExchangeHistory) (n : ℕ) : h.newest n <:+ h.entries := by
  rw [newest, reverse_take, reverse_reverse]
  exact drop_suffix _ _

theorem render_spec {limit : ℕ} (hl : limit ≠ 0) (he : h.entries ≠ []) :
    ∃ n, 0 < n ∧ n ≤ h.entries.length ∧ Within (h.newest n) ∧
      (Within (h.newest limit) → n = min limit h.entries.length) ∧
      h.render limit = some (header n (h.recorded - n) ++ String.join ((h.newest n).map line)) := by
  have hr : h.entries.reverse.take limit ≠ [] := by simp [hl, he]
  obtain ⟨n, hpos, hn, hw, hc, hall⟩ := choose_eq hr
  rw [length_take, length_reverse] at hn hall
  rw [take_take, Nat.min_eq_left (Nat.le_trans hn (Nat.min_le_left ..))] at hw hc
  have hle := Nat.le_trans hn (Nat.min_le_right ..)
  refine ⟨n, hpos, hle, within_newest.2 hw, fun h => hall (within_newest.1 h), ?_⟩
  rw [render, if_neg (by simp [hl, he]), hc]
  exact congrArg (fun k => some (header k (h.recorded - k) ++ _)) (length_newest hle)

/-- What is listed: the newest entries in the order they were recorded, at least one, with
their numbers; the others are counted; and the block fits its budget. -/
structure Shows (h : ExchangeHistory) (out : String) (listed : List HistoryEntry) (omitted : ℕ) :
    Prop where
  text : out = header listed.length omitted ++ String.join (listed.map line)
  nonempty : listed ≠ []
  newest : listed <:+ h.entries
  numbered : listed.map (·.seq) = range' (omitted + 1) listed.length
  counted : omitted + listed.length = h.recorded
  bounded : out.utf8ByteSize ≤ historyPromptBudgetChars

def RespectsBudget (h : ExchangeHistory) : Prop :=
  ∀ limit out, h.render limit = some out → ∃ listed omitted, h.Shows out listed omitted

/-- The newest entries that are within the costs fit the budget with the header and their
numbers as well. -/
def HeaderFits (h : ExchangeHistory) : Prop :=
  ∀ n, 0 < n → n ≤ h.entries.length → Within (h.newest n) →
    size (h.recorded - n) (h.newest n) ≤ historyPromptBudgetChars

theorem respectsBudget_iff (hn : h.Numbered) : h.RespectsBudget ↔ h.HeaderFits := by
  have hsize : ∀ n ≤ h.entries.length, (header n (h.recorded - n) ++
      String.join ((h.newest n).map line)).utf8ByteSize = size (h.recorded - n) (h.newest n) := by
    intro n hle
    rw [String.utf8ByteSize_append, utf8ByteSize_header, utf8ByteSize_lines, size,
      length_newest hle]
  constructor
  · intro hb n hpos hle hw
    obtain ⟨k, -, hk, -, hall, hr⟩ := render_spec (Nat.ne_of_gt hpos)
      (ne_nil_of_length_pos (Nat.lt_of_lt_of_le hpos hle))
    obtain rfl : k = n := (hall hw).trans (Nat.min_eq_left hle)
    obtain ⟨_, _, hs⟩ := hb _ _ hr
    exact hsize k hk ▸ hs.bounded
  · intro hf limit out hout
    by_cases hne : limit = 0 ∨ h.entries.isEmpty
    · rw [render, if_pos hne] at hout
      cases hout
    rw [not_or, List.isEmpty_iff] at hne
    obtain ⟨n, hpos, hle, hw, -, hr⟩ := render_spec hne.1 hne.2
    obtain rfl := Option.some.inj (hr.symm.trans hout)
    have hl := length_newest hle
    have hnum := ((newest_suffix h n).map HistoryEntry.seq).trans hn
    have hrec := hnum.length_le
    rw [length_map, hl, length_range'] at hrec
    refine ⟨h.newest n, h.recorded - n, by rw [hl], ?_, newest_suffix h n, ?_, ?_, ?_⟩
    · exact ne_nil_of_length_pos (by rwa [hl])
    · have hd := suffix_iff_eq_drop.1 hnum
      rw [length_map, hl, length_range', drop_range', Nat.mul_one, Nat.sub_sub_self hrec,
        Nat.add_comm 1] at hd
      rw [hd, hl]
    · rw [hl, Nat.sub_add_cancel hrec]
    · rw [hsize n hle]
      exact hf n hpos hle hw

/-- After any calls, the block respects its budget exactly when the recorded entries leave room for
its header and their numbers, which the selection does not count. -/
theorem render_respects_budget_iff (calls : List Call) :
    (run (step compact valueSize) .new calls).RespectsBudget ↔
      (run (step compact valueSize) .new calls).HeaderFits := by
  have hnew : ExchangeHistory.new.Numbered := nil_suffix
  exact respectsBudget_iff (run_invariant hnew (fun _ call hn => hn.step _ _ call) calls)

def sevenEvents : List Call := replicate 7 (.record
  { eventType := "data"
    request := .string (String.ofList (replicate 544 'a'))
    response := []
    limit := 7 })

/-- The costs of the seven entries add up to 4095, and the block has 4189 bytes. -/
theorem not_respectsBudget_sevenEvents :
    ¬ (run (step plainText 32) .new sevenEvents).RespectsBudget := by
  intro h
  obtain ⟨_, _, hs⟩ := h 7 _ rfl
  exact absurd hs.bounded (by decide +kernel)

end ExchangeHistory

end NetGet.History
