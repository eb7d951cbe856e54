import NetGet.Model.Sanitize

/-! # Sanitized text stays as it is -/

namespace NetGet.Sanitize

open List

variable {s rest : List Char}

theorem skip_le (lo hi : ℕ) {j : ℕ} (hj : j ≤ rest.length) :
    j ≤ skip lo hi rest j ∧ skip lo hi rest j ≤ rest.length := by
  have hl := (takeWhile_sublist (l := rest.drop j) (inRange lo hi)).length_le
  rw [length_drop] at hl
  unfold skip
  omega

theorem lt_of_any {p : Char → Bool} {j : ℕ} (h : rest[j]?.any p = true) : j < rest.length := by
  by_contra hge
  rw [getElem?_eq_none (Nat.le_of_not_lt hge)] at h
  cases h

theorem csiLen_le {rest : List Char} {body : ℕ} (hb : body ≤ rest.length) :
    body ≤ csiLen rest body ∧ csiLen rest body ≤ rest.length := by
  obtain ⟨hp, hpl⟩ := skip_le 0x30 0x3f hb
  obtain ⟨hi, hil⟩ := skip_le 0x20 0x2f hpl
  rw [csiLen]
  split_ifs with hf
  · exact ⟨by omega, lt_of_any hf⟩
  · exact ⟨hp.trans hi, hil⟩

theorem controlStringLen_le (body : ℕ) (text : List Char) :
    ∀ j, body ≤ j → body ≤ controlStringLen body j text ∧
      controlStringLen body j text ≤ j + text.length := by
  induction text with
  | nil => exact fun j hj => ⟨le_rfl, hj⟩
  | cons c text ih =>
    intro j hj
    rw [controlStringLen, length_cons]
    split_ifs with hend hst hin
    · omega
    · cases text with
      | nil => cases hst.2
      | cons d text =>
        rw [length_cons]
        omega
    · have hr := ih (j + 1) (by omega)
      omega
    · omega

theorem sequenceLen_le {len : ℕ} (h : sequenceLen rest = some len) :
    0 < len ∧ len ≤ rest.length := by
  cases rest with
  | nil => cases h
  | cons c tail =>
    have hlen : (c :: tail).length = tail.length + 1 := rfl
    have hcs : 1 ≤ csiLen (c :: tail) 1 ∧ _ := csiLen_le (by omega)
    have hco := controlStringLen_le 1 tail 1 le_rfl
    simp only [sequenceLen] at h
    split_ifs at h with hesc
    · cases tail with
      | nil => cases h
      | cons d text =>
        have hlen' : (d :: text).length = text.length + 1 := rfl
        have hcs : 2 ≤ csiLen (c :: d :: text) 2 ∧ _ := csiLen_le (by omega)
        have hco := controlStringLen_le 2 text 2 le_rfl
        simp only at h
        split_ifs at h
        · cases h
          omega
        · cases h
          omega
        · rw [shortEscapeLen] at h
          have hs : 1 ≤ skip 0x20 0x2f (c :: d :: text) 1 ∧ _ := skip_le 0x20 0x2f (by omega)
          split at h
          · rename_i hf
            have hlt := lt_of_any hf
            cases h
            omega
          · cases h
    · cases h
      omega
    · cases h
      omega

theorem length_replaceLoop (r : Char) {fuel : ℕ} :
    ∀ {s : List Char}, s.length ≤ fuel → (replaceLoop (some r) fuel s).length = s.length := by
  induction fuel with
  | zero =>
    intro s hs
    rw [replaceLoop, length_eq_zero_iff.1 (Nat.le_zero.1 hs)]
  | succ fuel ih =>
    intro s hs
    cases s with
    | nil => rfl
    | cons c rest =>
      rw [length_cons] at hs
      rw [replaceLoop]
      split
      · rename_i len hl
        obtain ⟨hpos, hle⟩ := sequenceLen_le hl
        rw [length_cons] at hle
        rw [length_append, ih (by rw [length_drop, length_cons]; omega)]
        simp only [Option.elim, length_replicate, length_drop, length_cons]
        omega
      · rw [length_cons, length_cons, ih (by omega)]

theorem replaceLoop_sublist {fuel : ℕ} : ∀ s, replaceLoop none fuel s <+ s := by
  induction fuel with
  | zero => exact fun s => nil_sublist s
  | succ fuel ih =>
    intro s
    cases s with
    | nil => exact Sublist.refl []
    | cons c rest =>
      rw [replaceLoop]
      split
      · exact (ih _).trans (drop_sublist _ _)
      · exact (ih rest).cons_cons c

theorem replaceEscapeSequences_sublist (s : List Char) : replaceEscapeSequences s none <+ s := by
  rw [replaceEscapeSequences]
  split
  · exact replaceLoop_sublist s
  · exact Sublist.refl s

/-- What begins a sequence is a control character, and neither a line break nor a tab. -/
theorem replaceEscapeSequences_eq (r : Option Char)
    (h : ∀ c ∈ s, (c == '\n' || c == '\t' || !isControl c) = true) :
    replaceEscapeSequences s r = s := by
  rw [replaceEscapeSequences, if_neg]
  intro hany
  obtain ⟨c, hc, hi⟩ := any_eq_true.1 hany
  have hk := h c hc
  simp only [isSequenceIntroducer, contains_eq_mem, mem_cons, not_mem_nil, or_false,
    decide_eq_true_eq] at hi
  simp only [isControl, Bool.or_eq_true, beq_iff_eq, Bool.not_eq_true', Bool.or_eq_false_iff,
    Bool.and_eq_false_iff, decide_eq_false_iff_not] at hk
  rcases hk with (rfl | rfl) | hk
  · revert hi
    decide
  · revert hi
    decide
  · omega

theorem isControl_of_mem_lineField {c : Char} (h : c ∈ lineField s) : isControl c = false := by
  obtain ⟨d, -, rfl⟩ := mem_map.1 h
  split_ifs with hd
  · rfl
  · exact (Bool.not_eq_true _).mp hd

theorem isControl_of_mem_stripControls {c : Char} (h : c ∈ stripControls s) :
    isControl c = false := by
  simpa using (mem_filter.1 h).2

section Identity

variable (h : ∀ c ∈ s, isControl c = false)

include h

theorem lineField_eq : lineField s = s := by
  rw [lineField, replaceEscapeSequences_eq _ (by simp +contextual [h])]
  exact (map_congr_left fun c hc => by rw [h c hc]; rfl).trans (map_id s)

theorem stripControls_eq : stripControls s = s := by
  rw [stripControls, replaceEscapeSequences_eq _ (by simp +contextual [h])]
  exact filter_eq_self.2 (by simpa using h)

end Identity

theorem multiline_multiline (s : List Char) : multiline (multiline s) = multiline s := by
  have hk : ∀ c ∈ multiline s, (c == '\n' || c == '\t' || !isControl c) = true :=
    fun c hc => (mem_filter.1 hc).2
  rw [multiline, replaceEscapeSequences_eq none hk]
  exact filter_eq_self.2 hk

theorem token_token (raw : List Char) (n : ℕ) : token (token raw n) n = token raw n := by
  have hp : token raw n <+: (stripControls raw).dropWhile isWhitespace :=
    ( rdropWhile_prefix _ _).trans ( take_prefix _ _)
  have hc : ∀ c ∈ token raw n, isControl c = false := fun c hc =>
    isControl_of_mem_stripControls ((dropWhile_sublist _).subset (hp.subset hc))
  have hd : (token raw n).dropWhile isWhitespace = token raw n := by
    obtain ⟨back, hb⟩ := hp
    cases ht : token raw n with
    | nil => rfl
    | cons c cs =>
      rw [ht, cons_append] at hb
      have hw : isWhitespace c = false := by
        have hn := head?_dropWhile_not isWhitespace (stripControls raw)
        rwa [← hb] at hn
      rw [dropWhile_cons_of_neg (by simp [hw])]
  have hl : (token raw n).length ≤ n :=
    ( rdropWhile_prefix _ _).length_le.trans (length_take_le _ _)
  rw [token, stripControls_eq hc, hd, take_of_length_le hl]
  exact rdropWhile_idempotent _ _

/-- `line_field` keeps the number of characters, it and `strip_controls` leave no control
character and text without them alone, and no function changes its own output. -/
theorem sanitized (s : List Char) :
    (lineField s).length = s.length ∧ (∀ c ∈ lineField s, isControl c = false) ∧
    (∀ c ∈ stripControls s, isControl c = false) ∧ stripControls s <+ s ∧
    ((∀ c ∈ s, isControl c = false) → lineField s = s ∧ stripControls s = s) ∧
    lineField (lineField s) = lineField s ∧ stripControls (stripControls s) = stripControls s ∧
    multiline (multiline s) = multiline s ∧ ∀ n, token (token s n) n = token s n := by
  have hlf := fun c (hc : c ∈ lineField s) => isControl_of_mem_lineField hc
  have hst := fun c (hc : c ∈ stripControls s) => isControl_of_mem_stripControls hc
  refine ⟨?_, hlf, hst, filter_sublist.trans (replaceEscapeSequences_sublist s),
    fun h => ⟨lineField_eq h, stripControls_eq h⟩, lineField_eq hlf, stripControls_eq hst,
    multiline_multiline s, token_token s⟩
  rw [lineField, length_map, replaceEscapeSequences]
  split
  · exact length_replaceLoop ' ' le_rfl
  · rfl

end NetGet.Sanitize
