import NetGet.Verification.Bson.Grammar

/-! # One value of a BSON document

The scan works with indices and the grammar with bytes; `segment` ties the two. -/

namespace NetGet.Bson

open Library List Option

def segment (data : Bytes) (start stop : ℕ) : Bytes := (data.take stop).drop start

section Segment

variable {data : Bytes} {start stop : ℕ}

theorem length_segment (hs : stop ≤ data.length) :
    (segment data start stop).length = stop - start := by
  rw [segment, length_drop, length_take, Nat.min_eq_left hs]

theorem segment_self : segment data stop stop = [] := by
  rw [segment, drop_eq_nil_iff, length_take]
  exact Nat.min_le_left _ _

theorem segment_cons (hi : start < data.length) (hlt : start < stop) :
    segment data start stop = data[start] :: segment data (start + 1) stop := by
  have hi' : start < (data.take stop).length := by
    rw [length_take]
    omega
  rw [segment, drop_eq_getElem_cons hi', getElem_take, segment]

theorem drop_segment (n : ℕ) :
    (segment data start stop).drop n = segment data (start + n) stop := by
  rw [segment, drop_drop, segment]

theorem take_segment {n : ℕ} (h : start + n ≤ stop) :
    (segment data start stop).take n = segment data start (start + n) := by
  rw [segment, segment, take_drop, take_take, Nat.min_eq_left h]

theorem slice_eq_segment (hle : start ≤ stop) (hs : stop ≤ data.length) :
    slice data start stop = some (segment data start stop) := by
  rw [slice, if_pos ⟨hle, hs⟩, segment, drop_take]

end Segment

section Parts

variable {data : Bytes} {start limit : ℕ}

section

variable (hle : start ≤ limit) (hl : limit ≤ data.length) (hlen : data.length < 2 ^ 63)

include hle hl hlen

theorem readI32_eq :
    (readI32 data start limit).bind toUsize = splitLength (segment data start limit) := by
  rw [readI32, checkedAdd_of_lt (by omega), bind_some, splitLength, length_segment hl]
  by_cases hf : start + 4 ≤ limit
  · rw [slice_eq_segment (by omega) (by omega), if_pos (by omega), take_segment hf]
    simp only [if_neg (Nat.not_lt.2 hf), bind_some]
  rw [if_neg (by omega)]
  cases slice data start (start + 4) with
  | none => rfl
  | some bytes => simp only [if_pos (Nat.lt_of_not_le hf), bind_none]

theorem documentEnd_cases : (documentEnd data start limit = some none ∧
      splitDocument (segment data start limit) = none) ∨
    ∃ stop, documentEnd data start limit = some (some stop) ∧ start + 5 ≤ stop ∧ stop ≤ limit ∧
      splitDocument (segment data start limit) =
        some (segment data (start + 4) (stop - 1), segment data stop limit) := by
  rw [documentEnd, readI32_eq hle hl hlen, splitDocument, length_segment hl]
  cases splitLength (segment data start limit) with
  | none => exact .inl ⟨rfl, rfl⟩
  | some len =>
    simp only
    by_cases hs : len < 5
    · rw [if_pos hs, if_neg (by omega)]
      exact .inl ⟨rfl, rfl⟩
    rw [if_neg hs]
    by_cases hf : start + len ≤ limit
    · have hla : start + len - 1 < data.length := by omega
      have hget : (segment data start limit)[len - 1]? = some data[start + len - 1] := by
        rw [segment, getElem?_drop, getElem?_take_of_lt (by omega), ← Nat.add_sub_assoc (by omega),
          getElem?_eq_getElem hla]
      rw [checkedAdd_of_lt (by omega)]
      simp only [if_neg (Nat.not_lt.2 hf), getElem?_eq_getElem hla, hget]
      by_cases hz : data[start + len - 1] = 0
      · refine .inr ⟨start + len, by simp [hz], by omega, hf, ?_⟩
        rw [if_pos ⟨by omega, by omega, by rw [hz]⟩, take_segment (by omega), drop_segment,
          drop_segment, Nat.add_sub_assoc (by omega)]
      · refine .inl ⟨by simp [hz], if_neg ?_⟩
        rintro ⟨-, -, hla⟩
        exact hz (some.inj hla)
    · refine .inl ⟨?_, if_neg (by omega)⟩
      rcases checkedAdd_cases 64 start len with hsum | hsum
      · rw [hsum]
      · rw [hsum]
        exact if_pos (Nat.lt_of_not_le hf)

theorem stringSize_cases :
    (stringSize data start limit = none ∧ splitString (segment data start limit) = none) ∨
    ∃ size, stringSize data start limit = some size ∧ start + size ≤ limit ∧
      splitString (segment data start limit) = some (segment data (start + size) limit) := by
  rw [stringSize, readI32_eq hle hl hlen, splitString, length_segment hl]
  cases splitLength (segment data start limit) with
  | none => exact .inl ⟨rfl, rfl⟩
  | some len =>
    simp only
    by_cases hs : len < 1
    · rw [if_pos hs, if_neg (by omega)]
      exact .inl ⟨rfl, rfl⟩
    rw [if_neg hs]
    by_cases hf : start + (len + 4) ≤ limit
    · rw [checkedAdd_of_lt (by omega)]
      simp only
      rw [checkedAdd_of_lt (by omega)]
      refine .inr ⟨len + 4, if_neg (Nat.not_lt.2 hf), hf, ?_⟩
      rw [if_pos ⟨by omega, by omega⟩, drop_segment]
    refine .inl ⟨?_, if_neg (by omega)⟩
    rcases checkedAdd_cases 64 len 4 with hsi | hsi
    · rw [hsi]
    rw [hsi]
    rcases checkedAdd_cases 64 start (len + 4) with hsum | hsum
    · simp only [hsum]
    · simp only [hsum]
      exact if_pos (Nat.lt_of_not_le hf)

end

theorem splitFixed_segment (size : ℕ) (hl : limit ≤ data.length) (hle : start ≤ limit) :
    splitFixed size (segment data start limit) =
      if start + size ≤ limit then some (segment data (start + size) limit) else none := by
  rw [splitFixed, length_segment hl, drop_segment]
  by_cases hf : start + size ≤ limit
  · rw [if_pos hf, if_pos (by omega)]
  · rw [if_neg hf, if_neg (by omega)]

theorem splitBinary_eq (data : Bytes) :
    splitBinary data = (splitLength data).bind fun len => splitFixed (len + 5) data := by
  unfold splitBinary splitFixed
  cases splitLength data <;> rfl

theorem splitCString_eq (data : Bytes) :
    splitCString data = (nulPosition data).map fun nul => data.drop (nul + 1) := by
  induction data with
  | nil => rfl
  | cons byte data ih =>
    rw [splitCString, nulPosition]
    split
    · rfl
    · rw [ih]
      cases nulPosition data <;> rfl

theorem nulPosition_lt {nul : ℕ} (h : nulPosition data = some nul) : nul < data.length := by
  induction data generalizing nul with
  | nil => simp [nulPosition] at h
  | cons byte data ih =>
    rw [nulPosition] at h
    split at h
    · cases h
      simp
    obtain ⟨nul', hnul, rfl⟩ := map_eq_some_iff.1 h
    have hlt := ih hnul
    simp only [length_cons]
    omega

theorem nulPosition_cases (start : ℕ) (hl : limit ≤ data.length) :
    (nulPosition (segment data start limit) = none ∧
      splitCString (segment data start limit) = none) ∨
    ∃ nul, nulPosition (segment data start limit) = some nul ∧ start + nul + 1 ≤ limit ∧
      splitCString (segment data start limit) = some (segment data (start + nul + 1) limit) := by
  rw [splitCString_eq]
  cases hnul : nulPosition (segment data start limit) with
  | none => exact .inl ⟨rfl, rfl⟩
  | some nul =>
    have hlt := nulPosition_lt hnul
    rw [length_segment hl] at hlt
    refine .inr ⟨nul, rfl, by omega, ?_⟩
    rw [map_some, drop_segment, Nat.add_assoc]

end Parts

/-- What a turn does with a value, by what the grammar says of it. -/
inductive ValueStep (data : Bytes) (maxDepth limit : ℕ) (s : ScanState) :
    Option (Option Bytes × Bytes) → Pass → Prop
  | malformed : ValueStep data maxDepth limit s none (.stop .malformed)
  | skipped (pos : ℕ) (hmoves : s.pos ≤ pos) (hpos : pos ≤ limit) :
      ValueStep data maxDepth limit s (some (none, segment data pos limit))
        (.next { s with pos })
  | tooDeep (body rest : Bytes) (hdepth : maxDepth ≤ s.depth) :
      ValueStep data maxDepth limit s (some (some body, rest)) (.stop (.tooDeep maxDepth))
  | opened (start stop : ℕ) (hmoves : s.pos ≤ start) (hstart : start + 5 ≤ stop)
      (hstop : stop ≤ limit) (hdepth : s.depth < maxDepth) :
      ValueStep data maxDepth limit s
        (some (some (segment data (start + 4) (stop - 1)), segment data stop limit))
        (.next { ends := s.ends.set s.depth stop, depth := s.depth + 1, pos := start + 4 })

section Values

variable {data : Bytes} {maxDepth limit : ℕ} {s : ScanState}

theorem openDocument_step {start stop : ℕ} (he : maxDepth ≤ s.ends.length)
    (hm : s.pos ≤ start) (hs : start + 5 ≤ stop) (hst : stop ≤ limit) :
    ∃ pass, openDocument maxDepth s start stop = some pass ∧ ValueStep data maxDepth limit s
        (some (some (segment data (start + 4) (stop - 1)), segment data stop limit)) pass := by
  rw [openDocument]
  by_cases hd : s.depth ≥ maxDepth
  · rw [if_pos hd]
    exact ⟨_, rfl, .tooDeep _ _ hd⟩
  · rw [if_neg hd, if_pos (by omega)]
    exact ⟨_, rfl, .opened start stop hm hs hst (Nat.lt_of_not_le hd)⟩

variable (hpos : s.pos ≤ limit) (hl : limit ≤ data.length) (hlen : data.length < 2 ^ 63)

include hpos hl hlen

theorem skip_step (size : ℕ) : ValueStep data maxDepth limit s
      ((splitFixed size (segment data s.pos limit)).map fun rest => (none, rest))
      (skip limit s size) := by
  rw [splitFixed_segment size hl hpos, skip]
  by_cases hf : s.pos + size ≤ limit
  · rw [checkedAdd_of_lt (by omega), if_pos hf]
    simp only [if_pos hf]
    exact .skipped _ (by omega) hf
  rw [if_neg hf]
  rcases checkedAdd_cases 64 s.pos size with hsum | hsum
  · rw [hsum]
    exact .malformed
  · rw [hsum]
    simp only [if_neg hf]
    exact .malformed

theorem skipString_step (extra : ℕ) : ValueStep data maxDepth limit s
      (((splitString (segment data s.pos limit)).bind (splitFixed extra)).map
        fun rest => (none, rest)) (skipString data limit s extra) := by
  rw [skipString]
  rcases stringSize_cases hpos hl hlen with ⟨hsi, hs⟩ | ⟨size, hsi, hf, hs⟩
  · rw [hsi, hs]
    exact .malformed
  have hsa : splitFixed (size + extra) (segment data s.pos limit) =
      splitFixed extra (segment data (s.pos + size) limit) := by
    rw [splitFixed_segment _ hl hpos, splitFixed_segment _ hl hf, Nat.add_assoc]
  rw [hsi, hs, bind_some, ← hsa]
  exact skip_step hpos hl hlen (size + extra)

theorem skipRegex_step : ∃ pass, skipRegex data limit s = some pass ∧
      ValueStep data maxDepth limit s
        (((splitCString (segment data s.pos limit)).bind splitCString).map fun rest => (none, rest))
        pass := by
  rw [skipRegex, slice_eq_segment hpos hl]
  simp only
  rcases nulPosition_cases s.pos hl with ⟨hnul, hs⟩ | ⟨p, hnul, hp, hs⟩
  · rw [hnul, hs]
    exact ⟨_, rfl, .malformed⟩
  rw [hnul, hs, bind_some]
  simp only [slice_eq_segment hp hl]
  rcases nulPosition_cases (s.pos + p + 1) hl with
    ⟨hnul', hs'⟩ | ⟨o, hnul', ho, hs'⟩
  · rw [hnul', hs']
    exact ⟨_, rfl, .malformed⟩
  rw [hnul', hs']
  have hsa : splitFixed (p + 1 + o + 1) (segment data s.pos limit) =
      some (segment data (s.pos + p + 1 + o + 1) limit) := by
    rw [splitFixed_segment _ hl hpos, if_pos (by omega)]
    simp only [Nat.add_assoc]
  rw [← hsa]
  exact ⟨_, rfl, skip_step hpos hl hlen (p + 1 + o + 1)⟩

theorem elementEnd_cases : (elementEnd data limit s.pos = none ∧
      splitCodeWithScope (segment data s.pos limit) = none) ∨
    ∃ stop, elementEnd data limit s.pos = some stop ∧ s.pos + 14 ≤ stop ∧ stop ≤ limit ∧
      splitCodeWithScope (segment data s.pos limit) = scopeAlone (segment data stop limit)
          ((splitString (segment data (s.pos + 4) stop)).bind splitDocument) := by
  rw [elementEnd, readI32_eq hpos hl hlen, splitCodeWithScope, length_segment hl]
  cases splitLength (segment data s.pos limit) with
  | none => exact .inl ⟨rfl, rfl⟩
  | some total =>
    simp only
    by_cases hs : total < 14
    · rw [if_pos hs, if_neg (by omega)]
      exact .inl ⟨rfl, rfl⟩
    rw [if_neg hs]
    by_cases hf : s.pos + total ≤ limit
    · rw [checkedAdd_of_lt (by omega)]
      refine .inr ⟨s.pos + total, if_pos hf, by omega, hf, ?_⟩
      rw [if_pos ⟨by omega, by omega⟩, take_segment hf, drop_segment, drop_segment]
    refine .inl ⟨?_, if_neg (by omega)⟩
    rcases checkedAdd_cases 64 s.pos total with hsum | hsum
    · rw [hsum]
    · rw [hsum]
      exact if_neg hf

theorem scanCodeWithScope_step (hen : maxDepth ≤ s.ends.length) :
    ∃ pass, scanCodeWithScope data maxDepth limit s = some pass ∧ ValueStep data maxDepth limit s
        ((splitCodeWithScope (segment data s.pos limit)).map fun found => (some found.1, found.2))
        pass := by
  rw [scanCodeWithScope]
  rcases elementEnd_cases hpos hl hlen with ⟨hend, hs⟩ | ⟨stop, hend, hle, hstop, hs⟩
  · rw [hend, hs]
    exact ⟨_, rfl, .malformed⟩
  rw [hend, hs]
  simp only
  have hs' : stop ≤ data.length := hstop.trans hl
  have hst : s.pos + 4 ≤ stop := by omega
  rcases stringSize_cases hst hs' hlen with
    ⟨hsi, hc⟩ | ⟨code, hsi, hsc, hc⟩
  · rw [hsi, hc]
    exact ⟨_, rfl, .malformed⟩
  rw [hsi, hc, bind_some]
  simp only
  rcases documentEnd_cases hsc hs' hlen with
    ⟨hend', hd⟩ | ⟨scopeEnd, hend', hle', hse, hd⟩
  · rw [hend', hd]
    exact ⟨_, rfl, .malformed⟩
  rw [hend', hd]
  by_cases he : scopeEnd = stop
  · subst he
    rw [segment_self]
    simp only [if_true]
    exact openDocument_step hen (by omega) hle' hstop
  have hr : segment data scopeEnd stop ≠ [] := by
    intro hnil
    have hz := congrArg length hnil
    rw [length_segment hs', length_nil] at hz
    omega
  simp only [some.injEq, he, if_false]
  refine ⟨_, rfl, ?_⟩
  cases hca : segment data scopeEnd stop with
  | nil => exact absurd hca hr
  | cons byte rest => exact .malformed

theorem scanValue_step (kind : UInt8) (he : maxDepth ≤ s.ends.length) :
    ∃ pass, scanValue data maxDepth limit kind s = some pass ∧
      ValueStep data maxDepth limit s (splitValue kind (segment data s.pos limit)) pass := by
  rw [scanValue, splitValue]
  cases elementKind kind with
  | none => exact ⟨_, rfl, .malformed⟩
  | some element =>
    cases element with
    | fixed size => exact ⟨_, rfl, skip_step hpos hl hlen size⟩
    | string =>
      have hz : splitFixed 0 = some := by
        funext rest
        simp [splitFixed]
      have hsa : (splitString (segment data s.pos limit)).bind (splitFixed 0) =
          splitString (segment data s.pos limit) := by
        rw [hz, bind_fun_some]
      have hs : ValueStep data maxDepth limit s _ (skipString data limit s 0) :=
        skipString_step hpos hl hlen 0
      rw [hsa] at hs
      exact ⟨_, rfl, hs⟩
    | dbPointer => exact ⟨_, rfl, skipString_step hpos hl hlen 12⟩
    | binary =>
      refine ⟨_, rfl, ?_⟩
      rw [skipBinary, readI32_eq hpos hl hlen, splitBinary_eq]
      cases splitLength (segment data s.pos limit) with
      | none => exact .malformed
      | some len =>
        rw [bind_some, bind_some]
        rcases checkedAdd_cases 64 len 5 with hsum | hsum
        · have hlo : ¬ s.pos + (len + 5) ≤ limit := by
            intro hf
            rw [checkedAdd_of_lt (by omega)] at hsum
            cases hsum
          rw [hsum, splitFixed_segment _ hl hpos, if_neg hlo]
          exact .malformed
        · rw [hsum]
          exact skip_step hpos hl hlen (len + 5)
    | regex => exact skipRegex_step hpos hl hlen
    | document =>
      simp only [scanDocument]
      rcases documentEnd_cases hpos hl hlen with ⟨hend, hs⟩ | ⟨stop, hend, hle, hst, hs⟩
      · rw [hend, hs]
        exact ⟨_, rfl, .malformed⟩
      · rw [hend, hs]
        exact openDocument_step he le_rfl hle hst
    | codeWithScope => exact scanCodeWithScope_step hpos hl hlen he

end Values

end NetGet.Bson
