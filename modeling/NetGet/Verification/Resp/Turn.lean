import NetGet.Verification.Resp.Grammar

/-! # One turn of the scan, by the header it reads -/

namespace NetGet.Resp

open Library List Option

variable {data : Bytes}

theorem splitLine_eq_crlfPosition (data : Bytes) : splitLine data =
      (crlfPosition data).map fun stop => (data.take stop, data.drop (stop + 2)) := by
  induction data with
  | nil => rfl
  | cons first data ih =>
    cases data with
    | nil => rfl
    | cons second data =>
      rw [splitLine, crlfPosition]
      split
      · simp
      · rw [ih]
        cases crlfPosition (second :: data) <;> simp

theorem crlfPosition_bound {stop : ℕ} (h : crlfPosition data = some stop) :
    stop + 2 ≤ data.length := by
  have hs := splitLine_eq_crlfPosition data
  rw [h, map_some] at hs
  have hl := congrArg length (splitLine_spec hs).1
  simp only [length_append, length_cons, length_take, length_drop] at hl
  omega

theorem lineAt_eq {i : ℕ} (hi : i ≤ data.length) :
    lineAt data i = some ((splitLine (data.drop i)).map fun found =>
      (found.1, data.length - found.2.length)) := by
  rw [lineAt, findCrlf, if_pos hi, splitLine_eq_crlfPosition]
  cases hst : crlfPosition (data.drop i) with
  | none => rfl
  | some stop =>
    have hle := crlfPosition_bound hst
    simp only [length_drop] at hle
    have hd : ((data.drop i).drop (stop + 2)).length = data.length - i - (stop + 2) := by
      simp only [length_drop]
    have hs : slice data i (i + stop) = some ((data.drop i).take stop) := by
      rw [slice, if_pos (by omega), Nat.add_sub_cancel_left]
    have hn : i + stop + 2 = data.length - (data.length - i - (stop + 2)) := by omega
    simp only [map_some, hs, hd, hn]

/-- What the turn does once it has read its header; `total` is the length of the data. -/
def headerPass (limits : RespLimits) (total : ℕ) (s : ScanState) : Header → Option Pass
  | .short => some (.stop .incomplete)
  | .bad => some (.stop .malformed)
  | .leaf rest => some (.finished { s with i := total - rest.length })
  | .bulk len rest =>
    if len > limits.maxBulkLen then some (.stop (.tooLong .bulk))
    else if total - rest.length + len + 2 < 2 ^ 64 then
      if len + 2 ≤ rest.length then
        some (.finished { s with i := total - rest.length + len + 2 })
      else some (.stop .incomplete)
    else some (.stop (.tooLong .bulk))
  | .array count rest =>
    if count > limits.maxElements - s.values then some (.stop (.tooLong .aggregate))
    else if s.depth + 1 > limits.depth then some (.stop (.tooDeep limits.depth))
    else if count > 0 then
      if s.depth < s.remaining.length then
        some (.opened
          { s with
            remaining := s.remaining.set s.depth count
            depth := s.depth + 1
            i := total - rest.length })
      else none
    else some (.finished { s with i := total - rest.length })

theorem checkedAdd_bulk (next len : ℕ) :
    (checkedAdd 64 next len).bind (fun sum => checkedAdd 64 sum 2) =
      if next + len + 2 < 2 ^ 64 then some (next + len + 2) else none := by
  by_cases hsum : next + len < 2 ^ 64
  · simp only [checkedAdd, if_pos hsum, bind_some]
  · have hm : ¬ next + len + 2 < 2 ^ 64 := by omega
    simp only [checkedAdd, if_neg hsum, if_neg hm, bind_none]

section Turns

variable {data : Bytes} {limits : RespLimits} {s : ScanState}

section

variable (hi : s.i ≤ data.length)

include hi

theorem scanInteger_eq : scanInteger data s =
      headerPass limits data.length s (integerHeader (splitLine (data.drop s.i))) := by
  rw [scanInteger, lineAt_eq hi]
  cases splitLine (data.drop s.i) with
  | none => rfl
  | some found =>
    obtain ⟨line, rest⟩ := found
    cases hv : parseI64 line <;> simp [integerHeader, hv, headerPass]

theorem scanBulk_eq : scanBulk data limits s =
      headerPass limits data.length s (lengthHeader .bulk (splitLine (data.drop s.i))) := by
  rw [scanBulk, lineAt_eq hi]
  cases hs : splitLine (data.drop s.i) with
  | none => rfl
  | some found =>
    obtain ⟨line, rest⟩ := found
    have hr : rest.length ≤ data.length := by
      have hlen := congrArg length (splitLine_spec hs).1
      simp only [length_drop, length_append, length_cons] at hlen
      omega
    cases hlen : parseIsize line with
    | none => simp [lengthHeader, hlen, headerPass]
    | some len =>
      simp only [map_some, hlen, lengthHeader, checkedAdd_bulk]
      by_cases hn : len = -1
      · simp [hn, headerPass]
      by_cases hneg : len < 0
      · simp [hn, hneg, headerPass]
      simp only [hn, hneg, if_false, headerPass]
      have hf : data.length - rest.length + len.toNat + 2 > data.length ↔
          ¬ len.toNat + 2 ≤ rest.length := by omega
      split_ifs <;> simp_all

theorem scanArray_eq : scanArray data limits s =
      headerPass limits data.length s (lengthHeader .array (splitLine (data.drop s.i))) := by
  rw [scanArray, lineAt_eq hi]
  cases splitLine (data.drop s.i) with
  | none => rfl
  | some found =>
    obtain ⟨line, rest⟩ := found
    cases hlen : parseIsize line with
    | none => simp [lengthHeader, hlen, headerPass]
    | some len =>
      simp only [map_some, bind_some, hlen, lengthHeader]
      by_cases hn : len = -1
      · simp [hn, headerPass]
      by_cases hneg : len < 0
      · simp [hn, hneg, headerPass]
      simp only [hn, hneg, if_false, headerPass]

theorem scanLine_eq :
    (match findCrlf data s.i with
      | some stop => some (.finished { s with i := stop + 2 })
      | none => some (.stop .incomplete)) =
      headerPass limits data.length s (lineHeader (splitLine (data.drop s.i))) := by
  have hc : (findCrlf data s.i).map (· + 2) =
      (splitLine (data.drop s.i)).map fun found => data.length - found.2.length := by
    rw [findCrlf, if_pos hi, splitLine_eq_crlfPosition]
    cases hs : crlfPosition (data.drop s.i) with
    | none => rfl
    | some stop =>
      have hle := crlfPosition_bound hs
      simp only [length_drop] at hle
      simp only [map_some, length_drop, some.injEq]
      omega
  cases hs : splitLine (data.drop s.i) with
  | none =>
    rw [hs] at hc
    have hn : findCrlf data s.i = none := by simpa using hc
    simp [hn, lineHeader, headerPass]
  | some found =>
    rw [hs] at hc
    obtain ⟨stop, hst, hne⟩ := map_eq_some_iff.1 hc
    simp [hst, hne, lineHeader, headerPass]

end

theorem scanValue_end (hi : data.length ≤ s.i) :
    scanValue data limits s = some (.stop .incomplete) := by
  simp [scanValue, hi]

theorem scanValue_eq (hi : s.i < data.length) :
    scanValue data limits s =
      if s.values + 1 > limits.maxElements then some (.stop (.tooLong .aggregate))
      else headerPass limits data.length { s with values := s.values + 1 }
        (readHeader (data.drop s.i)) := by
  let next : ScanState := { s with i := s.i + 1, values := s.values + 1 }
  have hn : next.i ≤ data.length := hi
  have hm : ∀ header, headerPass limits data.length next header =
      headerPass limits data.length { s with values := s.values + 1 } header := by
    intro header
    cases header <;> rfl
  rw [drop_eq_getElem_cons hi]
  simp only [scanValue, getElem?_eq_getElem hi, readHeader, ← hm]
  split_ifs
  · rfl
  · exact scanLine_eq hn
  · exact scanInteger_eq hn
  · exact scanBulk_eq hn
  · exact scanArray_eq hn
  · rfl

end Turns

end NetGet.Resp
