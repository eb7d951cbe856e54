import NetGet.Model.LineReader
import Mathlib.Tactic.SplitIfs

/-! # Bounded reads do not depend on how the stream is cut -/

namespace NetGet.LineReader

open List

variable {delimiter : UInt8} {maxLen : ℕ}

def stream (chunks : List Chunk) : Bytes := chunks.flatMap Subtype.val

def verdict (delimiter : UInt8) (maxLen : ℕ) (data : Bytes) : Outcome :=
  match data.findIdx? (· == delimiter) with
  | some i => if i < maxLen then .found (data.take (i + 1)) else .over
  | none => if maxLen < data.length then .over else .ended data

theorem readLoop_eq (frame : Bytes) (hf : frame.findIdx? (· == delimiter) = none)
    (hl : frame.length ≤ maxLen) (chunks : List Chunk) :
    (readLoop delimiter maxLen frame chunks).1 =
      verdict delimiter maxLen (frame ++ stream chunks) := by
  induction chunks generalizing frame with
  | nil =>
    rw [stream, flatMap_nil, append_nil, verdict, hf]
    exact (if_neg (Nat.not_lt.2 hl)).symm
  | cons available chunks ih =>
    rw [stream, flatMap_cons, ← stream, readLoop]
    cases hn : available.1.findIdx? (· == delimiter) with
    | some n =>
      have hlt : n < available.1.length := (findIdx?_eq_some_iff_findIdx_eq.1 hn).1
      have hi : (frame ++ (available.1 ++ stream chunks)).findIdx? (· == delimiter) =
          some (n + frame.length) := by
        simp [findIdx?_append, hf, hn]
      have ht : (frame ++ (available.1 ++ stream chunks)).take (n + frame.length + 1) =
          frame ++ available.1.take (n + 1) := by
        rw [show n + frame.length + 1 = frame.length + (n + 1) by omega, take_length_add_append,
          take_append_of_le_length hlt]
      simp only [verdict, hi, ht]
      split
      · rw [if_neg (by omega)]
      · rw [if_pos (by omega)]
    | none =>
      have hi : (frame ++ available.1).findIdx? (· == delimiter) = none := by
        simp [findIdx?_append, hf, hn]
      simp only
      split
      · -- the delimiter, if any, comes too late
        rw [verdict, ← append_assoc, findIdx?_append, hi, Option.none_or]
        cases (stream chunks).findIdx? (· == delimiter) with
        | some i =>
          refine (if_neg ?_).symm
          simp only [length_append]
          omega
        | none =>
          refine (if_pos ?_).symm
          rw [length_append, length_append]
          omega
      · rw [ih _ hi (by rw [length_append]; omega), append_assoc]

/-- What the two readers return is told by the bytes of the stream alone. -/
theorem readBounded_segmentation (lossy : Bytes → String) (delimiter : UInt8) (maxLen : ℕ)
    (chunks : List Chunk) :
    (readBoundedLine lossy maxLen chunks).1 =
      (match (stream chunks).findIdx? (· == 10) with
        | some i =>
          if i < maxLen then .line (lossy ((stream chunks).take (i + 1))) else .tooLong
        | none => if maxLen < (stream chunks).length then .tooLong else .eof) ∧
      readBoundedDelimited delimiter maxLen chunks =
        match (stream chunks).findIdx? (· == delimiter) with
        | some i =>
          if i < maxLen then .ok (some ((stream chunks).take (i + 1)))
          else .error (.invalidData, "delimited frame exceeds cap")
        | none =>
          if maxLen < (stream chunks).length then
            .error (.invalidData, "delimited frame exceeds cap")
          else if stream chunks = [] then .ok none
          else .error (.unexpectedEof, "partial delimited frame") := by
  have hl (delimiter : UInt8) : (readLoop delimiter maxLen [] chunks).1 =
      verdict delimiter maxLen (stream chunks) := readLoop_eq [] rfl (Nat.zero_le _) chunks
  simp only [verdict] at hl
  constructor
  · simp only [readBoundedLine, hl 10]
    cases (stream chunks).findIdx? (· == 10) <;> simp only <;> split_ifs <;> rfl
  · simp only [readBoundedDelimited, hl delimiter]
    cases (stream chunks).findIdx? (· == delimiter) <;> simp only <;> split_ifs <;> simp [*]

end NetGet.LineReader
