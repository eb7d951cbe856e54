import NetGet.Model.Bytes

/-! # Bounded reads up to a delimiter

A buffered reader is what its `fill_buf` returns in turn: nothing only at the end of the stream, and
the rest of a chunk before the next. Both readers consume a chunk whole unless the delimiter is in
it. -/

namespace NetGet.LineReader

abbrev Chunk := { bytes : Bytes // bytes ≠ [] }

/-- How the loop of both readers ends. -/
inductive Outcome where
  | found (frame : Bytes)
  | over
  | ended (frame : Bytes)

/-- The common loop, with the frame so far; also the number of bytes consumed. -/
def readLoop (delimiter : UInt8) (maxLen : ℕ) : Bytes → List Chunk → Outcome × ℕ
  | frame, [] => (.ended frame, frame.length)
  | frame, available :: chunks =>
    match available.1.findIdx? (· == delimiter) with
    | some n =>
      if frame.length + (n + 1) > maxLen then (.over, frame.length)
      else (.found (frame ++ available.1.take (n + 1)), frame.length + (n + 1))
    | none =>
      if frame.length + available.1.length > maxLen then (.over, frame.length)
      else readLoop delimiter maxLen (frame ++ available.1) chunks

inductive ErrorKind where
  | unexpectedEof
  | invalidData

def readBoundedDelimited (delimiter : UInt8) (maxLen : ℕ) (chunks : List Chunk) :
    Except (ErrorKind × String) (Option Bytes) :=
  match (readLoop delimiter maxLen [] chunks).1 with
  | .found frame => .ok (some frame)
  | .over => .error (.invalidData, "delimited frame exceeds cap")
  | .ended frame =>
    if frame = [] then .ok none else .error (.unexpectedEof, "partial delimited frame")

inductive BoundedLine where
  | line (text : String)
  | eof
  | tooLong

/-- `lossy` is `String::from_utf8_lossy`. -/
def readBoundedLine (lossy : Bytes → String) (maxLen : ℕ) (chunks : List Chunk) :
    BoundedLine × ℕ :=
  let (outcome, consumed) := readLoop 10 maxLen [] chunks
  let line :=
    match outcome with
    | .found buf => .line (lossy buf)
    | .over => .tooLong
    | .ended _ => .eof
  (line, consumed)

end NetGet.LineReader
