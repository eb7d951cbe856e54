import Mathlib.Algebra.Group.Int.Defs
import NetGet.Library.Arith
import NetGet.Model.Bytes

/-! # The scan of RESP2 frames

One counter per open array, in a fixed array of `MAX_RESP_DEPTH` slots. An access outside
its bounds and a counter that underflows are panics; a scan that panics has no result. -/

namespace NetGet.Resp

open Library

def maxRespDepth : ℕ := 32

structure RespLimits where
  maxDepth : ℕ
  maxElements : ℕ
  maxBulkLen : ℕ

inductive RespLength where
  | aggregate
  | bulk
  deriving DecidableEq

inductive RespScan where
  | complete (consumed : ℕ)
  | incomplete
  | tooDeep (limit : ℕ)
  | tooLong (length : RespLength)
  | malformed
  deriving DecidableEq

def crlfPosition : Bytes → Option ℕ
  | [] => none
  | [_] => none
  | first :: second :: rest =>
    if first = 13 ∧ second = 10 then some 0
    else (crlfPosition (second :: rest)).map (· + 1)

def findCrlf (data : Bytes) (start : ℕ) : Option ℕ :=
  if start ≤ data.length then (crlfPosition (data.drop start)).map (start + ·) else none

/-- The value of a run of decimal digits, after the digits read so far. -/
def digits (value : ℕ) : Bytes → Option ℕ
  | [] => some value
  | byte :: rest =>
    if 48 ≤ byte.toNat ∧ byte.toNat ≤ 57 then digits (value * 10 + (byte.toNat - 48)) rest
    else none

/-- A signed integer of `w` bits when it is in range. -/
def inRange (w : ℕ) (value : ℤ) : Option ℤ :=
  if -2 ^ (w - 1) ≤ value ∧ value < 2 ^ (w - 1) then some value else none

/-- `str::parse` for a signed integer of `w` bits: an optional sign, then at least one
digit. A byte that is not ASCII is no digit, so the text need not be UTF-8 on its own. -/
def parseSigned (w : ℕ) : Bytes → Option ℤ
  | [] => none
  | [byte] =>
    if byte = 43 ∨ byte = 45 then none
    else (digits 0 [byte]).bind fun value => inRange w value
  | sign :: rest =>
    if sign = 43 then (digits 0 rest).bind fun value => inRange w value
    else if sign = 45 then (digits 0 rest).bind fun value => inRange w (-value)
    else (digits 0 (sign :: rest)).bind fun value => inRange w value

def parseIsize (line : Bytes) : Option ℤ := parseSigned 64 line
def parseI64 (line : Bytes) : Option ℤ := parseSigned 64 line

/-- `remaining[d]` is how many values the array open at depth `d + 1` still expects. -/
structure ScanState where
  remaining : List ℕ
  depth : ℕ
  values : ℕ
  i : ℕ

def ScanState.new : ScanState :=
  { remaining := List.replicate maxRespDepth 0, depth := 0, values := 0, i := 0 }

inductive Pass where
  | stop (verdict : RespScan)
  | opened (s : ScanState)
  | finished (s : ScanState)

def RespLimits.depth (limits : RespLimits) : ℕ := min limits.maxDepth maxRespDepth

/-- The line from `i` up to its CRLF and the index after the CRLF; the outer option is a
panic. -/
def lineAt (data : Bytes) (i : ℕ) : Option (Option (Bytes × ℕ)) :=
  match findCrlf data i with
  | none => some none
  | some stop => (slice data i stop).map fun line => some (line, stop + 2)

def scanInteger (data : Bytes) (s : ScanState) : Option Pass :=
  (lineAt data s.i).map fun
    | none => .stop .incomplete
    | some (line, next) =>
      match parseI64 line with
      | none => .stop .malformed
      | some _ => .finished { s with i := next }

def scanBulk (data : Bytes) (limits : RespLimits) (s : ScanState) : Option Pass :=
  (lineAt data s.i).map fun
    | none => .stop .incomplete
    | some (line, next) =>
      match parseIsize line with
      | none => .stop .malformed
      | some len =>
        if len = -1 then .finished { s with i := next }
        else if len < 0 then .stop .malformed
        else if len.toNat > limits.maxBulkLen then .stop (.tooLong .bulk)
        else
          match (checkedAdd 64 next len.toNat).bind fun sum => checkedAdd 64 sum 2 with
          | none => .stop (.tooLong .bulk)
          | some next =>
            if next > data.length then .stop .incomplete
            else .finished { s with i := next }

def scanArray (data : Bytes) (limits : RespLimits) (s : ScanState) : Option Pass :=
  (lineAt data s.i).bind fun
    | none => some (.stop .incomplete)
    | some (line, next) =>
      match parseIsize line with
      | none => some (.stop .malformed)
      | some len =>
        if len = -1 then some (.finished { s with i := next })
        else if len < 0 then some (.stop .malformed)
        else if len.toNat > limits.maxElements - s.values then
          some (.stop (.tooLong .aggregate))
        else if s.depth + 1 > limits.depth then some (.stop (.tooDeep limits.depth))
        else if len.toNat > 0 then
          if s.depth < s.remaining.length then
            some (.opened
              { s with
                remaining := s.remaining.set s.depth len.toNat
                depth := s.depth + 1
                i := next })
          else none
        else some (.finished { s with i := next })

/-- One turn of the loop up to the end of its `match`. -/
def scanValue (data : Bytes) (limits : RespLimits) (s : ScanState) : Option Pass :=
  match data[s.i]? with
  | none => some (.stop .incomplete)
  | some kind =>
    let s := { s with i := s.i + 1, values := s.values + 1 }
    if s.values > limits.maxElements then some (.stop (.tooLong .aggregate))
    else if kind = 43 ∨ kind = 45 then
      match findCrlf data s.i with
      | some stop => some (.finished { s with i := stop + 2 })
      | none => some (.stop .incomplete)
    else if kind = 58 then scanInteger data s
    else if kind = 36 then scanBulk data limits s
    else if kind = 42 then scanArray data limits s
    else some (.stop .malformed)

/-- A value finished: close every array it was the last element of. The depth left is zero
when the frame is complete. -/
def closeArrays : List ℕ → ℕ → Option (List ℕ × ℕ)
  | remaining, 0 => some (remaining, 0)
  | remaining, depth + 1 =>
    match remaining[depth]? with
    | none => none
    | some 0 => none
    | some (count + 1) =>
      if count > 0 then some (remaining.set depth count, depth + 1)
      else closeArrays (remaining.set depth count) depth

def scanLoop (data : Bytes) (limits : RespLimits) : ℕ → ScanState → Option RespScan
  | 0, _ => none
  | fuel + 1, s =>
    match scanValue data limits s with
    | none => none
    | some (.stop verdict) => some verdict
    | some (.opened s) => scanLoop data limits fuel s
    | some (.finished s) =>
      match closeArrays s.remaining s.depth with
      | none => none
      | some (_, 0) => some (.complete s.i)
      | some (remaining, depth + 1) =>
        scanLoop data limits fuel { s with remaining, depth := depth + 1 }

/-- A turn reads at least one byte or is the last, so this many turns are enough. -/
def scanResp2Frame (data : Bytes) (limits : RespLimits) : Option RespScan :=
  scanLoop data limits (data.length + 1) .new

end NetGet.Resp
