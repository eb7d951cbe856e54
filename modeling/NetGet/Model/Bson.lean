import Mathlib.Algebra.Group.Int.Defs
import NetGet.Library.Arith
import NetGet.Model.Bytes

/-! # The scan of BSON documents

The end of every open document, in a fixed array of `MAX_BSON_DEPTH` slots. An access
outside its bounds and an index that underflows are panics; a scan that panics has no
result. -/

namespace NetGet.Bson

open Library

def maxBsonDepth : ℕ := 64

inductive BsonScan where
  | complete (consumed : ℕ)
  | tooDeep (limit : ℕ)
  | malformed
  deriving DecidableEq

/-- `i32::from_le_bytes`. -/
def i32FromLeBytes : Bytes → ℤ
  | [a, b, c, d] =>
    let value : ℕ := a.toNat + b.toNat * 2 ^ 8 + c.toNat * 2 ^ 16 + d.toNat * 2 ^ 24
    if value < 2 ^ 31 then (value : ℤ) else (value : ℤ) - 2 ^ 32
  | _ => 0

/-- A little-endian i32 at `start`, if all four bytes lie before `limit`. -/
def readI32 (data : Bytes) (start limit : ℕ) : Option ℤ :=
  match (checkedAdd 64 start 4).bind fun stop => slice data start stop with
  | none => none
  | some bytes => if start + 4 > limit then none else some (i32FromLeBytes bytes)

/-- `usize::try_from`. -/
def toUsize (value : ℤ) : Option ℕ := if value < 0 then none else some value.toNat

/-- The end of the document starting at `start`, which must lie wholly before `limit`; the
outer option is a panic. -/
def documentEnd (data : Bytes) (start limit : ℕ) : Option (Option ℕ) :=
  match (readI32 data start limit).bind toUsize with
  | none => some none
  | some len =>
    if len < 5 then some none
    else
      match checkedAdd 64 start len with
      | none => some none
      | some stop =>
        if stop > limit then some none
        else
          match data[stop - 1]? with
          | none => none
          | some last => if last ≠ 0 then some none else some (some stop)

def stringSize (data : Bytes) (start limit : ℕ) : Option ℕ :=
  match (readI32 data start limit).bind toUsize with
  | none => none
  | some len =>
    if len < 1 then none
    else
      match checkedAdd 64 len 4 with
      | none => none
      | some size =>
        match checkedAdd 64 start size with
        | none => none
        | some stop => if stop > limit then none else some size

def nulPosition : Bytes → Option ℕ
  | [] => none
  | byte :: rest => if byte = 0 then some 0 else (nulPosition rest).map (· + 1)

inductive ElementKind where
  | fixed (size : ℕ)
  | string
  | dbPointer
  | binary
  | regex
  | document
  | codeWithScope

def elementKind (kind : UInt8) : Option ElementKind :=
  if kind = 0x08 then some (.fixed 1)
  else if kind = 0x10 then some (.fixed 4)
  else if kind = 0x01 ∨ kind = 0x09 ∨ kind = 0x11 ∨ kind = 0x12 then some (.fixed 8)
  else if kind = 0x07 then some (.fixed 12)
  else if kind = 0x13 then some (.fixed 16)
  else if kind = 0x06 ∨ kind = 0x0A ∨ kind = 0x7F ∨ kind = 0xFF then some (.fixed 0)
  else if kind = 0x02 ∨ kind = 0x0D ∨ kind = 0x0E then some .string
  else if kind = 0x0C then some .dbPointer
  else if kind = 0x05 then some .binary
  else if kind = 0x0B then some .regex
  else if kind = 0x03 ∨ kind = 0x04 then some .document
  else if kind = 0x0F then some .codeWithScope
  else none

/-- `ends[d]` is one past the last byte of the document open at depth `d + 1`. -/
structure ScanState where
  ends : List ℕ
  depth : ℕ
  pos : ℕ

inductive Pass where
  | stop (verdict : BsonScan)
  | next (s : ScanState)

def skip (limit : ℕ) (s : ScanState) (size : ℕ) : Pass :=
  match checkedAdd 64 s.pos size with
  | none => .stop .malformed
  | some next => if next ≤ limit then .next { s with pos := next } else .stop .malformed

def skipString (data : Bytes) (limit : ℕ) (s : ScanState) (extra : ℕ) : Pass :=
  match stringSize data s.pos limit with
  | none => .stop .malformed
  | some size => skip limit s (size + extra)

def skipBinary (data : Bytes) (limit : ℕ) (s : ScanState) : Pass :=
  match ((readI32 data s.pos limit).bind toUsize).bind fun len => checkedAdd 64 len 5 with
  | none => .stop .malformed
  | some size => skip limit s size

def skipRegex (data : Bytes) (limit : ℕ) (s : ScanState) : Option Pass :=
  match slice data s.pos limit with
  | none => none
  | some pattern =>
    match nulPosition pattern with
    | none => some (.stop .malformed)
    | some p =>
      match slice data (s.pos + p + 1) limit with
      | none => none
      | some options =>
        match nulPosition options with
        | none => some (.stop .malformed)
        | some o => some (skip limit s (p + 1 + o + 1))

def openDocument (maxDepth : ℕ) (s : ScanState) (start stop : ℕ) : Option Pass :=
  if s.depth ≥ maxDepth then some (.stop (.tooDeep maxDepth))
  else if s.depth < s.ends.length then
    some (.next { ends := s.ends.set s.depth stop, depth := s.depth + 1, pos := start + 4 })
  else none

def scanDocument (data : Bytes) (maxDepth limit : ℕ) (s : ScanState) : Option Pass :=
  match documentEnd data s.pos limit with
  | none => none
  | some none => some (.stop .malformed)
  | some (some stop) => openDocument maxDepth s s.pos stop

def elementEnd (data : Bytes) (limit pos : ℕ) : Option ℕ :=
  match (readI32 data pos limit).bind toUsize with
  | none => none
  | some total =>
    if total < 14 then none
    else
      match checkedAdd 64 pos total with
      | none => none
      | some stop => if stop ≤ limit then some stop else none

def scanCodeWithScope (data : Bytes) (maxDepth limit : ℕ) (s : ScanState) : Option Pass :=
  match elementEnd data limit s.pos with
  | none => some (.stop .malformed)
  | some stop =>
    match stringSize data (s.pos + 4) stop with
    | none => some (.stop .malformed)
    | some code =>
      let scope := s.pos + 4 + code
      match documentEnd data scope stop with
      | none => none
      | some scopeEnd =>
        if scopeEnd = some stop then openDocument maxDepth s scope stop
        else some (.stop .malformed)

def scanValue (data : Bytes) (maxDepth limit : ℕ) (kind : UInt8) (s : ScanState) :
    Option Pass :=
  match elementKind kind with
  | none => some (.stop .malformed)
  | some (.fixed size) => some (skip limit s size)
  | some .string => some (skipString data limit s 0)
  | some .dbPointer => some (skipString data limit s 12)
  | some .binary => some (skipBinary data limit s)
  | some .regex => skipRegex data limit s
  | some .document => scanDocument data maxDepth limit s
  | some .codeWithScope => scanCodeWithScope data maxDepth limit s

def scanElement (data : Bytes) (maxDepth limit : ℕ) (s : ScanState) : Option Pass :=
  match data[s.pos]?, slice data (s.pos + 1) limit with
  | some kind, some key =>
    match nulPosition key with
    | none => some (.stop .malformed)
    | some nul => scanValue data maxDepth limit kind { s with pos := s.pos + 1 + nul + 1 }
  | _, _ => none

/-- One turn: the terminator of the innermost document, or an element before it. -/
def scanTurn (data : Bytes) (maxDepth : ℕ) (s : ScanState) : Option Pass :=
  match s.depth with
  | 0 => none
  | depth + 1 =>
    match s.ends[depth]? with
    | none => none
    | some 0 => none
    | some (limit + 1) =>
      if s.pos = limit then
        if depth = 0 then some (.stop (.complete (limit + 1)))
        else some (.next { s with depth, pos := limit + 1 })
      else if s.pos > limit then some (.stop .malformed)
      else scanElement data maxDepth limit s

def scanLoop (data : Bytes) (maxDepth : ℕ) : ℕ → ScanState → Option BsonScan
  | 0, _ => none
  | fuel + 1, s =>
    match scanTurn data maxDepth s with
    | none => none
    | some (.stop verdict) => some verdict
    | some (.next s) => scanLoop data maxDepth fuel s

/-- A turn moves past at least one byte or is the last, so this many turns are enough. -/
def scanBsonDocumentWithLimit (data : Bytes) (maxDepth : ℕ) : Option BsonScan :=
  let maxDepth := min maxDepth maxBsonDepth
  match documentEnd data 0 data.length with
  | none => none
  | some none => some .malformed
  | some (some stop) =>
    if maxDepth = 0 then some (.tooDeep maxDepth)
    else
      scanLoop data maxDepth (data.length + 1)
        { ends := (List.replicate maxBsonDepth 0).set 0 stop, depth := 1, pos := 4 }

def scanBsonDocument (data : Bytes) : Option BsonScan :=
  scanBsonDocumentWithLimit data maxBsonDepth

end NetGet.Bson
