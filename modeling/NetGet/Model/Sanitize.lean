import Mathlib.Data.List.DropRight
import NetGet.Model.Basic

/-! # Control characters in text

A string is the list of its characters. -/

namespace NetGet.Sanitize

/-- `char::is_whitespace`. -/
def isWhitespace (c : Char) : Bool :=
  9 ≤ c.toNat && c.toNat ≤ 13 || 0x2000 ≤ c.toNat && c.toNat ≤ 0x200a ||
    [0x20, 0x85, 0xa0, 0x1680, 0x2028, 0x2029, 0x202f, 0x205f, 0x3000].contains c.toNat

def isSequenceIntroducer (c : Char) : Bool :=
  [0x1b, 0x9b, 0x9d, 0x90, 0x98, 0x9e, 0x9f].contains c.toNat

def inRange (lo hi : ℕ) (c : Char) : Bool := lo ≤ c.toNat && c.toNat ≤ hi

/-- The loop `while in_range(j, lo, hi)`. -/
def skip (lo hi : ℕ) (rest : List Char) (j : ℕ) : ℕ :=
  j + ((rest.drop j).takeWhile (inRange lo hi)).length

def csiLen (rest : List Char) (body : ℕ) : ℕ :=
  let j := skip 0x20 0x2f rest (skip 0x30 0x3f rest body)
  if rest[j]?.any (inRange 0x40 0x7e) then j + 1 else j

/-- The loop over a control string from its `j`th character on. -/
def controlStringLen (body j : ℕ) : List Char → ℕ
  | [] => body
  | c :: rest =>
    if c.toNat = 7 ∨ c.toNat = 0x9c then j + 1
    else if c.toNat = 0x1b ∧ rest.head? = some '\\' then j + 2
    else if inRange 0x20 0x7e c then controlStringLen body (j + 1) rest
    else body

def shortEscapeLen (rest : List Char) : Option ℕ :=
  let j := skip 0x20 0x2f rest 1
  if rest[j]?.any (inRange 0x30 0x7e) then some (j + 1) else none

def sequenceLen (rest : List Char) : Option ℕ :=
  match rest with
  | [] => none
  | c :: tail =>
    if c.toNat = 0x1b then
      match tail with
      | [] => none
      | d :: text =>
        if d = '[' then some (csiLen rest 2)
        else if d ∈ [']', 'P', 'X', '^', '_'] then some (controlStringLen 2 2 text)
        else shortEscapeLen rest
    else if c.toNat = 0x9b then some (csiLen rest 1)
    else if c.toNat ∈ [0x9d, 0x90, 0x98, 0x9e, 0x9f] then some (controlStringLen 1 1 tail)
    else none

/-- The loop of `replace_escape_sequences`, which goes on by a character at least. -/
def replaceLoop (replacement : Option Char) : ℕ → List Char → List Char
  | 0, _ | _, [] => []
  | fuel + 1, c :: rest =>
    match sequenceLen (c :: rest) with
    | some len =>
      replacement.elim [] (List.replicate len) ++
        replaceLoop replacement fuel ((c :: rest).drop len)
    | none => c :: replaceLoop replacement fuel rest

def replaceEscapeSequences (s : List Char) (replacement : Option Char) : List Char :=
  if s.any isSequenceIntroducer then replaceLoop replacement s.length s else s

def lineField (s : List Char) : List Char :=
  (replaceEscapeSequences s (some ' ')).map fun c => if isControl c then ' ' else c

def stripControls (s : List Char) : List Char :=
  (replaceEscapeSequences s none).filter fun c => !isControl c

def multiline (s : List Char) : List Char :=
  (replaceEscapeSequences s none).filter fun c => c == '\n' || c == '\t' || !isControl c

def token (raw : List Char) (maxChars : ℕ) : List Char :=
  (((stripControls raw).dropWhile isWhitespace).take maxChars).rdropWhile isWhitespace

end NetGet.Sanitize
