import Mathlib.Data.Nat.Notation

/-! # UTF-8 safe truncation

Limits are in bytes, cuts are on character boundaries. -/

namespace NetGet.Truncate

/-- The byte offset at which each character starts, counting from `start`. -/
def charIndices (start : ℕ) : List Char → List ℕ
  | [] => []
  | c :: cs => start :: charIndices (start + c.utf8Size) cs

/-- The characters that fit in the first `bytes` bytes: the slice `&s[..bytes]`. -/
def sliceTo (bytes : ℕ) : List Char → List Char
  | [] => []
  | c :: cs => if c.utf8Size ≤ bytes then c :: sliceTo (bytes - c.utf8Size) cs else []

/-- The largest character boundary that is at most `maxBytes`. -/
def floorCharBoundary (s : String) (maxBytes : ℕ) : ℕ :=
  if maxBytes ≥ s.utf8ByteSize then s.utf8ByteSize
  else ((charIndices 0 s.toList).takeWhile fun i => i ≤ maxBytes).getLast?.getD 0

def truncateStr (s : String) (maxBytes : ℕ) : String :=
  String.ofList (sliceTo (floorCharBoundary s maxBytes) s.toList)

def truncateWithSuffix (s : String) (maxBytes : ℕ) (suffix : String) : String :=
  let stop := floorCharBoundary s maxBytes
  if stop = s.utf8ByteSize then s
  else String.ofList (sliceTo stop s.toList) ++ suffix

end NetGet.Truncate
