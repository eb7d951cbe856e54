import NetGet.Library.Decimal

/-! # The timestamps of short messages

A text is given as a `String`; a place in it, as in the code, is a place among its bytes. -/

namespace NetGet.Gsm

open Library

/-- The refusal of a text, which the message quotes. -/
structure BadTimestamp where
  text : String
deriving DecidableEq

/-- Cutting at `i` does not split a character. -/
def isCharBoundary (b : List UInt8) (i : ℕ) : Bool :=
  i == b.length || b.getD i 0x80 &&& 0xc0 != 0x80

/-- The two bytes at `i`; `none` is a panic. -/
def twoAt (t : String) (i : ℕ) : Option (List UInt8) :=
  if isCharBoundary (utf8 t) i && isCharBoundary (utf8 t) (i + 2) then
    some (((utf8 t).drop i).take 2)
  else none

def num (t : String) (i : ℕ) : ExceptT BadTimestamp Option ℕ :=
  (twoAt t i).map fun s => (parseUnsigned 8 s).elim (.error ⟨t⟩) .ok

def semi (v : ℕ) : UInt8 := (UInt8.ofNat (v % 10) <<< 4) ||| UInt8.ofNat (v / 10)

def timestampEncode (t : String) : ExceptT BadTimestamp Option (List UInt8) := do
  if (utf8 t).length ≠ 25 ∨ (utf8 t).take 2 ≠ utf8 "20" then
    throw ⟨t⟩
  let fields ← [2, 5, 8, 11, 14, 17].mapM (num t)
  let sign := (utf8 t).getD 19 0
  let hours ← num t 20
  let minutes ← num t 23
  if sign ≠ 43 ∧ sign ≠ 45 then
    throw ⟨t⟩
  let q := (hours * 60 + minutes) / 15 % 256
  return fields.map semi ++ [semi q ||| if sign = 45 then 0x08 else 0]

/-- The text of six numbers and a time zone. -/
def render (d : Fin 6 → ℕ) (minutes : ℤ) : String :=
  .join ["20", padded 2 (d 0), "-", padded 2 (d 1), "-", padded 2 (d 2), "T", padded 2 (d 3), ":",
    padded 2 (d 4), ":", padded 2 (d 5), if minutes < 0 then "-" else "+",
    padded 2 (minutes.natAbs / 60), ":", padded 2 (minutes.natAbs % 60)]

def timestampDecode (o : List UInt8) : String :=
  let d (b : UInt8) : ℕ := (b &&& 0x0f).toNat * 10 + (b >>> 4).toNat
  let raw := o.getD 6 0
  let quarters : ℕ := (raw &&& 0x07).toNat * 10 + (raw >>> 4).toNat
  let minutes : ℤ := quarters * 15 * if raw &&& 0x08 != 0 then -1 else 1
  render (fun i => d (o.getD i 0)) minutes

end NetGet.Gsm
