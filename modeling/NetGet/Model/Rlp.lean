import NetGet.Library.Arith
import NetGet.Library.BigEndian
import NetGet.Model.Bytes

/-! # Recursive Length Prefix, the serialisation of devp2p

Lengths are `usize` values of 64 bits. An error is its message. -/

namespace NetGet

open Library

inductive Rlp where
  | bytes (b : Bytes)
  | list (items : List Rlp)

namespace Rlp

def maxRlpDepth : ℕ := 16

def maxRlpItems : ℕ := 200000

def putLength (offset : UInt8) (len : ℕ) : Bytes :=
  if len ≤ 55 then [offset + UInt8.ofNat len]
  else
    let be := trimZeros (toBe 8 len)
    (offset + 55 + UInt8.ofNat be.length) :: be

mutual

def encodeInto : Rlp → Bytes
  | .bytes b =>
    if b.length = 1 ∧ b.all (· < 0x80) then b
    else putLength 0x80 b.length ++ b
  | .list items =>
    let payload := encodeAll items
    putLength 0xc0 payload.length ++ payload

def encodeAll : List Rlp → Bytes
  | [] => []
  | item :: items => encodeInto item ++ encodeAll items

end

/-- A vector grows to at most `isize::MAX` bytes; an item that needs more panics. -/
def encode (item : Rlp) : Option Slice :=
  if h : (encodeInto item).length < 2 ^ 63 then some ⟨encodeInto item, h⟩ else none

def hexByte (b : UInt8) : String :=
  "0x" ++ String.ofList [Nat.digitChar (b.toNat / 16), Nat.digitChar (b.toNat % 16)]

/-- The arm of `header` for a prefix that is followed by the length. -/
def longSpan (b : UInt8) (input : Bytes) : Except String (Bool × ℕ × ℕ) := do
  let isList := decide (0xf8 ≤ b)
  let lenOfLen := (b - if isList then 0xf7 else 0xb7).toNat
  let lenBytes ← (slice input 1 (1 + lenOfLen)).elim
    (.error "RLP length runs past the input") .ok
  ensure (lenBytes.head? != some 0) "non-canonical RLP length (leading zero)"
  ensure (lenOfLen ≤ 8) s!"RLP length of {lenOfLen} bytes is impossible"
  let len := fromBe lenBytes
  ensure (55 < len) s!"non-canonical RLP length: long form for {len} bytes"
  return (isList, 1 + lenOfLen, len)

/-- What the first byte, at least `0x80`, says of the payload. -/
def span (b : UInt8) (input : Bytes) : Except String (Bool × ℕ × ℕ) :=
  if b ≤ 0xb7 then .ok (false, 1, (b - 0x80).toNat)
  else if 0xc0 ≤ b ∧ b ≤ 0xf7 then .ok (true, 1, (b - 0xc0).toNat)
  else longSpan b input

/-- Where the payload of an item is: whether the item is a list, the payload's start and its
length. -/
def header (input : Bytes) : Except String (Bool × ℕ × ℕ) :=
  match input with
  | [] => .error "RLP item is empty"
  | b :: _ =>
    if b ≤ 0x7f then .ok (false, 0, 1)
    else do
      let (isList, start, len) ← span b input
      let stop ← (checkedAdd 64 start len).elim (.error "RLP length overflows") .ok
      ensure (stop ≤ input.length)
        s!"RLP item declares {len} bytes, {input.length - min start input.length} remain"
      if !isList && start == 1 && len == 1 then
        ensure (0x80 ≤ input.getD 1 0)
          s!"non-canonical RLP: single byte {hexByte (input.getD 1 0)} with a length prefix"
      return (isList, start, len)

/-- The loop over the payload of a list. `next` uses at least one byte of what it is given, so that
`payload.length` rounds are enough. -/
def decodeItems (next : Bytes → ℕ → Except String (Rlp × ℕ × ℕ)) :
    ℕ → Bytes → ℕ → Except String (List Rlp × ℕ)
  | 0, _, items => .ok ([], items)
  | rounds + 1, payload, items =>
    if payload.isEmpty then .ok ([], items)
    else do
      let (item, used, items) ← next payload items
      let (out, items) ← decodeItems next rounds (payload.drop used) items
      return (item :: out, items)

/-- The item at the start of `input`, the bytes that it uses and the items counted so far.
`levels` is what is left of the depth, `MAX_RLP_DEPTH - depth`. -/
def decodeAt (levels : ℕ) (input : Bytes) (items : ℕ) : Except String (Rlp × ℕ × ℕ) := do
  let items := items + 1
  ensure (items ≤ maxRlpItems) s!"RLP holds more than {maxRlpItems} items"
  let (isList, start, len) ← header input
  let payload := (input.drop start).take len
  if !isList then
    if start = 0 then return (.bytes (input.take 1), 1, items)
    else return (.bytes payload, start + len, items)
  else
    match levels with
    | 0 => .error s!"RLP nesting deeper than {maxRlpDepth} levels"
    | levels + 1 =>
      let (out, items) ← decodeItems (fun input items => decodeAt levels input items)
        payload.length payload items
      return (.list out, start + len, items)

def decodePrefix (input : Bytes) : Except String (Rlp × ℕ) := do
  let (item, used, _) ← decodeAt maxRlpDepth input 0
  return (item, used)

def decode (input : Bytes) : Except String Rlp := do
  let (item, used) ← decodePrefix input
  ensure (used == input.length) s!"{input.length - used} bytes trail the RLP item"
  return item

mutual

def depth : Rlp → ℕ
  | .bytes _ => 0
  | .list items => depthAll items + 1

def depthAll : List Rlp → ℕ
  | [] => 0
  | item :: items => max (depth item) (depthAll items)

end

mutual

def itemCount : Rlp → ℕ
  | .bytes _ => 1
  | .list items => itemCountAll items + 1

def itemCountAll : List Rlp → ℕ
  | [] => 0
  | item :: items => itemCount item + itemCountAll items

end

end Rlp

end NetGet
