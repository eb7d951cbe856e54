import NetGet.Library.BigEndian
import NetGet.Model.Bytes

/-! # ClickHouse blocks

A block is read from the socket or through compressed frames, against a budget. -/

namespace NetGet.ClickHouse

open Library

def maxString : ℕ := 1024 * 1024
def maxBlockBytes : ℕ := 16 * 1024 * 1024
def maxColumns : ℕ := 1000
def maxRows : ℕ := 100000

inductive ColType where
  | uint8 | uint16 | uint32 | uint64 | int8 | int16 | int32 | int64 | float32 | float64 | bool
  | string | date | dateTime
  | nullable (inner : ColType)
  deriving DecidableEq

def ColType.width : ColType → ℕ
  | .uint8 | .int8 | .bool => 1
  | .uint16 | .int16 | .date => 2
  | .uint32 | .int32 | .float32 | .dateTime => 4
  | .uint64 | .int64 | .float64 => 8
  | .string | .nullable _ => 0

/-- What the reader takes from elsewhere: CityHash, LZ4, lossy UTF-8 and the parser of types. -/
structure Codec where
  cityhash128 : Bytes → Bytes
  decompress : Bytes → ℕ → Option Bytes
  fromUtf8Lossy : Bytes → String
  parse : String → Except String ColType

structure Source where
  inner : Bytes
  compressed : Bool
  /-- The part of the buffer that is not read yet, `buf[pos..]`. -/
  buf : Bytes
  budget : ℕ
  /-- Not in the source and read by nothing: the bytes handed out so far. -/
  delivered : ℕ

abbrev Read := EStateM String Source

def Source.new (inner : Bytes) (compressed : Bool) : Source :=
  { inner, compressed, buf := [], budget := maxBlockBytes, delivered := 0 }

def check (condition : Bool) (message : String) : Read Unit :=
  if condition then pure () else throw message

def readExact (n : ℕ) : Read Bytes := fun s =>
  if n ≤ s.inner.length then .ok (s.inner.take n) { s with inner := s.inner.drop n }
  else .error "early eof" s

def spend (n : ℕ) : Read Unit := fun s =>
  if n ≤ s.budget then .ok () { s with budget := s.budget - n }
  else .error "ClickHouse block exceeds 16777216 bytes" s

def compressedSize (header : Bytes) : ℕ := fromBe ((header.drop 17).take 4).reverse

def declaredSize (header : Bytes) : ℕ := fromBe ((header.drop 21).take 4).reverse

def unpack (c : Codec) (method : UInt8) (body : Bytes) (size : ℕ) : Read Bytes :=
  match method with
  | 0x02 => pure body
  | 0x82 => (c.decompress body size).elim (throw "LZ4 frame") pure
  | _ => throw "compression method is not supported (LZ4 or none)"

def refill (c : Codec) : Read Unit := do
  let header ← readExact 25
  check (9 ≤ compressedSize header) "compressed frame smaller than its header"
  spend (compressedSize header + 16)
  check (declaredSize header ≤ (← get).budget) "compressed frame decompresses past the block bound"
  let body ← readExact (compressedSize header - 9)
  check (c.cityhash128 (header.drop 16 ++ body) = header.take 16)
    "compressed frame checksum mismatch"
  let data ← unpack c (header.getD 16 0) body (declaredSize header)
  check (data.length = declaredSize header) "compressed frame decompressed to the wrong size"
  modify fun s => { s with buf := s.buf ++ data }

/-- Frames until `n` bytes are there. A frame has at least 25 bytes, so the stream ends before
the rounds do. -/
def fill (c : Codec) (n : ℕ) : ℕ → Read Unit
  | 0 => throw "early eof"
  | rounds + 1 => do if (← get).buf.length < n then do refill c; fill c n rounds

def take (n : ℕ) : Read Bytes := fun s =>
  .ok (s.buf.take n) { s with buf := s.buf.drop n, delivered := s.delivered + n }

def takePlain (n : ℕ) : Read Bytes := do
  spend n
  let out ← readExact n
  modify fun s => { s with delivered := s.delivered + n }
  return out

def bytes (c : Codec) (n : ℕ) : Read Bytes := do
  let s ← get
  if s.compressed then do
    fill c n (s.inner.length + 1)
    take n
  else takePlain n

def u8 (c : Codec) : Read UInt8 := return (← bytes c 1).headD 0

def varuintLoop (c : Codec) (v : UInt64) (i : ℕ) : ℕ → Read UInt64
  | 0 => throw "VarUInt longer than 10 bytes"
  | rounds + 1 => do
    let b ← u8 c
    let v := v ||| (b &&& 0x7f).toUInt64 <<< (7 * i).toUInt64
    if b &&& 0x80 = 0 then return v else varuintLoop c v (i + 1) rounds

def varuint (c : Codec) : Read UInt64 := varuintLoop c 0 0 10

def rawString (c : Codec) : Read Bytes := do
  let n ← varuint c
  check (n.toNat ≤ maxString) "string exceeds 1048576 bytes"
  bytes c n.toNat

def string (c : Codec) : Read String := return c.fromUtf8Lossy (← rawString c)

/-- The bytes of one value; what they stand for is left out. -/
def decodeValue (c : Codec) : ColType → Read Bytes
  | .string => rawString c
  | ty => bytes c ty.width

def decodeColumn (c : Codec) (rows : ℕ) : ColType → Read (List (Option Bytes))
  | .nullable inner => do
    let nulls ← bytes c rows
    nulls.mapM fun null => do
      let v ← decodeValue c inner
      return if null ≠ 0 then none else some v
  | ty => (List.range rows).mapM fun _ => return some (← decodeValue c ty)

/-- The fields of the block info, cut after so many rounds. -/
def blockInfo (c : Codec) : ℕ → Read Unit
  | 0 => throw "cut"
  | rounds + 1 => do
    match ← varuint c with
    | 0 => pure ()
    | 1 => do let _ ← u8 c; blockInfo c rounds
    | 2 => do let _ ← bytes c 4; blockInfo c rounds
    | _ => throw "unknown BlockInfo field"

structure Block where
  columns : List (String × String)
  rows : List (List (Option Bytes))

/-- One block. There is no bound on the fields of its info but the budget: they are read for at
most `rounds` rounds. -/
def decode (c : Codec) (rounds : ℕ) : Read Block := do
  blockInfo c rounds
  let ncols ← varuint c
  let nrows ← varuint c
  check (ncols.toNat ≤ maxColumns) "too many columns"
  check (nrows.toNat ≤ maxRows) "too many rows"
  let read ← (List.range ncols.toNat).mapM fun _ => do
    let name ← string c
    let ty ← string c
    match c.parse ty with
    | .error e => throw e
    | .ok col => return ((name, ty), ← decodeColumn c nrows.toNat col)
  return {
    columns := read.map Prod.fst
    rows := (List.range nrows.toNat).map fun r => read.map fun col => (col.2[r]?).join }

end NetGet.ClickHouse
