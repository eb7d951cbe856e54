import NetGet.Library.Radix
import NetGet.Model.Bytes

/-! # The small encodings of libp2p

A text is its bytes; `none` is an arithmetic overflow. -/

namespace NetGet.Libp2pWire

open Library Library.Radix

/-- The loop of `get_uvarint` at byte `i`. -/
def uvarintFrom (v : UInt64) (i : ℕ) : Bytes → Except String (UInt64 × ℕ)
  | [] => .error "truncated or overlong varint"
  | byte :: b =>
    if 10 ≤ i then .error "truncated or overlong varint"
    else
      let v := v ||| ((byte &&& 0x7f).toUInt64 <<< UInt64.ofNat (7 * i))
      if byte &&& 0x80 = 0 then .ok (v, i + 1) else uvarintFrom v (i + 1) b

def getUvarint (b : Bytes) : Except String (UInt64 × ℕ) := uvarintFrom 0 0 b

inductive PbValue where
  | varint (v : UInt64)
  | bytes (b : Bytes)
  deriving DecidableEq

/-- The loop of `pb_fields_bounded`, which reads at least a byte in each turn. -/
def pbFieldsFrom (max : ℕ) : ℕ → List (UInt32 × PbValue) → Bytes →
    Except String (List (UInt32 × PbValue))
  | _, out, [] => .ok out
  | 0, out, _ => .ok out
  | fuel + 1, out, b => do
    ensure (out.length < max) s!"protobuf message has more than {max} fields"
    let (key, n) ← getUvarint b
    let b := b.drop n
    let field := (key >>> 3).toUInt32
    match (key &&& 7).toNat with
    | 0 =>
      let (v, n) ← getUvarint b
      pbFieldsFrom max fuel (out ++ [(field, .varint v)]) (b.drop n)
    | 2 =>
      let (len, n) ← getUvarint b
      let b := b.drop n
      ensure (len.toNat ≤ b.length) "protobuf field runs past the message"
      pbFieldsFrom max fuel (out ++ [(field, .bytes (b.take len.toNat))]) (b.drop len.toNat)
    | 1 =>
      ensure (8 ≤ b.length) "truncated fixed64"
      pbFieldsFrom max fuel out (b.drop 8)
    | 5 =>
      ensure (4 ≤ b.length) "truncated fixed32"
      pbFieldsFrom max fuel out (b.drop 4)
    | w => .error s!"unsupported protobuf wire type {w}"

def pbFieldsBounded (b : Bytes) (max : ℕ) : Except String (List (UInt32 × PbValue)) :=
  pbFieldsFrom max b.length [] b

def pbFields (b : Bytes) : Except String (List (UInt32 × PbValue)) :=
  pbFieldsBounded b (2 ^ 64 - 1)

def b58 : Bytes :=
  "123456789ABCDEFGHJKLMNPQRSTUVWXYZabcdefghijkmnopqrstuvwxyz".toList.map fun c =>
    UInt8.ofNat c.toNat

inductive Base58Error where
  /-- "base58 string too long" -/
  | tooLong
  /-- "{:?} is not base58" -/
  | notBase58 (c : UInt8)
  deriving DecidableEq

def base58 (b : Bytes) : Option Bytes := do
  let zeros := (b.takeWhile (· == 0)).length
  let digits ← convert 32 58 256 (b.map UInt8.toNat)
  return List.replicate zeros 49 ++ digits.reverse.map fun d => b58.getD d 0

/-- The digit that each character stands for. -/
def digitOf (c : UInt8) : Except Base58Error ℕ :=
  (b58.idxOf? c).elim (.error (.notBase58 c)) .ok

def unbase58 (s : Bytes) : Option (Except Base58Error Bytes) :=
  if s.length > 128 then some (.error .tooLong)
  else
    let zeros := (s.takeWhile (· == 49)).length
    match s.mapM digitOf with
    | .error e => some (.error e)
    | .ok digits => do
      let bytes ← convert 32 256 58 digits
      return .ok (List.replicate zeros 0 ++ bytes.reverse.map UInt8.ofNat)

end NetGet.Libp2pWire
