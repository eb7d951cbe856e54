import NetGet.Library.BigEndian
import NetGet.Library.Decimal
import NetGet.Model.Bytes
import Mathlib.Algebra.Group.Int.Defs
import Mathlib.Data.List.Dedup
import Mathlib.Data.List.Sort

/-! # H.323: ALIGNED PER, driven by schema tables

The table is a parameter. A depth is given by the levels of nesting left: none is left behind
`maxPerDepth`. A message names what it is about and what is wrong; sums that overflow and indexes
out of range panic. -/

namespace NetGet.Per

open Library

/-! ## Schema -/

def maxPerDepth : ℕ := 40

def maxPerNodes : ℕ := 20000

def maxUnfragmented : ℕ := 16383

structure Range where
  lb : Option ℤ
  ub : Option ℤ
  ext : Bool
  deriving DecidableEq

structure Size where
  lb : ℕ
  ub : Option ℕ
  ext : Bool
  deriving DecidableEq

inductive CharKind where
  | ia5
  | bmp
  | numeric
  | printable
  | general
  deriving DecidableEq

structure Field where
  name : String
  ty : ℕ
  optional : Bool
  deriving DecidableEq

inductive Ty where
  | null
  | boolean
  | oid
  | int (range : Range)
  | enum (root : List String) (ext : Option (List String))
  | octets (size : Size)
  | bits (size : Size)
  | chars (kind : CharKind) (size : Size) (alphabet : Option String)
  | seq (root : List Field) (ext : Option (List Field))
  | choice (root : List Field) (ext : Option (List Field))
  | seqOf (size : Size) (item : ℕ)
  | alias (target : ℕ)
  | opaqueType (why : String)
  deriving DecidableEq

/-- The number of root names or alternatives, which an index is encoded for. -/
def Ty.choices : Ty → ℕ
  | .enum root _ => root.length
  | .choice root _ => root.length
  | _ => 0

/-- The tables of `schema.rs`. No slice has more than `isize::MAX` elements. -/
structure Table where
  types : List Ty
  names : List String
  choices_lt : ∀ ty ∈ types, ty.choices < 2 ^ 63

/-- A JSON value. An object is a map from keys to values; a number that is no integer is a float. -/
inductive Json where
  | null
  | bool (b : Bool)
  | number (n : ℤ)
  | float (bits : BitVec 64)
  | string (s : String)
  | array (elements : List Json)
  | object (entries : List (String × Json))

inductive Problem where
  /-- "{n}-bit field is wider than 64" -/
  | wideField (n : ℕ)
  /-- "needs {n} bits, {left} remain" -/
  | needsBits (n left : ℕ)
  /-- "declares {n} octets, {left} remain" -/
  | declaresOctets (n left : ℕ)
  /-- "declares {n} octets past the end" -/
  | octetsPastEnd (n : ℕ)
  /-- "fragmented length (≥16384) is not accepted" -/
  | fragmentedLength
  /-- "normally-small value above 63" -/
  | aboveSmall
  /-- "size {n} outside {lb}..{ub}" -/
  | sizeOutside (n lb : ℕ) (ub : Option ℕ)
  /-- "{n} needs a fragmented length" -/
  | needsFragments (n : ℕ)
  /-- "{v} is not a normally-small number" -/
  | notSmall (v : ℕ)
  /-- "nested deeper than {MAX_PER_DEPTH}" -/
  | nestedDeeper
  /-- "more than {MAX_PER_NODES} values" -/
  | tooManyValues
  /-- "enumeration index {i}" -/
  | enumerationIndex (i : ℕ)
  /-- "declares {n} bits past the end" -/
  | bitsPastEnd (n : ℕ)
  /-- "malformed OBJECT IDENTIFIER" -/
  | malformedOid
  /-- "alternative {i}" -/
  | alternative (i : ℕ)
  /-- "{n} elements" -/
  | elements (n : ℕ)
  /-- "{why} is outside NetGet's PER subset" -/
  | outsideSubset (why : String)
  /-- "{v} is above {ub}" -/
  | above (v ub : ℤ)
  /-- "{len}-octet integer" -/
  | octetInteger (len : ℕ)
  /-- "{v} above {lb} does not fit" -/
  | doesNotFit (v : ℕ) (lb : ℤ)
  /-- "{n} characters past the end" -/
  | charactersPastEnd (n : ℕ)
  /-- "character index {raw}" -/
  | characterIndex (raw : ℕ)
  /-- "character {code:#x} is not permitted" -/
  | characterNotPermitted (code : ℕ)
  /-- "NULL takes null" -/
  | takesNull
  /-- "expected a boolean" -/
  | expectedBoolean
  /-- "expected an enumeration name" -/
  | expectedName
  /-- "{name:?} is not one of {root:?}" -/
  | notOneOf (name : String) (root : List String)
  /-- "expected hex octets" -/
  | expectedHex
  /-- "expected a string of 0 and 1" -/
  | expectedBits
  /-- "expected a string" -/
  | expectedString
  /-- "{c:?} is not permitted in this string" -/
  | notPermitted (c : ℕ)
  /-- "expected a dotted OBJECT IDENTIFIER" -/
  | expectedOid
  /-- "expected an object" -/
  | expectedObject
  /-- "unknown field {key:?}" -/
  | unknownField (key : String)
  /-- "missing field {name:?}" -/
  | missingField (name : String)
  /-- "a CHOICE is an object with one key" -/
  | oneKey
  /-- "{key:?} is not an alternative" -/
  | notAlternative (key : String)
  /-- "expected an array" -/
  | expectedArray
  /-- "NetGet cannot encode {why}" -/
  | cannotEncode (why : String)
  /-- "expected an integer" -/
  | expectedInteger
  /-- "{n} outside {lb:?}..{ub:?}" -/
  | outside (n : ℤ) (lb ub : Option ℤ)
  deriving DecidableEq

inductive PerError where
  | refused (what : String) (problem : Problem)
  | panic
  deriving DecidableEq

abbrev PerResult := Except PerError

def err {α : Type} (what : String) (problem : Problem) : PerResult α :=
  .error (.refused what problem)

def orErr {α : Type} (o : Option α) (what : String) (problem : Problem) : PerResult α :=
  o.elim (err what problem) .ok

/-- The result of an operation on `i64`, which panics on overflow. -/
def signed64 (i : ℤ) : PerResult ℤ :=
  if -2 ^ 63 ≤ i ∧ i < 2 ^ 63 then .ok i else .error .panic

/-- The result of an operation on `u64`, which panics on overflow. -/
def unsigned64 (n : ℕ) : PerResult ℕ := if n < 2 ^ 64 then .ok n else .error .panic

def asU64 (i : ℤ) : ℕ := (i % 2 ^ 64).toNat

def asI64 (n : ℕ) : ℤ := (n : ℤ).bmod (2 ^ 64)

/-! ## Widths -/

/-- `64 - n.leading_zeros()` -/
def bitLength (n : ℕ) : ℕ := if n = 0 then 0 else n.log2 + 1

def bitsForRange (range : ℕ) : ℕ := if range ≤ 1 then 0 else bitLength (range - 1)

def octetsFor (value : ℕ) : ℕ := max ((bitLength value + 7) / 8) 1

def listedChars (kind : CharKind) : Option String → List ℕ
  | some a => a.toList.map Char.toNat
  | none =>
    match kind with
    | .numeric => " 0123456789".toList.map Char.toNat
    | .printable =>
      "ABCDEFGHIJKLMNOPQRSTUVWXYZabcdefghijklmnopqrstuvwxyz0123456789 '()+,-./:=?".toList.map
        Char.toNat
    | .ia5 => List.range 128
    | .bmp => []
    | .general => List.range 256

/-- The permitted characters, sorted by value, and the bits per character. -/
def alphabet (kind : CharKind) (source : Option String) : List ℕ × ℕ :=
  let chars := ((listedChars kind source).insertionSort (· ≤ ·)).dedup
  if kind = .bmp ∧ source = none then (chars, 16)
  else if kind = .general then (chars, 8)
  else
    let bits := bitsForRange chars.length
    (chars, if bits ≤ 1 then bits else if bits = 2 then 2 else if bits ≤ 4 then 4
      else if bits ≤ 8 then 8 else 16)

def remapped (set : List ℕ) (b : ℕ) : Bool := set.getLast?.any fun max => 2 ^ b - 1 < max

/-- `char::from_u32(code).unwrap_or('\u{fffd}')` -/
def charOf (code : ℕ) : Char :=
  if h : code.isValidChar then Char.ofNatAux code h else '�'

def Size.fixed (size : Size) : Bool := !size.ext && size.ub == some size.lb

def charsAligned (size : Size) (n b : ℕ) : Bool := decide (0 < n) && size.ub.all fun ub => 16 < ub * b

/-! ## Bit reader -/

structure Reader where
  data : Bytes
  pos : ℕ
  deriving DecidableEq

namespace Reader

def remainingBits (r : Reader) : ℕ := r.data.length * 8 - r.pos

def align (r : Reader) : Reader :=
  { r with pos := min ((r.pos + 7) / 8 * 8) (r.data.length * 8) }

def bitsLoop (data : Bytes) : ℕ → ℕ → ℕ → ℕ
  | 0, _, value => value
  | n + 1, pos, value =>
    let byte := data.getD (pos / 8) 0
    bitsLoop data n (pos + 1) (value * 2 + byte.toNat / 2 ^ (7 - pos % 8) % 2)

def bits (r : Reader) (n : ℕ) (what : String) : PerResult (ℕ × Reader) :=
  if 64 < n then err what (.wideField n)
  else if r.remainingBits < n then err what (.needsBits n r.remainingBits)
  else .ok (bitsLoop r.data n r.pos 0, { r with pos := r.pos + n })

/-- The bit that says whether an extension is used, in front of an extensible type. -/
def extension (r : Reader) (ext : Bool) (what : String) : PerResult (ℕ × Reader) :=
  if ext then r.bits 1 what else .ok (0, r)

def octets (r : Reader) (n : ℕ) (what : String) : PerResult (Bytes × Reader) :=
  let r := r.align
  let start := r.pos / 8
  if r.data.length - start < n then err what (.declaresOctets n (r.data.length - start))
  else .ok ((r.data.drop start).take n, { r with pos := r.pos + n * 8 })

def octetsLoop (what : String) : ℕ → Reader → PerResult (Bytes × Reader)
  | 0, r => .ok ([], r)
  | n + 1, r => do
    let (b, r) ← r.bits 8 what
    let (bytes, r) ← octetsLoop what n r
    return (UInt8.ofNat b :: bytes, r)

def octetsUnaligned (r : Reader) (n : ℕ) (what : String) : PerResult (Bytes × Reader) :=
  if r.remainingBits < n * 8 then err what (.octetsPastEnd n) else octetsLoop what n r

/-- Constrained whole number below `range`. -/
def whole (r : Reader) (range : ℕ) (what : String) : PerResult (ℕ × Reader) :=
  if range ≤ 1 then .ok (0, r)
  else if range ≤ 255 then r.bits (bitsForRange range) what
  else if range = 256 then r.align.bits 8 what
  else if range ≤ 65536 then r.align.bits 16 what
  else do
    let (len, r) ← r.bits (bitsForRange (octetsFor (range - 1))) what
    let (raw, r) ← r.octets (len + 1) what
    return (fromBe raw, r)

def generalLength (r : Reader) (what : String) : PerResult (ℕ × Reader) := do
  let (first, r) ← r.align.bits 8 what
  if first < 0x80 then return (first, r)
  else if first < 0xC0 then
    let (second, r) ← r.bits 8 what
    return (first % 0x40 * 256 + second, r)
  else err what .fragmentedLength

def normallySmall (r : Reader) (what : String) : PerResult (ℕ × Reader) := do
  let (large, r) ← r.bits 1 what
  if large = 1 then err what .aboveSmall
  else r.bits 6 what

/-- The part of `length` without an extension. -/
def rootLength (r : Reader) (size : Size) (what : String) : PerResult (ℕ × Reader) :=
  match size.ub with
  | some ub =>
    if ub = size.lb then .ok (ub, r)
    else if ub < 65536 then
      -- `ub - size.lb` on `u32`
      if ub < size.lb then .error .panic
      else do
        let (n, r) ← r.whole (ub - size.lb + 1) what
        return (size.lb + n, r)
    else r.generalLength what
  | none => r.generalLength what

def length (r : Reader) (size : Size) (what : String) : PerResult (ℕ × Reader) := do
  let (extended, r) ← r.extension size.ext what
  if extended = 1 then r.generalLength what
  else
    let (n, r) ← r.rootLength size what
    if n < size.lb ∨ size.ub.any (· < n) then err what (.sizeOutside n size.lb size.ub)
    else return (n, r)

def openType (r : Reader) (what : String) : PerResult (Bytes × Reader) := do
  let (len, r) ← r.generalLength what
  r.octets len what

def flags (what : String) : ℕ → Reader → PerResult (List Bool × Reader)
  | 0, r => .ok ([], r)
  | n + 1, r => do
    let (bit, r) ← r.bits 1 what
    let (rest, r) ← flags what n r
    return ((bit == 1) :: rest, r)

end Reader

/-! ## Bit writer -/

structure Writer where
  data : Bytes
  bitLen : ℕ
  deriving DecidableEq

namespace Writer

def new : Writer := { data := [], bitLen := 0 }

def bit (w : Writer) (bit : Bool) : Writer :=
  let data := if w.bitLen % 8 = 0 then w.data ++ [0] else w.data
  let data :=
    if bit then data.modify (data.length - 1) (· ||| UInt8.ofNat (2 ^ (7 - w.bitLen % 8))) else data
  { data, bitLen := w.bitLen + 1 }

def bits (w : Writer) (value : ℕ) : ℕ → Writer
  | 0 => w
  | n + 1 => (w.bit (value.testBit n)).bits value n

def extension (w : Writer) (ext used : Bool) : Writer := if ext then w.bits used.toNat 1 else w

def align (w : Writer) : Writer := { w with bitLen := (w.bitLen + 7) / 8 * 8 }

def octets (w : Writer) (bytes : Bytes) : Writer :=
  let w := w.align
  { data := w.data ++ bytes, bitLen := w.bitLen + bytes.length * 8 }

def octetsUnaligned (w : Writer) (bytes : Bytes) : Writer :=
  bytes.foldl (fun w b => w.bits b.toNat 8) w

/-- The loop of `whole` over the octets of `v`. -/
def wholeOctets (w : Writer) (v : ℕ) : ℕ → Writer
  | 0 => w
  | len + 1 => (w.bits (v / 2 ^ (8 * len) % 256) 8).wholeOctets v len

def whole (w : Writer) (v range : ℕ) : Writer :=
  if range ≤ 1 then w
  else if range ≤ 255 then w.bits v (bitsForRange range)
  else if range = 256 then w.align.bits v 8
  else if range ≤ 65536 then w.align.bits v 16
  else
    let len := octetsFor v
    ((w.bits (len - 1) (bitsForRange (octetsFor (range - 1)))).align).wholeOctets v len

def generalLength (w : Writer) (n : ℕ) (what : String) : PerResult Writer :=
  let w := w.align
  if n < 128 then .ok (w.bits n 8)
  else if n ≤ maxUnfragmented then .ok (w.bits (0x8000 + n) 16)
  else err what (.needsFragments n)

def normallySmall (w : Writer) (v : ℕ) (what : String) : PerResult Writer :=
  if 63 < v then err what (.notSmall v) else .ok ((w.bits 0 1).bits v 6)

def length (w : Writer) (n : ℕ) (size : Size) (what : String) : PerResult Writer :=
  if n < size.lb ∨ size.ub.any (· < n) then err what (.sizeOutside n size.lb size.ub)
  else
    let w := w.extension size.ext false
    match size.ub with
    | some ub =>
      if ub = size.lb then .ok w
      else if ub < 65536 then .ok (w.whole (n - size.lb) (ub - size.lb + 1))
      else w.generalLength n what
    | none => w.generalLength n what

def openType (w : Writer) (inner : Bytes) (what : String) : PerResult Writer := do
  let w ← w.generalLength inner.length what
  return w.octets inner

def flags (w : Writer) (flags : List Bool) : Writer :=
  flags.foldl (fun w flag => w.bits flag.toNat 1) w

def finish (w : Writer) : Bytes := if w.data.isEmpty then [0] else w.data

end Writer

/-! ## Texts of octets and of object identifiers -/

def hexDigit (n : ℕ) : Char := Char.ofNat (if n < 10 then 48 + n else 87 + n)

def hexEncode (raw : Bytes) : String :=
  String.ofList (raw.flatMap fun b => [hexDigit (b.toNat / 16), hexDigit (b.toNat % 16)])

def hexValue (c : Char) : Option ℕ :=
  if '0' ≤ c ∧ c ≤ '9' then some (c.toNat - 48)
  else if 'a' ≤ c ∧ c ≤ 'f' then some (c.toNat - 87)
  else if 'A' ≤ c ∧ c ≤ 'F' then some (c.toNat - 55)
  else none

def hexPairs : List Char → Option Bytes
  | [] => some []
  | high :: low :: rest => do
    let h ← hexValue high
    let l ← hexValue low
    let bytes ← hexPairs rest
    return UInt8.ofNat (h * 16 + l) :: bytes
  | [_] => none

def hexDecode (s : String) : Option Bytes := hexPairs s.toList

def oidLoop : Bytes → List ℕ → ℕ → Bool → Option (List ℕ)
  | [], arcs, _, inArc => if inArc then none else some arcs
  | b :: raw, arcs, acc, _ =>
    -- `u64::MAX >> 8`
    if 2 ^ 56 - 1 < acc then none
    else
      let acc := acc * 128 + b.toNat % 128
      if b.toNat < 128 then
        let arcs :=
          if arcs.isEmpty then
            let first := min (acc / 40) 2
            [first, acc - first * 40]
          else arcs ++ [acc]
        oidLoop raw arcs 0 false
      else oidLoop raw arcs acc true

def dotted (arcs : List ℕ) : String := ".".intercalate (arcs.map toString)

def oidToString (raw : Bytes) : Option String :=
  if raw.isEmpty ∨ 64 < raw.length then none else (oidLoop raw [] 0 false).map dotted

def oidArcs (s : String) : Option (List ℕ) := ((utf8 s).splitOn 46).mapM (parseUnsigned 64)

/-- The octets of an arc in front of its last one. A `u64` has at most ten. -/
def septets : ℕ → ℕ → Bytes
  | 0, _ => []
  | rounds + 1, v =>
    if v = 0 then [] else septets rounds (v / 128) ++ [UInt8.ofNat (v % 128 + 128)]

def oidArc (v : ℕ) : Bytes := septets 10 (v / 128) ++ [UInt8.ofNat (v % 128)]

def oidFromString (s : String) : PerResult (Option Bytes) :=
  match oidArcs s with
  | some (first :: second :: rest) =>
    if 2 < first ∨ first < 2 ∧ 40 ≤ second ∨ 32 < rest.length + 2 then .ok none
    else do
      let head ← unsigned64 (first * 40 + second)
      return some (oidArc head ++ rest.flatMap oidArc)
  | _ => .ok none

/-! ## Integers -/

def unconstrained (r : Reader) (what : String) : PerResult (ℤ × Reader) := do
  let (len, r) ← r.generalLength what
  if len = 0 ∨ 8 < len then err what (.octetInteger len)
  else
    let (raw, r) ← r.octets len what
    let start : ℤ := if 128 ≤ (raw.headD 0).toNat then -1 else 0
    return (raw.foldl (fun v b => v * 256 + b.toNat) start, r)

def integer (r : Reader) (range : Range) (what : String) : PerResult (ℤ × Reader) := do
  let (extended, r) ← r.extension range.ext what
  if extended = 1 then unconstrained r what
  else
    match range.lb, range.ub with
    | some lb, some ub =>
      let width ← signed64 (ub - lb)
      let span ← unsigned64 (asU64 width + 1)
      let (v, r) ← r.whole span what
      let v ← signed64 (lb + asI64 v)
      if ub < v then err what (.above v ub) else return (v, r)
    | some lb, none =>
      let (len, r) ← r.generalLength what
      if len = 0 ∨ 8 < len then err what (.octetInteger len)
      else
        let (raw, r) ← r.octets len what
        let v := fromBe raw
        if v < 2 ^ 63 ∧ lb + v < 2 ^ 63 then return (lb + v, r) else err what (.doesNotFit v lb)
    | _, _ => unconstrained r what

/-- The bytes of a number without those that only repeat its sign. -/
def significant : Bytes → Bytes
  | a :: b :: rest =>
    if a = 0 ∧ b.toNat < 128 ∨ a = 255 ∧ 128 ≤ b.toNat then significant (b :: rest)
    else a :: b :: rest
  | bytes => bytes

def putUnconstrained (w : Writer) (n : ℤ) (what : String) : PerResult Writer := do
  let bytes := significant (toBe 8 (asU64 n))
  let w ← w.generalLength bytes.length what
  return w.octets bytes

def Json.asI64 : Json → Option ℤ
  | .number n => if -2 ^ 63 ≤ n ∧ n < 2 ^ 63 then some n else none
  | _ => none

def putInteger (w : Writer) (range : Range) (v : Json) (what : String) : PerResult Writer := do
  let n ← orErr v.asI64 what .expectedInteger
  if range.lb.any (n < ·) ∨ range.ub.any (· < n) then
    if range.ext then putUnconstrained (w.bits 1 1) n what
    else err what (.outside n range.lb range.ub)
  else
    let w := w.extension range.ext false
    match range.lb, range.ub with
    | some lb, some ub =>
      let v ← signed64 (n - lb)
      let width ← signed64 (ub - lb)
      let span ← unsigned64 (asU64 width + 1)
      return w.whole (asU64 v) span
    | some lb, none =>
      let v ← signed64 (n - lb)
      let len := octetsFor (asU64 v)
      let w ← w.generalLength len what
      return w.octets (toBe len (asU64 v))
    | _, _ => putUnconstrained w n what

/-! ## Strings -/

def codeOf (set : List ℕ) (b raw : ℕ) (what : String) : PerResult ℕ :=
  if remapped set b then orErr set[raw]? what (.characterIndex raw) else .ok raw

def charsLoop (set : List ℕ) (b : ℕ) (what : String) : ℕ → Reader → PerResult (List Char × Reader)
  | 0, r => .ok ([], r)
  | n + 1, r => do
    let (raw, r) ← r.bits b what
    let code ← codeOf set b raw what
    if !set.isEmpty && !remapped set b && !set.contains code then
      err what (.characterNotPermitted code)
    else
      let (rest, r) ← charsLoop set b what n r
      return (charOf code :: rest, r)

def chars (r : Reader) (kind : CharKind) (size : Size) (source : Option String) (what : String) :
    PerResult (String × Reader) := do
  let (set, b) := alphabet kind source
  let (n, r) ← r.length size what
  if r.remainingBits < n * b then err what (.charactersPastEnd n)
  else
    let r := if charsAligned size n b then r.align else r
    let (s, r) ← charsLoop set b what n r
    return (String.ofList s, r)

def permitted (set : List ℕ) (c : ℕ) : Bool :=
  if set.isEmpty then decide (c ≤ 0xFFFF) && !(decide (0xD800 ≤ c) && decide (c < 0xE000))
  else set.contains c

def charCode (set : List ℕ) (b c : ℕ) : ℕ := if remapped set b then set.idxOf c else c

def putChars (w : Writer) (kind : CharKind) (size : Size) (source : Option String) (s : String)
    (what : String) : PerResult Writer :=
  let (set, b) := alphabet kind source
  let codes := s.toList.map Char.toNat
  match codes.find? fun c => !permitted set c with
  | some c => err what (.notPermitted c)
  | none => do
    let w ← w.length codes.length size what
    let w := if charsAligned size codes.length b then w.align else w
    return codes.foldl (fun w c => w.bits (charCode set b c) b) w

def octetString (r : Reader) (size : Size) (what : String) : PerResult (Bytes × Reader) := do
  let (n, r) ← r.length size what
  if n = 0 then return ([], r)
  else if size.fixed && n ≤ 2 then r.octetsUnaligned n what
  else r.octets n what

def putOctetString (w : Writer) (size : Size) (raw : Bytes) (what : String) : PerResult Writer := do
  let w ← w.length raw.length size what
  if raw.isEmpty then return w
  else if size.fixed && raw.length ≤ 2 then return w.octetsUnaligned raw
  else return w.octets raw

/-- Whether the bits of a bit string start at an octet. -/
def bitsAligned (size : Size) (n : ℕ) : Bool := decide (0 < n) && !(size.fixed && n ≤ 16)

def bitString (r : Reader) (size : Size) (what : String) : PerResult (String × Reader) := do
  let (n, r) ← r.length size what
  if r.remainingBits < n then err what (.bitsPastEnd n)
  else
    let r := if bitsAligned size n then r.align else r
    let (bits, r) ← r.flags what n
    return (String.ofList (bits.map fun bit => if bit then '1' else '0'), r)

def putBitString (w : Writer) (size : Size) (s : String) (what : String) : PerResult Writer := do
  let w ← w.length s.toList.length size what
  let w := if bitsAligned size s.toList.length then w.align else w
  return w.flags (s.toList.map (· == '1'))

/-! ## Decode -/

def join (path name : String) : String := if path.isEmpty then name else s!"{path}.{name}"

namespace Table

def ty (t : Table) (index : ℕ) : PerResult Ty := t.types[index]?.elim (.error .panic) .ok

def what (t : Table) (index : ℕ) (path : String) : String :=
  if path.isEmpty then t.names[index]?.getD "value" else path

def resolveLoop (t : Table) : ℕ → ℕ → PerResult Ty
  | 0, index => t.ty index
  | rounds + 1, index => do
    match ← t.ty index with
    | .alias target => t.resolveLoop rounds target
    | other => return other

def resolve (t : Table) (index : ℕ) : PerResult Ty := t.resolveLoop 16 index

end Table

/-- `Map::insert` -/
def insertEntry (entries : List (String × Json)) (key : String) (v : Json) :
    List (String × Json) :=
  (key, v) :: entries.filter fun e => e.1 != key

/-- Decode a value: from the type, the path, the reader and the values so far. -/
abbrev DecodeValue := ℕ → String → Reader → ℕ → PerResult ((Json × ℕ) × Reader)

def enumerated (r : Reader) (root : List String) (ext : Option (List String)) (what : String) :
    PerResult (String × Reader) := do
  let (extended, r) ← r.extension ext.isSome what
  if extended = 1 then
    let (i, r) ← r.normallySmall what
    return ((ext.bind (·[i]?)).getD s!"_unknown_{i}", r)
  else
    let (i, r) ← r.whole root.length what
    let name ← orErr root[i]? what (.enumerationIndex i)
    return (name, r)

/-- The loop over the root fields. A flag is taken for every optional one. -/
def decodeFields (value : DecodeValue) (path : String) : List Field → List Bool →
    List (String × Json) → Reader → ℕ → PerResult ((List (String × Json) × ℕ) × Reader)
  | [], _, entries, r, nodes => .ok ((entries, nodes), r)
  | f :: root, present, entries, r, nodes =>
    if f.optional && !present.headD false then
      decodeFields value path root present.tail entries r nodes
    else do
      let ((v, nodes), r) ← value f.ty (join path f.name) r nodes
      let present := if f.optional then present.tail else present
      decodeFields value path root present (insertEntry entries f.name v) r nodes

def decodeOpen (value : DecodeValue) (index : ℕ) (inner : Bytes) (path : String) (nodes : ℕ) :
    PerResult (Json × ℕ) := do
  let (result, _) ← value index path { data := inner, pos := 0 } nodes
  return result

def decodeAddition (t : Table) (value : DecodeValue) (path : String) (f : Field) (inner : Bytes)
    (nodes : ℕ) : PerResult (Json × ℕ) := do
  match ← t.resolve f.ty with
  | .opaqueType _ => return (.object [("_opaque_octets", .number inner.length)], nodes)
  | _ => decodeOpen value f.ty inner (join path f.name) nodes

def decodeAdditions (t : Table) (value : DecodeValue) (path what : String) : List Bool →
    List Field → List (String × Json) → Reader → ℕ →
    PerResult ((List (String × Json) × ℕ) × Reader)
  | [], _, entries, r, nodes => .ok ((entries, nodes), r)
  | false :: bitmap, additions, entries, r, nodes =>
    decodeAdditions t value path what bitmap additions.tail entries r nodes
  | true :: bitmap, additions, entries, r, nodes => do
    let (inner, r) ← r.openType what
    match additions with
    | [] => decodeAdditions t value path what bitmap [] entries r nodes
    | f :: additions =>
      let (v, nodes) ← decodeAddition t value path f inner nodes
      decodeAdditions t value path what bitmap additions (insertEntry entries f.name v) r nodes

/-- The part of `sequence` behind the root fields. -/
def decodeExtensions (t : Table) (value : DecodeValue) (path what : String) (ext : List Field)
    (extended : ℕ) (entries : List (String × Json)) (r : Reader) (nodes : ℕ) :
    PerResult ((List (String × Json) × ℕ) × Reader) :=
  if extended = 1 then do
    let (n, r) ← r.normallySmall what
    let (bitmap, r) ← r.flags what (n + 1)
    decodeAdditions t value path what bitmap ext entries r nodes
  else .ok ((entries, nodes), r)

def sequence (t : Table) (value : DecodeValue) (root : List Field) (ext : Option (List Field))
    (path : String) (r : Reader) (nodes : ℕ) : PerResult ((Json × ℕ) × Reader) := do
  let what := if path.isEmpty then "sequence" else path
  let (extended, r) ← r.extension ext.isSome what
  let (present, r) ← r.flags what (root.filter Field.optional).length
  let ((entries, nodes), r) ← decodeFields value path root present [] r nodes
  let ((entries, nodes), r) ←
    decodeExtensions t value path what (ext.getD []) extended entries r nodes
  return ((.object entries, nodes), r)

def decodeChoice (value : DecodeValue) (root : List Field) (ext : Option (List Field))
    (path what : String) (r : Reader) (nodes : ℕ) : PerResult ((Json × ℕ) × Reader) := do
  let (extended, r) ← r.extension ext.isSome what
  if extended = 1 then
    let (i, r) ← r.normallySmall what
    let (inner, r) ← r.openType what
    match ext.bind (·[i]?) with
    | some f =>
      let (v, nodes) ← decodeOpen value f.ty inner (join path f.name) nodes
      return ((.object [(f.name, v)], nodes), r)
    | none => return ((.object [("_unknown_extension", .number i)], nodes), r)
  else
    let (i, r) ← r.whole root.length what
    let f ← orErr root[i]? what (.alternative i)
    let ((v, nodes), r) ← value f.ty (join path f.name) r nodes
    return ((.object [(f.name, v)], nodes), r)

def decodeElements (value : DecodeValue) (item : ℕ) (path : String) (i : ℕ) : ℕ → Reader → ℕ →
    PerResult ((List Json × ℕ) × Reader)
  | 0, r, nodes => .ok (([], nodes), r)
  | n + 1, r, nodes => do
    let ((v, nodes), r) ← value item s!"{path}[{i}]" r nodes
    let ((vs, nodes), r) ← decodeElements value item path (i + 1) n r nodes
    return ((v :: vs, nodes), r)

def leaf {α : Type} (f : α → Json) (nodes : ℕ) (x : PerResult (α × Reader)) :
    PerResult ((Json × ℕ) × Reader) := do
  let (a, r) ← x
  return ((f a, nodes), r)

/-- Decode a value, with levels of nesting left. -/
def Table.value (t : Table) : ℕ → DecodeValue
  | 0, _, path, _, _ => err path .nestedDeeper
  | levels + 1, index, path, r, nodes =>
    let nodes := nodes + 1
    if maxPerNodes < nodes then err path .tooManyValues
    else do
      let what := t.what index path
      match ← t.ty index with
      | .alias target => t.value levels target path r nodes
      | .null => return ((.null, nodes), r)
      | .boolean => leaf (fun bit => .bool (bit == 1)) nodes (r.bits 1 what)
      | .int range => leaf .number nodes (integer r range what)
      | .enum root ext => leaf .string nodes (enumerated r root ext what)
      | .octets size => leaf (fun raw => .string (hexEncode raw)) nodes (octetString r size what)
      | .bits size => leaf .string nodes (bitString r size what)
      | .chars kind size source => leaf .string nodes (chars r kind size source what)
      | .oid =>
        let (len, r) ← r.generalLength what
        let (raw, r) ← r.octets len what
        let s ← orErr (oidToString raw) what .malformedOid
        return ((.string s, nodes), r)
      | .seq root ext => sequence t (t.value levels) root ext path r nodes
      | .choice root ext => decodeChoice (t.value levels) root ext path what r nodes
      | .seqOf size item =>
        let (n, r) ← r.length size what
        if maxPerNodes < n then err what (.elements n)
        else
          let ((vs, nodes), r) ← decodeElements (t.value levels) item path 0 n r nodes
          return ((.array vs, nodes), r)
      | .opaqueType why => err what (.outsideSubset why)

def Table.decode (t : Table) (root : ℕ) (data : Bytes) : PerResult Json := do
  let ((v, _), _) ← t.value (maxPerDepth + 1) root "" { data, pos := 0 } 0
  return v

/-! ## Encode -/

def entry (entries : List (String × Json)) (key : String) : Option Json := entries.lookup key

/-- Encode a value behind what is written: from the type, the value and the path. -/
abbrev EncodeValue := Writer → ℕ → Json → String → PerResult Writer

def putEnumerated (w : Writer) (root : List String) (ext : Option (List String)) (name : String)
    (what : String) : PerResult Writer :=
  match root.findIdx? (· == name) with
  | some i => .ok ((w.extension ext.isSome false).whole i root.length)
  | none =>
    match ext.bind fun names => names.findIdx? (· == name) with
    | some i => (w.bits 1 1).normallySmall i what
    | none => err what (.notOneOf name root)

def putFields (put : EncodeValue) (entries : List (String × Json)) (path what : String) :
    List Field → Writer → PerResult Writer
  | [], w => .ok w
  | f :: root, w =>
    match entry entries f.name with
    | some v => do
      let w ← put w f.ty v (join path f.name)
      putFields put entries path what root w
    | none =>
      if f.optional then putFields put entries path what root w
      else err what (.missingField f.name)

def putOpen (put : EncodeValue) (w : Writer) (index : ℕ) (v : Json) (path what : String) :
    PerResult Writer := do
  let inner ← put .new index v path
  w.openType inner.finish what

def putAdditions (put : EncodeValue) (entries : List (String × Json)) (path what : String) :
    List Field → Writer → PerResult Writer
  | [], w => .ok w
  | f :: additions, w =>
    match entry entries f.name with
    | some v => do
      let w ← putOpen put w f.ty v (join path f.name) what
      putAdditions put entries path what additions w
    | none => putAdditions put entries path what additions w

def rposition {α : Type} (p : α → Bool) : List α → Option ℕ
  | [] => none
  | a :: l =>
    match rposition p l with
    | some i => some (i + 1)
    | none => if p a then some 0 else none

/-- The part of a sequence behind the root fields. The bitmap runs to the last addition that is
present. -/
def putExtensions (put : EncodeValue) (entries : List (String × Json)) (path what : String)
    (ext : List Field) (w : Writer) : PerResult Writer :=
  let has := fun f : Field => (entry entries f.name).isSome
  if (ext.filter has).isEmpty then .ok w
  else do
    let last := (rposition has ext).getD 0
    let all := ext.take (last + 1)
    let w ← w.normallySmall last what
    putAdditions put entries path what all (w.flags (all.map has))

def putSequence (put : EncodeValue) (w : Writer) (root : List Field) (ext : Option (List Field))
    (entries : List (String × Json)) (path what : String) : PerResult Writer :=
  let known := fun key => root.any (·.name == key) || (ext.getD []).any (·.name == key)
  let has := fun f : Field => (entry entries f.name).isSome
  match entries.find? fun e => !known e.1 with
  | some e => err what (.unknownField e.1)
  | none => do
    let additions := (ext.getD []).filter has
    let w := w.extension ext.isSome (!additions.isEmpty)
    let w := w.flags ((root.filter Field.optional).map has)
    let w ← putFields put entries path what root w
    putExtensions put entries path what (ext.getD []) w

def putChoice (put : EncodeValue) (w : Writer) (root : List Field) (ext : Option (List Field))
    (entries : List (String × Json)) (path what : String) : PerResult Writer :=
  match entries with
  | [(key, v)] =>
    match root.findIdx? (·.name == key) with
    | some i => do
      let w := (w.extension ext.isSome false).whole i root.length
      let f ← root[i]?.elim (.error .panic) .ok
      put w f.ty v (join path key)
    | none =>
      match ext.bind fun fields => fields.findIdx? (·.name == key) with
      | some i => do
        let w ← (w.bits 1 1).normallySmall i what
        let f ← (ext.getD [])[i]?.elim (.error .panic) .ok
        putOpen put w f.ty v (join path key) what
      | none => err what (.notAlternative key)
  | _ => err what .oneKey

def putElements (put : EncodeValue) (item : ℕ) (path : String) : ℕ → List Json → Writer →
    PerResult Writer
  | _, [], w => .ok w
  | i, v :: vs, w => do
    let w ← put w item v s!"{path}[{i}]"
    putElements put item path (i + 1) vs w

def Json.asStr : Json → Option String
  | .string s => some s
  | _ => none

def Table.put (t : Table) : ℕ → EncodeValue
  | 0, _, _, _, path => err path .nestedDeeper
  | levels + 1, w, index, v, path => do
    let what := t.what index path
    match ← t.ty index with
    | .alias target => t.put levels w target v path
    | .null =>
      match v with
      | .null => return w
      | _ => err what .takesNull
    | .boolean =>
      match v with
      | .bool b => return w.bits b.toNat 1
      | _ => err what .expectedBoolean
    | .int range => putInteger w range v what
    | .enum root ext =>
      let name ← orErr v.asStr what .expectedName
      putEnumerated w root ext name what
    | .octets size =>
      let raw ← orErr (v.asStr.bind hexDecode) what .expectedHex
      putOctetString w size raw what
    | .bits size =>
      let s ← orErr (v.asStr.filter fun s => s.toList.all fun c => c == '0' || c == '1') what
        .expectedBits
      putBitString w size s what
    | .chars kind size source =>
      let s ← orErr v.asStr what .expectedString
      putChars w kind size source s what
    | .oid =>
      let raw ← v.asStr.elim (.ok none) oidFromString
      let raw ← orErr raw what .expectedOid
      let w ← w.generalLength raw.length what
      return w.octets raw
    | .seq root ext =>
      match v with
      | .object entries => putSequence (t.put levels) w root ext entries path what
      | _ => err what .expectedObject
    | .choice root ext =>
      match v with
      | .object entries => putChoice (t.put levels) w root ext entries path what
      | _ => err what .oneKey
    | .seqOf size item =>
      match v with
      | .array vs => do
        let w ← w.length vs.length size what
        putElements (t.put levels) item path 0 vs w
      | _ => err what .expectedArray
    | .opaqueType why => err what (.cannotEncode why)

def Table.encode (t : Table) (root : ℕ) (value : Json) : PerResult Bytes := do
  let w ← t.put (maxPerDepth + 1) .new root value ""
  return w.finish

end NetGet.Per
