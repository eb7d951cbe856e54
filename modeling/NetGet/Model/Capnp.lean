import Mathlib
import NetGet.Model.Bytes

/-! # Cap'n Proto: the reader of messages and the builder

A reader is a place in the message it was made for. The message keeps the words that may still be
visited in a counter of its own, which every call takes and gives back here. -/

namespace NetGet.Capnp

/-- A call fails with an error that it returns, or it panics. -/
inductive Failure where
  | error (reason : String)
  | panic
  deriving DecidableEq

abbrev Result := Except Failure

def ensure (condition : Bool) (reason : String) : Result Unit :=
  if condition then .ok () else .error (.error reason)

/-- The result of an operation on unsigned integers of `w` bits, which panics on overflow. -/
def unsigned (w n : ℕ) : Result ℕ := if n < 2 ^ w then .ok n else .error .panic

/-- The result of an operation on `i64`, which panics on overflow. -/
def signed64 (i : ℤ) : Result ℤ :=
  if -2 ^ 63 ≤ i ∧ i < 2 ^ 63 then .ok i else .error .panic

def maxMessageBytes : ℕ := 4 * 1024 * 1024

def maxMessageWords : ℕ := maxMessageBytes / 8

def maxDepth : ℕ := 64

def traversalLimitWords : ℕ := 4 * maxMessageWords

abbrev Word := BitVec 64

inductive ElementSize where
  | void
  | bit
  | byte
  | twoBytes
  | fourBytes
  | eightBytes
  | pointer
  | composite
  deriving DecidableEq

namespace ElementSize

def fromBits : ℕ → ElementSize
  | 0 => void
  | 1 => bit
  | 2 => byte
  | 3 => twoBytes
  | 4 => fourBytes
  | 5 => eightBytes
  | 6 => pointer
  | _ => composite

def bits : ElementSize → ℕ
  | void => 0
  | bit => 1
  | byte => 2
  | twoBytes => 3
  | fourBytes => 4
  | eightBytes => 5
  | pointer => 6
  | composite => 7

def width : ElementSize → ℕ
  | void => 0
  | bit => 1
  | byte => 8
  | twoBytes => 16
  | fourBytes => 32
  | eightBytes => 64
  | pointer => 64
  | composite => 0

end ElementSize

/-- A message being read. No vector is larger than `isize::MAX` bytes. -/
structure Message where
  segments : List (List Word)
  length_lt : ∀ s ∈ segments, s.length < 2 ^ 60

structure StructReader where
  seg : ℕ
  data : ℕ
  dataWords : ℕ
  ptrs : ℕ
  ptrCount : ℕ
  depth : ℕ
  deriving DecidableEq

/-- A list. `words` is the number of words its pointer gives it; it is not in the source and read by
nothing. -/
structure ListReader where
  seg : ℕ
  start : ℕ
  len : ℕ
  size : ElementSize
  dataWords : ℕ
  ptrCount : ℕ
  depth : ℕ
  words : ℕ
  deriving DecidableEq

inductive Target where
  | null
  | struct (s : StructReader)
  | list (l : ListReader)
  | capability (index : ℕ)
  deriving DecidableEq

/-- A pointer word that is no far pointer, and the place from which its offset counts. It is
`tagged` if it is the tag of a double-far landing pad, which has no offset. -/
structure Located where
  seg : ℕ
  origin : ℤ
  word : Word
  tagged : Bool
  deriving DecidableEq

namespace Located

/-- `(w as u32 as i32) >> 2` -/
def offset (l : Located) : ℤ := if l.tagged then 0 else ((l.word.setWidth 32).sshiftRight 2).toInt

end Located

namespace Message

def charge (budget words : ℕ) : Result ℕ := do
  ensure (max words 1 ≤ budget) "message traversal limit exceeded"
  return budget - max words 1

def word (m : Message) (seg pos : ℕ) : Result Word :=
  (m.segments[seg]?.bind fun s => s[pos]?).elim (.error (.error "pointer outside its segment")) .ok

def index (m : Message) (seg pos : ℕ) : Result Word :=
  (m.segments[seg]?.bind fun s => s[pos]?).elim (.error .panic) .ok

def checkRange (m : Message) (seg start words : ℕ) : Result Unit := do
  let s ← m.segments[seg]?.elim (.error (.error "no such segment")) .ok
  let stop ← unsigned 64 (start + words)
  ensure (stop ≤ s.length) "pointer target outside its segment"

/-- The first part of `follow`: the pointer stored at `pos`, behind its far pointers. -/
def locate (m : Message) (seg pos : ℕ) : Result (Option Located) := do
  let word ← m.word seg pos
  if word = 0 then return none
  let origin ← signed64 (pos + 1)
  if word &&& 3 = 2 then
    let pad := ((word >>> 3) &&& 0x1fffffff).toNat
    let targetSeg := (word >>> 32).toNat
    if word &&& 4 = 0 then
      let word ← m.word targetSeg pad
      ensure (word &&& 3 ≠ 2) "far pointer to a far pointer"
      let origin ← signed64 (pad + 1)
      return some { seg := targetSeg, origin, word, tagged := false }
    else
      let landing ← m.word targetSeg pad
      let next ← unsigned 64 (pad + 1)
      let tag ← m.word targetSeg next
      ensure (landing &&& 7 = 2) "double-far landing pad is not a single far pointer"
      ensure (tag &&& 3 ≠ 2) "double-far tag is a far pointer"
      return some {
        seg := (landing >>> 32).toNat
        origin := ((landing >>> 3) &&& 0x1fffffff).toNat
        word := tag
        tagged := true }
  else return some { seg, origin, word, tagged := false }

def start (l : Located) : Result ℕ := do
  let start ← signed64 (l.origin + l.offset)
  ensure (0 ≤ start) "pointer before its segment"
  return start.toNat

def structTarget (m : Message) (l : Located) (depth : ℕ) : Result Target := do
  let dataWords := (l.word >>> 32).toNat % 2 ^ 16
  let ptrCount := (l.word >>> 48).toNat % 2 ^ 16
  let start ← start l
  let size ← unsigned 64 (dataWords + ptrCount)
  m.checkRange l.seg start size
  let ptrs ← unsigned 64 (start + dataWords)
  let depth ← unsigned 32 (depth + 1)
  return .struct { seg := l.seg, data := start, dataWords, ptrs, ptrCount, depth }

def compositeTarget (m : Message) (seg start words depth : ℕ) : Result Target := do
  let range ← unsigned 64 (words + 1)
  m.checkRange seg start range
  let tag ← m.word seg start
  ensure (tag &&& 3 = 0) "composite list tag is not a struct"
  let len := tag.toNat % 2 ^ 32 / 4
  let dataWords := (tag >>> 32).toNat % 2 ^ 16
  let ptrCount := (tag >>> 48).toNat % 2 ^ 16
  let per ← unsigned 64 (dataWords + ptrCount)
  let size ← unsigned 64 (len * per)
  ensure (size ≤ words) "composite list elements overrun its word count"
  let first ← unsigned 64 (start + 1)
  let depth ← unsigned 32 (depth + 1)
  return .list { seg, start := first, len, size := .composite, dataWords, ptrCount, depth, words }

def listTarget (m : Message) (l : Located) (depth : ℕ) : Result Target := do
  let size := ElementSize.fromBits (((l.word >>> 32) &&& 7).toNat)
  let count := (l.word >>> 35).toNat % 2 ^ 32
  let start ← start l
  if size = .composite then m.compositeTarget l.seg start count depth
  else
    let bits ← unsigned 64 (count * size.width)
    let words := (bits + 63) / 64
    m.checkRange l.seg start words
    let depth ← unsigned 32 (depth + 1)
    return .list
      { seg := l.seg, start, len := count, size, dataWords := 0, ptrCount := 0, depth, words }

/-- The last part of `follow`, up to the charge. -/
def target (m : Message) (l : Located) (depth : ℕ) : Result Target :=
  if l.word &&& 3 = 0 then m.structTarget l depth
  else if l.word &&& 3 = 1 then m.listTarget l depth
  else if l.word &&& 3 = 3 then do
    ensure (l.word.toNat % 2 ^ 32 / 4 = 0) "unknown 'other' pointer"
    return .capability ((l.word >>> 32).toNat % 2 ^ 32)
  else .error (.error "far pointer where content was expected")

/-- What the pointer stored at `pos` points at. -/
def resolve (m : Message) (seg pos depth : ℕ) : Result Target := do
  match ← m.locate seg pos with
  | none => return .null
  | some l => m.target l depth

/-- The words to charge for a target. A list without content still costs a word an element. -/
def toll : Target → Option ℕ
  | .null => none
  | .struct s => some (s.dataWords + s.ptrCount)
  | .list l =>
    match l.size with
    | .void => some l.len
    | .composite => some (max l.words l.len)
    | _ => some l.words
  | .capability _ => none

/-- Resolve the pointer stored at `pos`, following far pointers. The charge is the last thing that
can fail. -/
def follow (m : Message) (budget seg pos depth : ℕ) : Result Target × ℕ :=
  match ensure (depth ≤ maxDepth) s!"nesting deeper than {maxDepth}" with
  | .error e => (.error e, budget)
  | .ok _ =>
    match m.resolve seg pos depth with
    | .error e => (.error e, budget)
    | .ok t =>
      match toll t with
      | none => (.ok t, budget)
      | some words =>
        match charge budget words with
        | .error e => (.error e, budget)
        | .ok left => (.ok t, left)

def root (m : Message) (budget : ℕ) : Result Target × ℕ :=
  match ensure (m.segments.head?.any fun s => !s.isEmpty) "empty message" with
  | .error e => (.error e, budget)
  | .ok _ => m.follow budget 0 0 0

end Message

/-! ## Structs -/

namespace StructReader

/-- `bits` wide, at bit `offset` of the data section; zero beyond it. -/
def bits (m : Message) (s : StructReader) (offset bits : ℕ) : Result Word :=
  if s.dataWords ≤ offset / 64 then .ok 0
  else do
    let pos ← unsigned 64 (s.data + offset / 64)
    let w ← m.index s.seg pos
    let v := w >>> (offset % 64)
    if bits = 64 then return v
    else if bits < 64 then return v &&& (1#64 <<< bits - 1)
    -- `1u64 << bits`
    else .error .panic

def pointer (m : Message) (budget : ℕ) (s : StructReader) (index : ℕ) : Result Target × ℕ :=
  if s.ptrCount ≤ index then (.ok .null, budget)
  else
    match unsigned 64 (s.ptrs + index) with
    | .error e => (.error e, budget)
    | .ok pos => m.follow budget s.seg pos s.depth

/-- `struct_field`, from what the pointer points at. -/
def asStruct (index : ℕ) : Target → Result (Option StructReader)
  | .null => .ok none
  | .struct s => .ok (some s)
  | _ => .error (.error s!"pointer {index} is not a struct")

/-- `list_field`, from what the pointer points at. -/
def asList (index : ℕ) : Target → Result (Option ListReader)
  | .null => .ok none
  | .list l => .ok (some l)
  | _ => .error (.error s!"pointer {index} is not a list")

def structField (m : Message) (budget : ℕ) (s : StructReader) (index : ℕ) :
    Result (Option StructReader) × ℕ :=
  let (t, budget) := s.pointer m budget index
  (t >>= asStruct index, budget)

def listField (m : Message) (budget : ℕ) (s : StructReader) (index : ℕ) :
    Result (Option ListReader) × ℕ :=
  let (t, budget) := s.pointer m budget index
  (t >>= asList index, budget)

end StructReader

/-! ## Lists -/

namespace ListReader

def word (m : Message) (l : ListReader) (i : ℕ) : Result Word := do
  let pos ← unsigned 64 (l.start + i)
  m.index l.seg pos

def bytes (m : Message) (l : ListReader) : Result Bytes := do
  ensure (l.size = .byte) "not a byte list"
  (List.range l.len).mapM fun i => do
    let w ← l.word m (i / 8)
    return UInt8.ofNat (w >>> (i % 8 * 8)).toNat

def text (m : Message) (l : ListReader) : Result String := do
  let bytes ← l.bytes m
  ensure (bytes.getLast? = some 0) "text is not NUL-terminated"
  (String.fromUTF8? ⟨bytes.dropLast.toArray⟩).elim (.error (.error "text is not UTF-8")) .ok

def primitive (m : Message) (l : ListReader) (i : ℕ) : Result Word := do
  ensure (i < l.len) "index past the list"
  if l.size = .composite then .error (.error "composite list read as primitive")
  else if l.size = .pointer then .error (.error "pointer list read as primitive")
  else if l.size.width = 0 then return 0
  else
    let bit ← unsigned 64 (i * l.size.width)
    let w ← l.word m (bit / 64)
    let w := w >>> (bit % 64)
    if l.size.width = 64 then return w else return w &&& (1#64 <<< l.size.width - 1)

def structAt (l : ListReader) (i : ℕ) : Result StructReader := do
  ensure (i < l.len) "index past the list"
  ensure (l.size = .composite) "expected a list of structs"
  let per ← unsigned 64 (l.dataWords + l.ptrCount)
  let skipped ← unsigned 64 (per * i)
  let pos ← unsigned 64 (l.start + skipped)
  let ptrs ← unsigned 64 (pos + l.dataWords)
  return {
    seg := l.seg
    data := pos
    dataWords := l.dataWords
    ptrs
    ptrCount := l.ptrCount
    depth := l.depth }

def pointerAt (m : Message) (budget : ℕ) (l : ListReader) (i : ℕ) : Result Target × ℕ :=
  let place : Result ℕ := do
    ensure (i < l.len) "index past the list"
    ensure (l.size = .pointer) "expected a pointer list"
    unsigned 64 (l.start + i)
  match place with
  | .error e => (.error e, budget)
  | .ok pos => m.follow budget l.seg pos l.depth

end ListReader

def StructReader.text (m : Message) (budget : ℕ) (s : StructReader) (index : ℕ) :
    Result (Option String) × ℕ :=
  let (l, budget) := s.listField m budget index
  (do
    match ← l with
    | none => return none
    | some l => return some (← l.text m), budget)

def StructReader.dataField (m : Message) (budget : ℕ) (s : StructReader) (index : ℕ) :
    Result (Option Bytes) × ℕ :=
  let (l, budget) := s.listField m budget index
  (do
    match ← l with
    | none => return none
    | some l => return some (← l.bytes m), budget)

/-! ## Calls on the readers of a message -/

/-- A program that reads a message: the readers it was given so far and what was resolved for it. -/
structure Session where
  budget : ℕ
  structs : List StructReader
  lists : List ListReader
  resolved : List Target
  deriving DecidableEq

/-- A call, on the `k`-th struct or list that was given out. -/
inductive Call where
  | root
  | pointer (k index : ℕ)
  | structField (k index : ℕ)
  | listField (k index : ℕ)
  | text (k index : ℕ)
  | data (k index : ℕ)
  | bits (k offset bits : ℕ)
  | bytes (k : ℕ)
  | listText (k : ℕ)
  | primitive (k i : ℕ)
  | structAt (k i : ℕ)
  | pointerAt (k i : ℕ)
  deriving DecidableEq

namespace Session

/-- `Message::new` -/
def start : Session :=
  { budget := traversalLimitWords, structs := [], lists := [], resolved := [] }

def visit (s : Session) (r : Result Target × ℕ) : Session :=
  { s with
    budget := r.2
    resolved := match r.1 with
      | .ok t => s.resolved ++ [t]
      | .error _ => s.resolved }

def giveStruct (s : Session) (reader : StructReader) : Session :=
  { s with structs := s.structs ++ [reader] }

def giveList (s : Session) (reader : ListReader) : Session :=
  { s with lists := s.lists ++ [reader] }

def give (s : Session) : Target → Session
  | .struct reader => s.giveStruct reader
  | .list reader => s.giveList reader
  | _ => s

def finish {α : Type} (s : Session) (give : Session → α → Session) :
    Result α → Result Unit × Session
  | .ok a => (.ok (), give s a)
  | .error e => (.error e, s)

def onStruct (m : Message) (s : Session) (reader : StructReader) : Call → Result Unit × Session
  | .pointer _ index =>
    let r := reader.pointer m s.budget index
    (s.visit r).finish give r.1
  | .structField _ index =>
    (s.visit (reader.pointer m s.budget index)).finish (fun s r => r.elim s s.giveStruct)
      (reader.structField m s.budget index).1
  | .listField _ index =>
    (s.visit (reader.pointer m s.budget index)).finish (fun s r => r.elim s s.giveList)
      (reader.listField m s.budget index).1
  | .text _ index =>
    (s.visit (reader.pointer m s.budget index)).finish (fun s _ => s)
      (reader.text m s.budget index).1
  | .data _ index =>
    (s.visit (reader.pointer m s.budget index)).finish (fun s _ => s)
      (reader.dataField m s.budget index).1
  | .bits _ offset bits => s.finish (fun s _ => s) (reader.bits m offset bits)
  | _ => (.ok (), s)

def onList (m : Message) (s : Session) (reader : ListReader) : Call → Result Unit × Session
  | .bytes _ => s.finish (fun s _ => s) (reader.bytes m)
  | .listText _ => s.finish (fun s _ => s) (reader.text m)
  | .primitive _ i => s.finish (fun s _ => s) (reader.primitive m i)
  | .structAt _ i => s.finish giveStruct (reader.structAt i)
  | .pointerAt _ i =>
    let r := reader.pointerAt m s.budget i
    (s.visit r).finish give r.1
  | _ => (.ok (), s)

def call (m : Message) (s : Session) (c : Call) : Result Unit × Session :=
  match c with
  | .root =>
    let r := m.root s.budget
    (s.visit r).finish give r.1
  | .pointer k _ | .structField k _ | .listField k _ | .text k _ | .data k _ | .bits k _ _ =>
    s.structs[k]?.elim (.ok (), s) fun reader => s.onStruct m reader c
  | .bytes k | .listText k | .primitive k _ | .structAt k _ | .pointerAt k _ =>
    s.lists[k]?.elim (.ok (), s) fun reader => s.onList m reader c

def step (m : Message) (s : Session) (c : Call) : Session := (s.call m c).2

end Session

/-! ## The builder -/

structure Builder where
  words : List Word
  length_lt : words.length < 2 ^ 60
  deriving DecidableEq

structure StructBuilder where
  data : ℕ
  dataWords : ℕ
  ptrs : ℕ
  ptrCount : ℕ
  deriving DecidableEq

namespace Builder

/-- `self.words[i] = w`, which panics out of range. -/
def set (b : Builder) (i : ℕ) (w : Word) : Result Builder :=
  if i < b.words.length then
    .ok { words := b.words.set i w, length_lt := by rw [List.length_set]; exact b.length_lt }
  else .error .panic

def setOr (b : Builder) (i : ℕ) (w : Word) : Result Builder :=
  match b.words[i]? with
  | none => .error .panic
  | some old => b.set i (old ||| w)

def alloc (b : Builder) (words : ℕ) : Result (Builder × ℕ) :=
  if h : b.words.length + words < maxMessageWords then
    .ok ({ words := b.words ++ List.replicate words 0
           length_lt := by
            rw [List.length_append, List.length_replicate]
            exact Nat.lt_trans h (by decide) }, b.words.length)
  else .error (.error s!"message exceeds {maxMessageBytes} bytes")

/-- `((target as i64 - at as i64 - 1) as i32 as u32) << 2` -/
def offset (pos target : ℕ) : Word :=
  (BitVec.ofInt 32 ((target : ℤ) - pos - 1) <<< 2).setWidth 64

def pointStruct (b : Builder) (pos : ℕ) (s : StructBuilder) : Result Builder :=
  b.set pos (offset pos s.data ||| BitVec.ofNat 64 s.dataWords <<< 32 |||
    BitVec.ofNat 64 s.ptrCount <<< 48)

def structAtSlot (b : Builder) (slot dataWords ptrCount : ℕ) :
    Result (Builder × StructBuilder) := do
  let (b, pos) ← b.alloc (dataWords + ptrCount)
  let child := { data := pos, dataWords, ptrs := pos + dataWords, ptrCount }
  let b ← b.pointStruct slot child
  return (b, child)

/-- A primitive list of `len` elements stored in `slot`; returns its first word. -/
def listAtSlot (b : Builder) (slot : ℕ) (size : ElementSize) (len : ℕ) : Result (Builder × ℕ) := do
  ensure (len < 2 ^ 29) "list too long"
  let (b, pos) ← b.alloc ((len * size.width + 63) / 64)
  let b ← b.set slot (offset slot pos ||| 1#64 ||| BitVec.ofNat 64 size.bits <<< 32 |||
    BitVec.ofNat 64 len <<< 35)
  return (b, pos)

/-- The loop of `primitive_list_at_slot`, from element `i` on. -/
def setPrimitives (b : Builder) (pos width : ℕ) : ℕ → List Word → Result Builder
  | _, [] => .ok b
  | i, v :: values => do
    let masked := if width = 64 then v else v &&& (1#64 <<< width - 1)
    let b ← b.setOr (pos + i * width / 64) (masked <<< (i * width % 64))
    b.setPrimitives pos width (i + 1) values

def primitiveListAtSlot (b : Builder) (slot : ℕ) (size : ElementSize) (values : List Word) :
    Result Builder := do
  let (b, pos) ← b.listAtSlot slot size (values.length % 2 ^ 32)
  if size.width = 0 then return b else b.setPrimitives pos size.width 0 values

/-- A composite list stored in `slot`; returns the place of its tag, behind which the elements
are. -/
def structListAtSlot (b : Builder) (slot len dataWords ptrCount : ℕ) : Result (Builder × ℕ) := do
  let words := (dataWords + ptrCount) * len
  ensure (words < 2 ^ 29) "list too long"
  let (b, tag) ← b.alloc (1 + words)
  let b ← b.set slot (offset slot tag ||| 1#64 ||| 7#64 <<< 32 ||| BitVec.ofNat 64 words <<< 35)
  let b ← b.set tag (BitVec.ofNat 64 len <<< 2 ||| BitVec.ofNat 64 dataWords <<< 32 |||
    BitVec.ofNat 64 ptrCount <<< 48)
  return (b, tag)

def element (tag dataWords ptrCount i : ℕ) : StructBuilder :=
  let pos := tag + 1 + (dataWords + ptrCount) * i
  { data := pos, dataWords, ptrs := pos + dataWords, ptrCount }

def pointerListAtSlot (b : Builder) (slot len : ℕ) : Result (Builder × ℕ) :=
  b.listAtSlot slot .pointer len

def copyData (b : Builder) (m : Message) (seg source pos : ℕ) : ℕ → Result Builder
  | 0 => .ok b
  | n + 1 => do
    let w ← m.index seg source
    let b ← b.set pos w
    b.copyData m seg (source + 1) (pos + 1) n

/-- The loops that copy what is behind pointers, from slot `slot` and pointer `i` on, with `n` of
them to go. -/
def copyPointers (copy : Builder × ℕ → ℕ → Target → Result (Builder × ℕ))
    (next : ℕ → ℕ → Result Target × ℕ) (st : Builder × ℕ) (slot i : ℕ) : ℕ → Result (Builder × ℕ)
  | 0 => .ok st
  | n + 1 => do
    let (t, budget) := next st.2 i
    let st ← copy (st.1, budget) slot (← t)
    copyPointers copy next st (slot + 1) (i + 1) n

def copyStruct (copy : Builder × ℕ → ℕ → Target → Result (Builder × ℕ)) (m : Message)
    (st : Builder × ℕ) (s : StructReader) (child : StructBuilder) : Result (Builder × ℕ) := do
  let b ← st.1.copyData m s.seg s.data child.data s.dataWords
  copyPointers copy (fun budget i => s.pointer m budget i) (b, st.2) child.ptrs 0 s.ptrCount

/-- The loop over the elements of a composite list, from element `i` on. -/
def copyStructs (copy : Builder × ℕ → ℕ → Target → Result (Builder × ℕ)) (m : Message)
    (l : ListReader) (tag : ℕ) (st : Builder × ℕ) (i : ℕ) : ℕ → Result (Builder × ℕ)
  | 0 => .ok st
  | n + 1 => do
    let s ← l.structAt i
    let st ← copyStruct copy m st s (element tag l.dataWords l.ptrCount i)
    copyStructs copy m l tag st (i + 1) n

/-- Deep-copy what `from` points at into `slot`, capabilities kept as indexes. A level of nesting is
used up with every pointer, and the reader follows `maxDepth` of them. -/
def copyLevels (m : Message) : ℕ → Builder × ℕ → ℕ → Target → Result (Builder × ℕ)
  | 0, _, _, _ => .error .panic
  | levels + 1, (b, budget), slot, source =>
    match source with
    | .null => .ok (b, budget)
    | .capability index => do
      let b ← b.set slot (3#64 ||| BitVec.ofNat 64 index <<< 32)
      return (b, budget)
    | .struct s => do
      let (b, child) ← b.structAtSlot slot s.dataWords s.ptrCount
      copyStruct (copyLevels m levels) m (b, budget) s child
    | .list l =>
      if l.size = .composite then do
        let (b, tag) ← b.structListAtSlot slot l.len l.dataWords l.ptrCount
        copyStructs (copyLevels m levels) m l tag (b, budget) 0 l.len
      else if l.size = .pointer then do
        let (b, pos) ← b.pointerListAtSlot slot l.len
        copyPointers (copyLevels m levels) (fun budget i => l.pointerAt m budget i) (b, budget)
          pos 0 l.len
      else do
        let values ← (List.range l.len).mapM fun i => l.primitive m i
        let b ← b.primitiveListAtSlot slot l.size values
        return (b, budget)

def copyInto (b : Builder) (m : Message) (budget slot : ℕ) (source : Target) :
    Result (Builder × ℕ) :=
  copyLevels m (maxDepth + 2) (b, budget) slot source

def message (b : Builder) : Message :=
  { segments := [b.words], length_lt := by simpa using b.length_lt }

end Builder

end NetGet.Capnp
