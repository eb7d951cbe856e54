import NetGet.Library.Decimal
import NetGet.Library.Transducer
import NetGet.Model.Bytes

/-! # The framing of NETCONF over SSH

The decoder is dropped at its first error, so an error is its message alone. -/

namespace NetGet.Netconf

open Library

def maxMessageBytes : ℕ := 1024 * 1024

def maxChunks : ℕ := 1024

def maxBufferBytes : ℕ := maxMessageBytes + 256 * 1024 + 16 * maxChunks

/-- The bytes `]]>]]>`. -/
def delimiter : Bytes := [93, 93, 62, 93, 93, 62]

inductive Framing where
  | delimiter
  | chunked
  deriving DecidableEq

structure Progress where
  body : Bytes
  header : Bytes
  remaining : ℕ
  chunks : ℕ
  deriving DecidableEq

namespace Progress

def new : Progress := { body := [], header := [], remaining := 0, chunks := 0 }

def delimitedByte (p : Progress) (byte : UInt8) : Except String (Progress × Option Bytes) :=
  let body := p.body ++ [byte]
  if delimiter.isSuffixOf body then do
    let body := body.take (body.length - delimiter.length)
    ensure (body.length ≤ maxMessageBytes) "NETCONF message byte bound"
    return ({ p with body := [] }, some body)
  else do
    ensure (body.length < maxMessageBytes + delimiter.length) "NETCONF message byte bound"
    return ({ p with body }, none)

/-- The bytes of the present chunk that have arrived, and the input behind them. -/
def takeRemaining (p : Progress) (input : Bytes) : Progress × Bytes :=
  let available := min p.remaining input.length
  ({ p with body := p.body ++ input.take available, remaining := p.remaining - available },
    input.drop available)

def startChunk (p : Progress) : Except String Progress := do
  let length := decimalValue ((p.header.take (p.header.length - 1)).drop 2)
  ensure (length ≤ 2 ^ 32 - 1) "NETCONF native chunk size maximum"
  ensure (length ≤ maxMessageBytes - p.body.length) "NETCONF aggregate message byte bound"
  ensure (p.chunks < maxChunks) "NETCONF chunk count bound"
  return { p with chunks := p.chunks + 1, remaining := length, header := [] }

/-- A byte of a chunk's header or of the end of chunks, and the message when it is complete. -/
def headerByte (p : Progress) (byte : UInt8) : Except String (Progress × Option Bytes) := do
  ensure (p.header.length < 13) "NETCONF chunk header bound"
  let p := { p with header := p.header ++ [byte] }
  match p.header.length with
  | 1 => do
    ensure (byte == 10) "NETCONF chunk must start with LF"
    return (p, none)
  | 2 => do
    ensure (byte == 35) "NETCONF chunk must start with LF HASH"
    return (p, none)
  | 3 => do
    ensure (byte == 35 || (49 ≤ byte && byte ≤ 57))
      "NETCONF chunk size must be positive without leading zero"
    return (p, none)
  | _ =>
    if p.header.getD 2 0 = 35 then do
      ensure (p.header.length == 4 && byte == 10) "NETCONF invalid end-of-chunks"
      ensure (0 < p.chunks) "NETCONF empty chunked message"
      return ({ p with header := [], chunks := 0, body := [] }, some p.body)
    else if byte ≠ 10 then do
      ensure (isAsciiDigit byte) "NETCONF invalid chunk size digit"
      return (p, none)
    else do
      let p ← p.startChunk
      return (p, none)

/-- The loop over chunks and their headers, which returns the input left. A round takes a byte of
the input or is the last, so that `input.length + 1` rounds are enough. -/
def nextChunked : ℕ → Progress → Bytes → Except String (Progress × Bytes × Option Bytes)
  | 0, p, input => .ok (p, input, none)
  | rounds + 1, p, input =>
    let (p, input) := p.takeRemaining input
    if 0 < p.remaining then .ok (p, input, none)
    else
      match input with
      | [] => .ok (p, [], none)
      | byte :: input => do
        let (p, message) ← p.headerByte byte
        match message with
        | some message => return (p, input, some message)
        | none => nextChunked rounds p input

end Progress

structure Decoder where
  framing : Framing
  input : Bytes
  progress : Progress
  deriving DecidableEq

namespace Decoder

def new (framing : Framing) : Decoder := { framing, input := [], progress := .new }

def feed (d : Decoder) (bytes : Bytes) : Except String Decoder := do
  ensure (bytes.length ≤ maxBufferBytes - d.input.length) "NETCONF input queue bound"
  return { d with input := d.input ++ bytes }

def isPartial (d : Decoder) : Bool :=
  !d.input.isEmpty || !d.progress.body.isEmpty || !d.progress.header.isEmpty ||
    0 < d.progress.remaining || 0 < d.progress.chunks

/-- The `while` loop of the framing with a delimiter is the one that reads a byte at a time up to
the first message. -/
def nextMessage (d : Decoder) : Except String (Decoder × Option Bytes) := do
  let (progress, input, message) ←
    match d.framing with
    | .delimiter => Transducer.next Progress.delimitedByte d.progress d.input
    | .chunked => Progress.nextChunked (d.input.length + 1) d.progress d.input
  return ({ d with progress, input }, message)

/-- Call `next_message` until it returns `None`. A message takes a byte of the input, so that
`input.length + 1` rounds are enough. -/
def messages : ℕ → Decoder → Except String (Decoder × List Bytes)
  | 0, d => .ok (d, [])
  | rounds + 1, d => do
    let (d, message) ← d.nextMessage
    match message with
    | some message => do
      let (d, rest) ← messages rounds d
      return (d, message :: rest)
    | none => return (d, [])

def readAll : Decoder → List Bytes → Except String (Decoder × List Bytes)
  | d, [] => .ok (d, [])
  | d, chunk :: chunks => do
    let d ← d.feed chunk
    let (d, first) ← messages (d.input.length + 1) d
    let (d, rest) ← readAll d chunks
    return (d, first ++ rest)

end Decoder

def hasWindow (part : Bytes) : Bytes → Bool
  | [] => part.isEmpty
  | byte :: bytes => part.isPrefixOf (byte :: bytes) || hasWindow part bytes

def frame (message : Bytes) (framing : Framing) : Except String Bytes := do
  ensure (!message.isEmpty && message.length ≤ maxMessageBytes)
    "NETCONF outgoing message byte bound"
  match framing with
  | .delimiter => do
    ensure (!hasWindow delimiter message) "NETCONF delimiter inside outgoing XML"
    return message ++ delimiter
  | .chunked =>
    return [10, 35] ++ utf8 (toString message.length) ++ [10] ++ message ++ [10, 35, 35, 10]

end NetGet.Netconf
