import NetGet.Library.BigEndian
import NetGet.Library.Peeling
import NetGet.Model.Bytes

/-! # Chunked messages of the Bolt server

A message is sent as chunks, each with its size in front, and ended by a chunk of size zero. The
`Dechunker` puts messages together from what arrives. -/

namespace NetGet.Bolt

open Library Peeling

def maxChunkBytes : ℕ := 65535

def frameChunk (piece : Bytes) : Bytes := toBe 2 piece.length ++ piece

def chunk (message : Bytes) : Bytes :=
  (pieces maxChunkBytes message).flatMap frameChunk ++ [0, 0]

inductive FrameError where
  | tooLarge (limit : ℕ)
  deriving DecidableEq

structure Dechunker where
  input : Bytes
  message : Bytes
  limit : ℕ
  deriving DecidableEq

namespace Dechunker

def new (limit : ℕ) : Dechunker := { input := [], message := [], limit }

def push (d : Dechunker) (bytes : Bytes) : Dechunker := { d with input := d.input ++ bytes }

/-- One turn of the loop in `nextMessage`, on the input that is not consumed yet. -/
def turn (limit : ℕ) (message : Bytes) : Bytes → Move Bytes Bytes FrameError
  | a :: b :: body =>
    let size := fromBe [a, b]
    if size = 0 then
      -- a zero chunk between messages keeps the connection alive
      if message.isEmpty then .take 2 message none else .take 2 [] (some message)
    -- on the declared size, before the bytes it announces
    else if limit < message.length + size then .refuse (.tooLarge limit)
    else if body.length < size then .wait
    else .take (2 + size) (message ++ body.take size) none
  | _ => .wait

def nextMessage (d : Dechunker) : Dechunker × Except FrameError (Option Bytes) :=
  let (message, input, result) := next (turn d.limit) (d.input.length + 1) d.message d.input
  ({ d with message, input }, result)

end Dechunker

structure Session where
  dechunker : Dechunker
  queue : List Bytes
  refused : Option FrameError
  deriving DecidableEq

namespace Session

def new (limit : ℕ) : Session := { dechunker := .new limit, queue := [], refused := none }

def drain : ℕ → Session → Session
  | 0, s => s
  | rounds + 1, s =>
    match s.dechunker.nextMessage with
    | (d, .ok (some message)) =>
      drain rounds { s with dechunker := d, queue := s.queue ++ [message] }
    | (d, .ok none) => { s with dechunker := d }
    | (d, .error e) => { s with dechunker := d, refused := some e }

def receive (s : Session) (bytes : Bytes) : Session :=
  match s.refused with
  | some _ => s
  | none =>
    let s := { s with dechunker := s.dechunker.push bytes }
    drain (s.dechunker.input.length + 1) s

def receiveAll (s : Session) (reads : List Bytes) : Session := reads.foldl receive s

end Session

end NetGet.Bolt
