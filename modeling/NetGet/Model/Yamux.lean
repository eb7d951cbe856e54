import NetGet.Library.Arith
import NetGet.Library.Machine
import NetGet.Library.Table
import NetGet.Model.Bytes

/-! # Yamux: the two tasks of a session

`write_loop` owns the writer and every stream's send window. `read_loop` reads frames and routes
them to streams, whose readers and openers run beside it. The tasks meet in the table of streams,
in the streams' receive windows and in the queue of commands. -/

namespace NetGet.Yamux

open Library

/-- Each side's starting receive window per stream. -/
def initialWindow : ℕ := 256 * 1024

/-- Streams the peer may have open on one connection. -/
def maxStreams : ℕ := 256

def tData : ℕ := 0
def tWindow : ℕ := 1
def tPing : ℕ := 2
def tGoAway : ℕ := 3

def fSyn : ℕ := 1
def fAck : ℕ := 2
def fFin : ℕ := 4
def fRst : ℕ := 8

/-- The fields of the twelve bytes in front of a frame. -/
structure Header where
  version : ℕ
  kind : ℕ
  flags : ℕ
  id : ℕ
  len : ℕ
  deriving DecidableEq

def header (kind flags id len : ℕ) : Header :=
  { version := 0, kind := kind, flags := flags, id := id, len := len }

inductive Cmd where
  | opens (id : ℕ)
  | ack (id : ℕ)
  | data (id : ℕ) (bytes : Bytes)
  | fin (id : ℕ)
  | rst (id : ℕ)
  | grant (id delta : ℕ)
  | peerWindow (id delta : ℕ)
  | pong (value : ℕ)
  | goAway (code : ℕ)
  deriving DecidableEq

/-! ## The writer -/

structure Frame where
  header : Header
  data : Bytes
  deriving DecidableEq

namespace Frame

def bare (h : Header) : Frame := { header := h, data := [] }

def syn (id : ℕ) : Frame := bare (Yamux.header tWindow fSyn id 0)
def ack (id : ℕ) : Frame := bare (Yamux.header tWindow fAck id 0)
def fin (id : ℕ) : Frame := bare (Yamux.header tWindow fFin id 0)
def rst (id : ℕ) : Frame := bare (Yamux.header tWindow fRst id 0)
def grant (id delta : ℕ) : Frame := bare (Yamux.header tWindow 0 id delta)

def chunk (id : ℕ) (bytes : Bytes) : Frame :=
  { header := Yamux.header tData 0 id bytes.length, data := bytes }

end Frame

/-- What the writer keeps for a stream. -/
structure Outbound where
  window : ℕ
  pending : List Bytes
  fin : Bool
  deriving DecidableEq

namespace Outbound

def fresh : Outbound := { window := initialWindow, pending := [], fin := false }

/-- The loop that sends what the window has room for, with the frames it writes. A chunk that does
not fit uses the window up and ends the loop. -/
def drain (id : ℕ) : ℕ → List Bytes → ℕ × List Bytes × List Frame
  | window, [] => (window, [], [])
  | window, front :: pending =>
    if window = 0 then (window, front :: pending, [])
    else
      let n := min front.length window
      if front.drop n = [] then
        let (window, pending, out) := drain id (window - n) pending
        (window, pending, .chunk id (front.take n) :: out)
      else (window - n, front.drop n :: pending, [.chunk id (front.take n)])

/-- Send what can be sent. The stream is forgotten with its FIN. -/
def flush (id : ℕ) (s : Outbound) : Option Outbound × List Frame :=
  let (window, pending, out) := drain id s.window s.pending
  if s.fin && pending.isEmpty then (none, out ++ [.fin id])
  else (some { s with window := window, pending := pending }, out)

end Outbound

/-- The state of `write_loop` with the frames it has written. -/
structure Writer where
  streams : Table ℕ Outbound
  emitted : List Frame
  closed : Bool

namespace Writer

def start : Writer := { streams := ∅, emitted := [], closed := false }

def flush (streams : Table ℕ Outbound) (id : ℕ) : Table ℕ Outbound × List Frame :=
  match streams.lookup id with
  | none => (streams, [])
  | some s =>
    match s.flush id with
    | (none, out) => (streams.erase id, out)
    | (some s, out) => (streams.insert id s, out)

/-- What a command does to the streams, and the frames to write for it. -/
def process (streams : Table ℕ Outbound) : Cmd → Table ℕ Outbound × List Frame
  | .opens id => (streams.insert id .fresh, [.syn id])
  | .ack id => (streams.insert id .fresh, [.ack id])
  | .data id bytes =>
    flush (streams.modify id fun s =>
      if s.fin then s else { s with pending := s.pending ++ [bytes] }) id
  | .fin id => flush (streams.modify id fun s => { s with fin := true }) id
  | .rst id => (streams.erase id, [.rst id])
  | .grant id delta => (streams, [.grant id delta])
  | .peerWindow id delta =>
    flush (streams.modify id fun s =>
      { s with window := saturatingAdd 32 s.window delta }) id
  | .pong value => (streams, [.bare (header tPing fAck 0 value)])
  | .goAway code => (streams, [.bare (header tGoAway 0 0 code)])

/-- A round of `write_loop`, with the command and, where the write fails, the number of frames
that have gone out before. A failed write and a GoAway end the loop. -/
def step (w : Writer) (round : Cmd × Option ℕ) : Writer :=
  if w.closed then w
  else
    let (streams, out) := process w.streams round.1
    match round.2 with
    | some n =>
      { streams := streams, emitted := w.emitted ++ out.take n, closed := !out.isEmpty }
    | none =>
      { streams := streams
        emitted := w.emitted ++ out
        closed := match round.1 with
          | .goAway _ => true
          | _ => false }

end Writer

/-! ## The reader -/

/-- A stream: its receive window, which is shared, the queue that `read_loop` fills, and what its
reader has. `reading` tells that the reader still exists. -/
structure Stream where
  id : ℕ
  window : ℤ
  queue : List Bytes
  buf : Bytes
  pos : ℕ
  consumed : ℕ
  reading : Bool
  deriving DecidableEq

namespace Stream

def new (id : ℕ) (reading : Bool) : Stream :=
  { id := id
    window := initialWindow
    queue := []
    buf := []
    pos := 0
    consumed := 0
    reading := reading }

/-- The reader is gone, and what was queued for it with it. -/
def dropped (s : Stream) : Stream := { s with queue := [], reading := false }

/-- `tx.send`, which fails once the reader is gone. -/
def push (s : Stream) (data : Bytes) : Stream :=
  if s.reading then { s with queue := s.queue ++ [data] } else s

/-- Count `n` bytes as read, and grant them to the peer once they are half a window. The addition
panics on overflow, which ends the reader. -/
def countConsumed (s : Stream) (n : ℕ) : Stream × List Cmd :=
  match checkedAdd 32 s.consumed n with
  | none => (s.dropped, [])
  | some total =>
    if initialWindow / 2 ≤ total then
      ({ s with consumed := 0, window := s.window + total }, [.grant s.id total])
    else ({ s with consumed := total }, [])

def recv (s : Stream) (store : Bytes → Stream → Stream) : Stream × List Cmd :=
  match s.queue with
  | [] => (s, [])
  | chunk :: queue => countConsumed (store chunk { s with queue := queue }) chunk.length

def nextChunk (s : Stream) : Stream × List Cmd :=
  if s.pos < s.buf.length then ({ s with pos := s.buf.length }, [])
  else s.recv fun _ s => s

/-- A round of the loop of `read_exact` while `missing` bytes are missing. -/
def readRound (s : Stream) (missing : ℕ) : Stream × List Cmd :=
  if s.pos = s.buf.length then s.recv fun chunk s => { s with buf := chunk, pos := 0 }
  else ({ s with pos := s.pos + min missing (s.buf.length - s.pos) }, [])

end Stream

/-- What `read_loop` is waiting for. With the payload of a frame it knows which stream has been
charged for it. -/
inductive Stage where
  | header
  | payload (h : Header) (charged : Option ℕ)
  | done
  deriving DecidableEq

/-- The receiving side of a session: the streams there have been, the table from stream ids to
them, and the commands that were sent to the writer. `allocated` is the size of the last payload
buffer; it is not in the source and read by nothing. -/
structure Receiver where
  client : Bool
  streams : List Stream
  table : Table ℕ ℕ
  nextId : ℕ
  stage : Stage
  cmds : List Cmd
  allocated : ℕ

inductive Event where
  /-- A header has arrived. A stream it opens is taken over by the application or not. -/
  | header (h : Header) (accepted : Bool)
  | payload (data : Bytes)
  /-- Reading from the connection fails. -/
  | lost
  /-- `Opener::open`, while the writer is there or not. -/
  | opens (connected : Bool)
  | nextChunk (k : ℕ)
  | readRound (k missing : ℕ)
  | dropped (k : ℕ)
  deriving DecidableEq

namespace Receiver

/-- A session starts; `client` is the side that dialled. -/
def session (client : Bool) : Receiver :=
  { client := client
    streams := []
    table := ∅
    nextId := if client then 1 else 2
    stage := .header
    cmds := []
    allocated := 0 }

def send (r : Receiver) (cmds : List Cmd) : Receiver := { r with cmds := r.cmds ++ cmds }

def finish (r : Receiver) : Receiver :=
  { r with table := ∅, stage := .done, cmds := r.cmds ++ [.goAway 0] }

def insert (r : Receiver) (id : ℕ) (reading : Bool) : Receiver :=
  { r with
    streams := r.streams ++ [.new id reading]
    table := r.table.insert id r.streams.length }

def onSyn (r : Receiver) (id : ℕ) (accepted : Bool) : Option Receiver :=
  let theirs := (id % 2 == 1) != r.client
  if !theirs || id == 0 || (r.table.lookup id).isSome then none
  else if maxStreams ≤ r.table.keys.length then some (r.send [.rst id])
  else
    let r := (r.insert id accepted).send [.ack id]
    some (if accepted then r else { r with table := r.table.erase id })

/-- The end of a frame: with FIN or RST the stream leaves the table. -/
def endFrame (r : Receiver) (h : Header) : Receiver :=
  { r with
    stage := .header
    table := if h.flags &&& (fFin ||| fRst) ≠ 0 then r.table.erase h.id else r.table }

/-- The peer may not send more than the window it was given. -/
def charge (r : Receiver) (h : Header) : Receiver :=
  match r.table.lookup h.id with
  | some k =>
    let r' := { r with
      streams := r.streams.modify k fun s => { s with window := s.window - h.len } }
    match r.streams[k]? with
    | none => r'
    | some s =>
      if (h.len : ℤ) ≤ s.window then { r' with stage := .payload h (some k) } else r'.finish
  | none =>
    if h.len ≤ initialWindow then { r with stage := .payload h none } else r.finish

/-- A data or window frame behind its SYN. -/
def onFrame (r : Receiver) (h : Header) : Receiver :=
  if h.kind = tWindow then
    (if 0 < h.len then r.send [.peerWindow h.id h.len] else r).endFrame h
  else if 0 < h.len then charge { r with allocated := h.len } h
  else r.endFrame h

def onHeader (r : Receiver) (h : Header) (accepted : Bool) : Receiver :=
  if h.version ≠ 0 then r.finish
  else if h.kind = tPing then
    if h.flags &&& fSyn ≠ 0 then r.send [.pong h.len] else r
  else if h.kind = tGoAway then r.finish
  else if h.kind ≠ tData ∧ h.kind ≠ tWindow then r.finish
  else if h.flags &&& fSyn ≠ 0 then
    match r.onSyn h.id accepted with
    | none => r.finish
    | some r => r.onFrame h
  else r.onFrame h

/-- The payload of a frame is complete. It goes to the stream that is in the table now. -/
def onPayload (r : Receiver) (h : Header) (data : Bytes) : Receiver :=
  match r.table.lookup h.id with
  | some k => endFrame { r with streams := r.streams.modify k fun s => s.push data } h
  | none => r.endFrame h

def opens (r : Receiver) (connected : Bool) : Receiver :=
  let id := r.nextId
  let r := { r with nextId := wrappingAdd 32 r.nextId 2 }
  if maxStreams ≤ r.table.keys.length then r
  else if connected then (r.insert id true).send [.opens id]
  else r.insert id false

def act (r : Receiver) (k : ℕ) (f : Stream → Stream × List Cmd) : Receiver :=
  match r.streams[k]? with
  | none => r
  | some s =>
    if s.reading then
      { r with streams := r.streams.set k (f s).1, cmds := r.cmds ++ (f s).2 }
    else r

def step (r : Receiver) : Event → Receiver
  | .header h accepted => if r.stage = .header then r.onHeader h accepted else r
  | .payload data =>
    match r.stage with
    | .payload h _ => if data.length = h.len then r.onPayload h data else r
    | _ => r
  | .lost => if r.stage = .done then r else r.finish
  | .opens connected => r.opens connected
  | .nextChunk k => r.act k fun s => s.nextChunk
  | .readRound k missing => r.act k fun s => s.readRound missing
  | .dropped k => r.act k fun s => (s.dropped, [])

end Receiver

/-! ## The session -/

/-- A session: its receiving side, the writer and the queue between them. `opening` holds the
commands of openers that have entered their stream in the table and not sent them yet. -/
structure Session where
  receiver : Receiver
  opening : List Cmd
  queue : List Cmd
  writer : Writer

namespace Session

inductive Step where
  /-- A step of `read_loop`, of a stream's reader or of an opener. -/
  | receive (e : Event)
  /-- An opener sends its command. -/
  | announce (k : ℕ)
  /-- A chunk of `StreamWriter::send`. -/
  | data (id : ℕ) (chunk : Bytes)
  /-- `StreamWriter::close` -/
  | close (id : ℕ)
  /-- `StreamWriter::reset` -/
  | reset (id : ℕ)
  /-- `Opener::go_away` -/
  | goAway
  /-- `write_loop` takes the next command; `result` tells how the write ends. -/
  | write (result : Option ℕ)

def start (client : Bool) : Session :=
  { receiver := .session client, opening := [], queue := [], writer := .start }

/-- Commands are lost once `write_loop` has returned. -/
def enqueue (s : Session) (cmds : List Cmd) : Session :=
  if s.writer.closed then s else { s with queue := s.queue ++ cmds }

def step (s : Session) : Step → Session
  | .receive e =>
    let receiver := s.receiver.step e
    let sent := receiver.cmds.drop s.receiver.cmds.length
    match e with
    | .opens _ => { s with receiver, opening := s.opening ++ sent }
    | _ => enqueue { s with receiver } sent
  | .announce k =>
    match s.opening[k]? with
    | none => s
    | some c => enqueue { s with opening := s.opening.eraseIdx k } [c]
  | .data id chunk => s.enqueue [.data id chunk]
  | .close id => s.enqueue [.fin id]
  | .reset id => s.enqueue [.rst id]
  | .goAway => s.enqueue [.goAway 0]
  | .write result =>
    match s.queue with
    | [] => s
    | c :: queue => { s with queue, writer := s.writer.step (c, result) }

end Session

end NetGet.Yamux
