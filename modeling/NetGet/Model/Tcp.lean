import NetGet.Library.Focus
import NetGet.Library.Machine
import NetGet.Library.Showing
import NetGet.Model.Bytes

/-! # One connection of the TCP server

A reader that spawns a task for each read, and the tasks, which answer or queue the bytes.
The connection's entry in the map is locked for one section of a task at a time, so a step
is one such section. A handler call is in flight between two steps of its task. -/

namespace NetGet.Tcp

open Library

def maxQueuedBytes : ℕ := 8 * 1024 * 1024

def bufferLength : ℕ := 8192

inductive ConnectionState where
  | idle
  | processing
  | accumulating
  deriving DecidableEq

structure ConnectionData where
  state : ConnectionState
  queuedData : Bytes
  /-- Where each queued read ended, oldest first. -/
  queuedChunks : List ℕ

namespace ConnectionData

def queue (c : ConnectionData) (data : Bytes) : ConnectionData :=
  if data = [] then c
  else
    { c with
      queuedData := c.queuedData ++ data
      queuedChunks := c.queuedChunks ++ [data.length] }

def takeNext (c : ConnectionData) (batching : Bool) : Bytes × ConnectionData :=
  if batching ∨ c.queuedChunks.length ≤ 1 then
    (c.queuedData, { c with queuedData := [], queuedChunks := [] })
  else
    let n := min (c.queuedChunks.headD c.queuedData.length) c.queuedData.length
    (c.queuedData.take n,
      { c with queuedData := c.queuedData.drop n, queuedChunks := c.queuedChunks.tail })

def holdAsOne (c : ConnectionData) (data : Bytes) : ConnectionData :=
  { c with queuedData := data, queuedChunks := if data = [] then [] else [data.length] }

end ConnectionData

/-- What a handler call comes to: the results ask to wait for more or to close, or neither,
and it can fail. -/
inductive Answer where
  | results (wait close : Bool)
  | error

inductive Stage where
  /-- Look at the state. -/
  | check (data : Bytes)
  /-- The state was `Processing`: queue the data. -/
  | queue (data : Bytes)
  /-- The state was another: go to `Processing` and take a payload. -/
  | claim (data : Bytes) (saw : ConnectionState)
  /-- Look the connection up and call the handler. -/
  | call (payload : Bytes)
  /-- The handler call with that number is in flight. -/
  | inCall (payload : Bytes) (number : ℕ)
  /-- Put the payload back at the head of the queue and wait for more. -/
  | hold (payload : Bytes)
  /-- More had arrived during the call: go back to `Processing` with all of it. -/
  | rejoin
  | checkQueue
  | takeQueue
  | goIdle
  /-- Remove the connection; the task of the opening event then lets the reader read. -/
  | remove (opening : Bool)
  /-- The handler call for the opening event is in flight. -/
  | opening
  /-- Hand over what arrived while the opening event was being answered. -/
  | handOver
  deriving DecidableEq

structure Task where
  batching : Bool
  stage : Stage

inductive Reader where
  /-- Nothing is read until the opening event has been answered. -/
  | waiting
  | reading
  | gone
  deriving DecidableEq

def Reader.opened : Reader → Reader
  | .waiting => .reading
  | r => r

/-- One connection: its entry while it is registered, the reader and the tasks, in the order
in which they were spawned. -/
structure Server where
  conn : Option ConnectionData
  tasks : List Task
  reader : Reader
  /-- Not in the source and read by nothing: the bytes read. -/
  arrived : Bytes
  /-- Not in the source and read by nothing: the payloads of the handler calls, oldest first,
  and which of them `wait_for_more` was the answer to. -/
  calls : List (Showing Bytes)

namespace Server

def start (sendFirst : Bool) : Server :=
  { conn := some
      { state := if sendFirst then .processing else .idle
        queuedData := []
        queuedChunks := [] }
    tasks := if sendFirst then [{ batching := false, stage := .opening }] else []
    reader := if sendFirst then .waiting else .reading
    arrived := []
    calls := [] }

/-- The next section of a task, and the task after it unless it returned. The settings are read
before the first section, so `batching` counts there only. -/
def advance (s : Server) (batching : Bool) (t : Task) : Server × Option Task :=
  match t.stage with
  | .check data =>
    match s.conn with
    | none => (s, none)
    | some c =>
      let stage := if c.state = .processing then .queue data else .claim data c.state
      (s, some { batching, stage })
  | .queue data =>
    match s.conn with
    | none => (s, none)
    | some c =>
      let c := c.queue data
      ({ s with conn := some c },
        if c.queuedData.length > maxQueuedBytes then some { t with stage := .remove false }
        else none)
  | .claim data saw =>
    match s.conn with
    | none => (s, none)
    | some c =>
      let takeAll := t.batching || decide (saw = .accumulating)
      let (payload, c) := ({ c with state := .processing }.queue data).takeNext takeAll
      ({ s with conn := some c }, some { t with stage := .call payload })
  | .call payload =>
    match s.conn with
    | none => (s, none)
    | some _ =>
      ({ s with calls := s.calls ++ [{ content := payload, again := false }] },
        some { t with stage := .inCall payload s.calls.length })
  | .inCall .. => (s, some t)
  | .hold payload =>
    match s.conn with
    | none => (s, none)
    | some c =>
      let held := { c.holdAsOne (payload ++ c.queuedData) with state := .accumulating }
      ({ s with conn := some held },
        if held.queuedData.length > maxQueuedBytes then some { t with stage := .remove false }
        else if c.queuedData ≠ [] then some { t with stage := .rejoin }
        else none)
  | .rejoin =>
    match s.conn with
    | none => (s, none)
    | some c =>
      let (payload, c) := { c with state := .processing }.takeNext true
      ({ s with conn := some c }, some { t with stage := .call payload })
  | .checkQueue =>
    let queued := s.conn.any fun c => decide (c.queuedData ≠ [])
    (s, some { t with stage := if queued then .takeQueue else .goIdle })
  | .takeQueue =>
    match s.conn with
    | none => (s, none)
    | some c =>
      let (payload, c) := c.takeNext t.batching
      ({ s with conn := some c },
        some { t with stage := if payload = [] then .goIdle else .call payload })
  | .goIdle => ({ s with conn := s.conn.map fun c => { c with state := .idle } }, none)
  | .remove opening =>
    ({ s with conn := none, reader := if opening then s.reader.opened else s.reader }, none)
  | .opening => (s, if s.reader = .gone then none else some t)
  | .handOver =>
    match s.conn with
    | none => (s, none)
    | some c =>
      ({ s with conn := some { c with state := .idle } },
        if c.queuedData = [] then none else some { t with stage := .check [] })

/-- A handler call returns to its task. Waiting goes before closing. -/
def answer (s : Server) (a : Answer) (t : Task) : Server × Option Task :=
  match t.stage, a with
  | .inCall payload number, .results true _ =>
    ({ s with calls := s.calls.modify number fun call => { call with again := true } },
      some { t with stage := .hold payload })
  | .inCall _ _, .results false true => (s, some { t with stage := .remove false })
  | .inCall _ _, .results false false => (s, some { t with stage := .checkQueue })
  | .inCall _ _, .error => (s, some { t with stage := .remove false })
  | .opening, .results _ false =>
    ({ s with reader := s.reader.opened }, some { t with stage := .handOver })
  | .opening, .results _ true => (s, some { t with stage := .remove true })
  | .opening, .error => (s, some { t with stage := .remove true })
  | _, _ => (s, some t)

def act (s : Server) (k : ℕ) (f : Task → Server × Option Task) : Server :=
  match s.tasks[k]? with
  | none => s
  | some t =>
    let (s', next) := f t
    { s' with tasks := replaceIdx s.tasks k next }

end Server

inductive Label where
  | read (data : Bytes)
  /-- The peer closed, the read failed or its deadline passed. -/
  | readerEnds
  | advance (k : ℕ) (batching : Bool)
  | answer (k : ℕ) (a : Answer)

def Server.step (s : Server) : Label → Server
  | .read data =>
    if s.reader = .reading ∧ data ≠ [] ∧ data.length ≤ bufferLength then
      { s with
        tasks := s.tasks ++ [{ batching := false, stage := .check data }]
        arrived := s.arrived ++ data }
    else s
  | .readerEnds => if s.reader = .reading then { s with conn := none, reader := .gone } else s
  | .advance k batching => s.act k (s.advance batching)
  | .answer k a => s.act k (s.answer a)

end NetGet.Tcp
