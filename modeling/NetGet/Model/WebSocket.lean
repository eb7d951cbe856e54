import NetGet.Library.Focus
import NetGet.Library.Machine
import NetGet.Library.Showing
import NetGet.Model.Bytes

/-! # One connection of the WebSocket server

The read loop queues messages and starts a handler task when none is running, which answers
messages until there are none, the model holds one back, or the connection is closed. A step is
one section under the lock, a handler call is in flight between two steps of its task. -/

namespace NetGet.WebSocket

open Library

def maxBatchEvents : ℕ := 32

inductive Inbound where
  | text (text : String)
  | binary (bytes : Bytes)
  | ping (payload : Bytes)
  deriving DecidableEq

namespace Inbound

/-- Join two messages of the same kind into one. -/
def merge : Inbound → Inbound → Option Inbound
  | .text a, .text b => some (.text (a ++ b))
  | .binary a, .binary b => some (.binary (a ++ b))
  | _, _ => none

def isData : Inbound → Bool
  | .text _ | .binary _ => true
  | .ping _ => false

def join : List Inbound → Option Inbound
  | [] => none
  | first :: rest => rest.foldlM merge first

theorem join_concat {parts : List Inbound} {m : Inbound} (h : join parts = some m)
    (frame : Inbound) : join (parts ++ [frame]) = m.merge frame := by
  cases parts with
  | nil => cases h
  | cons first rest =>
    have hr : rest.foldlM merge first = some m := h
    simp [join, List.foldlM_append, hr]

end Inbound

/-- A message to be turned into an event. The messages it was joined from are not in the
source and read by nothing. -/
structure Item where
  inbound : Inbound
  parts : List Inbound
  joined : Inbound.join parts = some inbound

namespace Item

def ofInbound (frame : Inbound) : Item := { inbound := frame, parts := [frame], joined := rfl }

def merge (held : Item) (frame : Inbound) : Option Item :=
  match h : held.inbound.merge frame with
  | none => none
  | some inbound =>
    some
      { inbound
        parts := held.parts ++ [frame]
        joined := (Inbound.join_concat held.joined frame).trans h }

end Item

inductive HandlerState where
  | idle
  | processing
  | accumulating
  deriving DecidableEq

structure ConnData where
  state : HandlerState
  queued : List Item
  /-- A message the model deferred. -/
  pending : Option Item

namespace ConnData

/-- Put a message on the queue; `true` when the caller must start a handler. -/
def enqueueInbound (data : ConnData) (frame : Inbound) : ConnData × Bool :=
  if data.state = .processing then
    ({ data with queued := data.queued ++ [.ofInbound frame] }, false)
  else
    let queued :=
      match data.pending with
      | none => .ofInbound frame :: data.queued
      | some held =>
        match held.merge frame with
        | some merged => merged :: data.queued
        | none => held :: .ofInbound frame :: data.queued
    ({ state := .processing, queued, pending := none }, true)

/-- The data messages at the front of the queue, as many as there is room for, and the rest. -/
def takeData : ℕ → List Item → List Item × List Item
  | room + 1, item :: queued =>
    if item.inbound.isData then
      let (more, rest) := takeData room queued
      (item :: more, rest)
    else ([], item :: queued)
  | _, queued => ([], queued)

/-- The messages of the next call, the first apart; none when nothing is queued. -/
def takeBatch (data : ConnData) (batching : Bool) : ConnData × Option (Item × List Item) :=
  match data.queued with
  | [] => ({ data with state := .idle }, none)
  | first :: queued =>
    let room := if batching ∧ first.inbound.isData then maxBatchEvents - 1 else 0
    let (more, rest) := takeData room queued
    ({ data with queued := rest }, some (first, more))

def hold (data : ConnData) (item : Item) : ConnData :=
  { data with pending := some item, state := .accumulating }

def abandon (data : ConnData) : ConnData := { data with state := .idle, queued := [] }

end ConnData

inductive Answer where
  | results (wait close : Bool)
  | error

/-- The section a handler task runs next. -/
inductive Stage where
  | take
  /-- The call for a batch is in flight; the newest message of the batch is its trigger. -/
  | inCall (newest : Item)
  /-- Hold the newest message back until more arrives. -/
  | hold (newest : Item)
  /-- Close, or the call failed: go to `Idle` and clear the queue. -/
  | abandon

structure Connection where
  data : ConnData
  tasks : List Stage
  reading : Bool
  /-- The read loop has the call for the peer's close in flight. -/
  closing : Bool
  /-- Not in the source and read by nothing: the messages read. -/
  arrived : List Inbound
  /-- Not in the source and read by nothing: what the handler was shown, and what of it was
  held back. -/
  shown : List (Showing Item)

namespace Connection

def start : Connection :=
  { data := { state := .idle, queued := [], pending := none }
    tasks := []
    reading := true
    closing := false
    arrived := []
    shown := [] }

/-- The next section of a task, and the task after it unless it returned. -/
def advance (s : Connection) (batching : Bool) : Stage → Connection × Option Stage
  | .take =>
    match s.data.takeBatch batching with
    | (data, none) => ({ s with data }, none)
    | (data, some (first, more)) =>
      ({ s with
          data
          shown := s.shown ++
            (first :: more).map fun item => { content := item, again := false } },
        some (.inCall (more.getLastD first)))
  | .inCall newest => (s, some (.inCall newest))
  | .hold newest => ({ s with data := s.data.hold newest }, none)
  | .abandon => ({ s with data := s.data.abandon }, none)

/-- A handler call returns to its task. Waiting goes before closing. -/
def answer (s : Connection) (a : Answer) : Stage → Connection × Option Stage
  | .inCall newest =>
    match a with
    | .results true _ =>
      ({ s with
          shown := s.shown.modify (s.shown.length - 1) fun x => { x with again := true } },
        some (.hold newest))
    | .results false true => (s, some .abandon)
    | .results false false => (s, some .take)
    | .error => (s, some .abandon)
  | stage => (s, some stage)

/-- One task acts and goes on or ends. -/
def act (s : Connection) (k : ℕ) (f : Stage → Connection × Option Stage) : Connection :=
  match s.tasks[k]? with
  | none => s
  | some stage =>
    let (s', next) := f stage
    { s' with tasks := replaceIdx s.tasks k next }

/-- The read loop queues a message and starts a handler task when none is running. -/
def receive (s : Connection) (frame : Inbound) : Connection :=
  let (data, spawn) := s.data.enqueueInbound frame
  { s with
    data
    tasks := if spawn then s.tasks ++ [.take] else s.tasks
    arrived := s.arrived ++ [frame] }

end Connection

inductive Label where
  | receive (frame : Inbound)
  /-- The peer closes: the read loop calls the handler for it and ends. -/
  | receiveClose
  | closeAnswered
  /-- The stream ends or fails, or nothing arrived for too long. -/
  | readerEnds
  | advance (k : ℕ) (batching : Bool)
  | answer (k : ℕ) (a : Answer)

def Connection.step (s : Connection) : Label → Connection
  | .receive frame => if s.reading then s.receive frame else s
  | .receiveClose => if s.reading then { s with reading := false, closing := true } else s
  | .closeAnswered => { s with closing := false }
  | .readerEnds => { s with reading := false }
  | .advance k batching => s.act k (s.advance batching)
  | .answer k a => s.act k (s.answer a)

end NetGet.WebSocket
