import NetGet.Library.Arith
import NetGet.Library.Machine
import NetGet.Library.Table
import NetGet.Model.Bytes

/-! # OpenVPN's control-channel reliability layer

The sender numbers packets, holds them until they are acknowledged and says which are due; the
receiver delivers payloads in packet-id order. Times are in milliseconds. -/

namespace NetGet.OpenVpn

open Library

inductive Opcode where
  | controlHardResetClientV1
  | controlHardResetServerV1
  | controlSoftResetV1
  | controlV1
  | ackV1
  | dataV1
  | controlHardResetClientV2
  | controlHardResetServerV2
  | dataV2
  | controlHardResetClientV3
  | controlWkcV1
  deriving DecidableEq, Repr

def maxAckArray : ℕ := 4

def sendWindow : ℕ := 4

/-- How far ahead of `next_expected` an inbound packet id may be before it is dropped rather
than buffered. -/
def recvWindow : ℕ := 8

def initialRetransmit : ℕ := 1000

def maxRetransmit : ℕ := 8000

def maxPendingAcks : ℕ := 64

def maxBuffered : ℕ := recvWindow

structure Outgoing where
  packetId : ℕ
  opcode : Opcode
  acks : List ℕ
  payload : Bytes
  sentAt : Option ℕ
  attempts : ℕ
  deriving DecidableEq, Repr

/-- When this packet next needs to go out, or `none` if it never has. -/
def Outgoing.dueAt (o : Outgoing) : Option ℕ :=
  let double (backoff : ℕ) := min (backoff * 2) maxRetransmit
  o.sentAt.map fun sent => sent + double^[o.attempts - 1] initialRetransmit

structure ReliableSender where
  nextPacketId : ℕ
  outgoing : List Outgoing
  deriving DecidableEq, Repr

namespace ReliableSender

def new : ReliableSender := { nextPacketId := 0, outgoing := [] }

def queue (s : ReliableSender) (opcode : Opcode) (acks : List ℕ) (payload : Bytes) :
    ReliableSender × ℕ :=
  let entry : Outgoing :=
    { packetId := s.nextPacketId
      opcode := opcode
      acks := acks
      payload := payload
      sentAt := none
      attempts := 0 }
  ({ nextPacketId := wrappingAdd 32 s.nextPacketId 1, outgoing := s.outgoing ++ [entry] },
    s.nextPacketId)

def onAck (s : ReliableSender) (ids : List ℕ) : ReliableSender :=
  if ids = [] then s
  else { s with outgoing := s.outgoing.filter fun o => !ids.contains o.packetId }

def ready (now : ℕ) (o : Outgoing) : Bool :=
  match o.dueAt with
  | none => true
  | some time => time ≤ now

def transmit (now : ℕ) (o : Outgoing) : Outgoing :=
  { o with sentAt := some now, attempts := saturatingAdd 32 o.attempts 1 }

/-- Packets that should go on the wire now, marked as transmitted. Only the first `sendWindow`
queued packets are considered. -/
def takeDue (s : ReliableSender) (now : ℕ) : ReliableSender × List Outgoing :=
  let window := s.outgoing.take sendWindow
  ({ s with outgoing :=
      window.map (fun o => if ready now o then transmit now o else o) ++
        s.outgoing.drop sendWindow },
    (window.filter (ready now)).map (transmit now))

def markAllDue (s : ReliableSender) : ReliableSender :=
  { s with outgoing := s.outgoing.map fun o => { o with sentAt := none } }

end ReliableSender

structure ReliableReceiver where
  nextExpected : ℕ
  buffered : Table ℕ Bytes
  pendingAcks : List ℕ
  deriving DecidableEq

namespace ReliableReceiver

def new (nextExpected : ℕ) : ReliableReceiver :=
  { nextExpected := nextExpected, buffered := ∅, pendingAcks := [] }

def noteAck (r : ReliableReceiver) (packetId : ℕ) : ReliableReceiver :=
  { r with pendingAcks :=
      if r.pendingAcks.contains packetId then r.pendingAcks
      else
        (if maxPendingAcks ≤ r.pendingAcks.length then r.pendingAcks.tail else r.pendingAcks) ++
          [packetId] }

/-- The loop that takes the following payloads out of the buffer. Every round removes one, so
there are at most as many rounds as payloads. -/
def drain : ℕ → ReliableReceiver → ReliableReceiver × List Bytes
  | 0, r => (r, [])
  | rounds + 1, r =>
    match r.buffered.lookup r.nextExpected with
    | none => (r, [])
    | some next =>
      let (r, delivered) := drain rounds
        { r with
          nextExpected := wrappingAdd 32 r.nextExpected 1
          buffered := r.buffered.erase r.nextExpected }
      (r, next :: delivered)

def outsideWindow (r : ReliableReceiver) (packetId : ℕ) : Bool :=
  !(packetId < r.nextExpected) && recvWindow ≤ packetId - r.nextExpected

def accept (r : ReliableReceiver) (packetId : ℕ) (payload : Bytes) :
    ReliableReceiver × List Bytes :=
  if packetId < r.nextExpected then (r.noteAck packetId, [])
  else if r.outsideWindow packetId then (r, [])
  else
    let r := r.noteAck packetId
    if r.nextExpected < packetId then
      if r.buffered.keys.length < maxBuffered ∧ packetId ∉ r.buffered then
        ({ r with buffered := r.buffered.insert packetId payload }, [])
      else (r, [])
    else
      let (r, delivered) :=
        drain r.buffered.keys.length { r with nextExpected := wrappingAdd 32 r.nextExpected 1 }
      (r, payload :: delivered)

/-- Remove up to `maxAckArray` ids to put in an outgoing ACK array. -/
def takeAcks (r : ReliableReceiver) : ReliableReceiver × List ℕ :=
  let n := min r.pendingAcks.length maxAckArray
  ({ r with pendingAcks := r.pendingAcks.drop n }, r.pendingAcks.take n)

end ReliableReceiver

/-- One direction of the control channel. Everything that was ever put on the wire can arrive at
any time, any number of times, in any order, or not at all. What was queued and what was
delivered is recorded; neither is in the source. -/
structure Channel where
  sender : ReliableSender
  receiver : ReliableReceiver
  /-- Every packet transmitted so far. -/
  packets : List Outgoing
  /-- Every ACK array sent so far. -/
  ackArrays : List (List ℕ)
  queued : List Bytes
  delivered : List Bytes
  deriving DecidableEq

inductive Label where
  | queue (opcode : Opcode) (acks : List ℕ) (payload : Bytes)
  | takeDue (now : ℕ)
  | markAllDue
  | accept (place : ℕ)
  | takeAcks
  /-- The ACK array at this place among those sent arrives. -/
  | onAck (place : ℕ)
  deriving DecidableEq

namespace Channel

def start : Channel :=
  { sender := .new
    receiver := .new 0
    packets := []
    ackArrays := []
    queued := []
    delivered := [] }

def step (c : Channel) : Label → Channel
  | .queue opcode acks payload =>
    { c with
      sender := (c.sender.queue opcode acks payload).1
      queued := c.queued ++ [payload] }
  | .takeDue now =>
    let (sender, due) := c.sender.takeDue now
    { c with sender := sender, packets := c.packets ++ due }
  | .markAllDue => { c with sender := c.sender.markAllDue }
  | .accept place =>
    match c.packets[place]? with
    | none => c
    | some o =>
      let (receiver, payloads) := c.receiver.accept o.packetId o.payload
      { c with receiver := receiver, delivered := c.delivered ++ payloads }
  | .takeAcks =>
    let (receiver, ids) := c.receiver.takeAcks
    { c with receiver := receiver, ackArrays := c.ackArrays ++ [ids] }
  | .onAck place =>
    match c.ackArrays[place]? with
    | none => c
    | some ids => { c with sender := c.sender.onAck ids }

end Channel

end NetGet.OpenVpn
