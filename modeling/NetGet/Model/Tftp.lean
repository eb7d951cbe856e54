import NetGet.Library.BigEndian
import NetGet.Model.Bytes

/-! # TFTP uploads

The socket of one write request, with the tasks that listen on it. -/

namespace NetGet.Tftp

open Library

def packetOpcode (packet : Bytes) : Option ℕ :=
  if packet.length < 4 then none else some (fromBe (packet.take 2))

/-- The block in a datagram, of which 516 bytes are received. -/
def receiveData (datagram : Bytes) : Option (ℕ × Bytes) :=
  let data := datagram.take 516
  if packetOpcode data = some 3 then some (fromBe ((data.drop 2).take 2), data.drop 4) else none

/-- An event for the handler. The sender is not in the source and read by nothing. -/
structure DataBlock (Addr : Type) where
  sender : Addr
  blockNum : ℕ
  data : Bytes

/-- A task in `receive_write_data`: at the socket, or in the call for a block. -/
inductive Listener where
  | receiving
  | calling (isFinal : Bool)
  | ended
  deriving DecidableEq

structure Upload (Addr : Type) where
  peer : Addr
  listeners : List Listener
  blocks : List (DataBlock Addr)

inductive Label (Addr : Type) where
  /-- The next packet of the answer to the write request, and whether it could be sent. -/
  | answer (packet : Bytes) (sent : Bool)
  | datagram (listener : ℕ) (sender : Addr) (datagram : Bytes)
  /-- The call for a block returns packets, or fails. -/
  | result (listener : ℕ) (packets : Option (List (Bytes × Bool)))
  /-- A socket error, ten seconds of silence or the end of the server. -/
  | stop (listener : ℕ)

namespace Upload

variable {Addr : Type}

def new (peer : Addr) : Upload Addr := { peer, listeners := [], blocks := [] }

def aborted (packets : Option (List (Bytes × Bool))) : Bool :=
  packets.all fun packets => packets.any fun p => p.2 && packetOpcode p.1 == some 5

def step (u : Upload Addr) : Label Addr → Upload Addr
  | .answer packet sent =>
    if sent ∧ packetOpcode packet = some 4 then
      { u with listeners := u.listeners ++ [.receiving] }
    else u
  | .datagram i sender datagram =>
    match u.listeners[i]?, receiveData datagram with
    | some .receiving, some (blockNum, data) =>
      { u with
        listeners := u.listeners.set i (.calling (data.length < 512))
        blocks := u.blocks ++ [{ sender, blockNum, data }] }
    | _, _ => u
  | .result i packets =>
    match u.listeners[i]? with
    | some (.calling isFinal) =>
      let next := if aborted packets || isFinal then .ended else .receiving
      { u with listeners := u.listeners.set i next }
    | _ => u
  | .stop i => { u with listeners := u.listeners.set i .ended }

end Upload

end NetGet.Tftp
