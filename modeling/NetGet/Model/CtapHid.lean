import NetGet.Library.BigEndian
import NetGet.Library.Machine
import NetGet.Library.Table
import NetGet.Model.Bytes

/-! # The CTAPHID transport of a FIDO2 authenticator

Messages are cut into packets of 64 bytes and assembled per channel. -/

namespace NetGet.CtapHid

open Library

def hidPacketSize : ℕ := 64

def initPayload : ℕ := hidPacketSize - 7

def contPayload : ℕ := hidPacketSize - 5

def maxMessageSize : ℕ := initPayload + 128 * contPayload

def maxAssemblingChannels : ℕ := 4

inductive CtapHidCommand where
  | ping
  | msg
  | lock
  | init
  | wink
  | cbor
  | cancel
  | error
  | keepalive
  deriving DecidableEq

/-- The discriminant, `cmd as u8`. -/
def CtapHidCommand.toU8 : CtapHidCommand → UInt8
  | .ping => 0x01
  | .msg => 0x03
  | .lock => 0x04
  | .init => 0x06
  | .wink => 0x08
  | .cbor => 0x10
  | .cancel => 0x11
  | .error => 0x3f
  | .keepalive => 0x3b

def CtapHidCommand.fromU8 (value : UInt8) : Option CtapHidCommand :=
  let code := value &&& ~~~0x80
  if code = 0x01 then some .ping
  else if code = 0x03 then some .msg
  else if code = 0x04 then some .lock
  else if code = 0x06 then some .init
  else if code = 0x08 then some .wink
  else if code = 0x10 then some .cbor
  else if code = 0x11 then some .cancel
  else if code = 0x3f then some .error
  else if code = 0x3b then some .keepalive
  else none

inductive CtapHidError where
  | invalidLen
  | invalidSeq
  | channelBusy
  | invalidChannel
  deriving DecidableEq

def CtapHidError.toU8 : CtapHidError → UInt8
  | .invalidLen => 0x03
  | .invalidSeq => 0x04
  | .channelBusy => 0x06
  | .invalidChannel => 0x0b

structure Refusal where
  rejection : Option (UInt32 × CtapHidError)
  context : String
  deriving DecidableEq

/-- A channel as the format `{:#010x}` prints it. -/
def hexWord (cid : UInt32) : String :=
  "0x" ++ String.ofList
    ((toBe 4 cid.toNat).flatMap fun b => [Nat.digitChar (b.toNat / 16), Nat.digitChar (b.toNat % 16)])

structure CtapHidPacket where
  cid : UInt32
  cmdOrSeq : UInt8
  data : Bytes
  deriving DecidableEq

namespace CtapHidPacket

def isInit (packet : CtapHidPacket) : Bool := packet.cmdOrSeq &&& 0x80 != 0

def parse (data : Bytes) : Except Refusal CtapHidPacket :=
  if data.length ≠ hidPacketSize then
    .error ⟨none, s!"Invalid packet size: {data.length} (expected {hidPacketSize})"⟩
  else
    let cid := UInt32.ofNat (fromBe (data.take 4))
    let cmdOrSeq := data.getD 4 0
    let payload := if cmdOrSeq &&& 0x80 != 0 then data.drop 7 else data.drop 5
    .ok { cid, cmdOrSeq, data := payload }

def getByteCount (packet : CtapHidPacket) (data : Bytes) : Option ℕ :=
  if packet.cmdOrSeq &&& 0x80 != 0 ∧ 7 ≤ data.length then some (fromBe ((data.drop 5).take 2))
  else none

def command (packet : CtapHidPacket) : Option CtapHidCommand :=
  if packet.isInit then CtapHidCommand.fromU8 packet.cmdOrSeq else none

def sequence (packet : CtapHidPacket) : Option UInt8 :=
  if !packet.isInit then some packet.cmdOrSeq else none

/-- The bytes at the start of a field of `width` bytes, which is zero behind them. -/
def field (width : ℕ) (data : Bytes) : Bytes :=
  data.take width ++ List.replicate (width - min data.length width) 0

def buildInit (cid : UInt32) (cmd : CtapHidCommand) (data : Bytes) : Bytes :=
  let bcnt := if data.length < 2 ^ 16 then data.length else maxMessageSize
  toBe 4 cid.toNat ++ [cmd.toU8 ||| 0x80] ++ toBe 2 bcnt ++ field initPayload data

def buildCont (cid : UInt32) (seq : UInt8) (data : Bytes) : Bytes :=
  toBe 4 cid.toNat ++ [seq &&& 0x7f] ++ field contPayload data

def buildError (cid : UInt32) (error : CtapHidError) : Bytes := buildInit cid .error [error.toU8]

end CtapHidPacket

structure CtapHidMessage where
  cid : UInt32
  cmd : CtapHidCommand
  data : Bytes
  expectedLen : ℕ
  nextSeq : UInt8
  deriving DecidableEq

namespace CtapHidMessage

def new (cid : UInt32) (cmd : CtapHidCommand) (bcnt : ℕ) (initData : Bytes) :
    Except Refusal CtapHidMessage :=
  if maxMessageSize < bcnt then
    .error ⟨some (cid, .invalidLen),
      s!"CTAPHID BCNT={bcnt} exceeds the {maxMessageSize}-byte maximum a 7-bit sequence number " ++
        "can frame"⟩
  else
    .ok
      { cid, cmd, data := initData.take (min initData.length bcnt), expectedLen := bcnt,
        nextSeq := 0 }

def addContinuation (message : CtapHidMessage) (seq : UInt8) (contData : Bytes) :
    Except Refusal CtapHidMessage :=
  if seq ≠ message.nextSeq then
    .error ⟨some (message.cid, .invalidSeq),
      s!"CTAPHID sequence mismatch on cid {hexWord message.cid}: expected {message.nextSeq}, " ++
        s!"got {seq}"⟩
  else
    let remaining := message.expectedLen - message.data.length
    .ok
      { message with
        data := message.data ++ contData.take (min contData.length remaining)
        nextSeq := (message.nextSeq + 1) &&& 0x7f }

def isComplete (message : CtapHidMessage) : Bool := message.expectedLen ≤ message.data.length

def intoData (message : CtapHidMessage) : Bytes := message.data.take message.expectedLen

end CtapHidMessage

structure CtapHidHandler where
  activeMessages : Table UInt32 CtapHidMessage

namespace CtapHidHandler

def new : CtapHidHandler := { activeMessages := ∅ }

def processInit (h : CtapHidHandler) (packet : CtapHidPacket) (raw : Bytes) :
    Except Refusal (CtapHidHandler × Option CtapHidMessage) := do
  let cmd ← packet.command.elim (.error ⟨none, "Invalid command"⟩) .ok
  let bcnt ← (packet.getByteCount raw).elim (.error ⟨none, "Missing byte count"⟩) .ok
  let message ← CtapHidMessage.new packet.cid cmd bcnt packet.data
  if message.isComplete then return (h, some message)
  else if packet.cid ∉ h.activeMessages ∧ maxAssemblingChannels ≤ h.activeMessages.keys.length then
    .error ⟨some (packet.cid, .channelBusy),
      s!"CTAPHID refuses a {maxAssemblingChannels + 1}th partially-assembled message; finish " ++
        "one before starting another"⟩
  else return ({ h with activeMessages := h.activeMessages.insert packet.cid message }, none)

def processCont (h : CtapHidHandler) (packet : CtapHidPacket) :
    Except Refusal (CtapHidHandler × Option CtapHidMessage) := do
  let seq ← packet.sequence.elim (.error ⟨none, "Invalid sequence"⟩) .ok
  match h.activeMessages.lookup packet.cid with
  | some message => do
    let message ← message.addContinuation seq packet.data
    if message.isComplete then
      return ({ h with activeMessages := h.activeMessages.erase packet.cid }, some message)
    else return ({ h with activeMessages := h.activeMessages.insert packet.cid message }, none)
  | none =>
    .error ⟨some (packet.cid, .invalidChannel),
      s!"CTAPHID continuation for unopened channel {hexWord packet.cid}"⟩

/-- An error leaves the handler as it was. -/
def processPacket (h : CtapHidHandler) (raw : Bytes) :
    Except Refusal (CtapHidHandler × Option CtapHidMessage) := do
  let packet ← CtapHidPacket.parse raw
  if packet.isInit then h.processInit packet raw else h.processCont packet

def receive (h : CtapHidHandler) (raw : Bytes) : CtapHidHandler :=
  match h.processPacket raw with
  | .ok (h, _) => h
  | .error _ => h

def returned : CtapHidHandler → List Bytes → List CtapHidMessage
  | _, [] => []
  | h, raw :: raws =>
    match h.processPacket raw with
    | .ok (h, message) => message.toList ++ returned h raws
    | .error _ => returned h raws

end CtapHidHandler

/-- The loop over the continuation packets of a response. A round moves `offset` on, so that
`data.length` rounds are enough. -/
def contPackets (cid : UInt32) (data : Bytes) : ℕ → ℕ → UInt8 → List Bytes
  | 0, _, _ => []
  | rounds + 1, offset, seq =>
    if offset < data.length then
      CtapHidPacket.buildCont cid seq (data.drop offset) ::
        contPackets cid data rounds (offset + contPayload) ((seq + 1) &&& 0x7f)
    else []

def fragmentResponse (cid : UInt32) (cmd : CtapHidCommand) (data : Bytes) : List Bytes :=
  if maxMessageSize < data.length then [CtapHidPacket.buildError cid .invalidLen]
  else
    CtapHidPacket.buildInit cid cmd data ::
      if initPayload < data.length then contPackets cid data data.length initPayload 0 else []

end NetGet.CtapHid
