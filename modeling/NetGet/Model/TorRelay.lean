import NetGet.Library.BigEndian
import NetGet.Library.Peeling
import NetGet.Library.Sharing
import NetGet.Library.Table
import NetGet.Model.Bytes

/-! # Circuits and streams of the Tor relay

All connections of the relay share one `CircuitManager`. A session handles one cell after the
other, its forwarders bring back what its targets send. Each method of the manager is one section
under its lock, so handlers are programs that call such methods and ask their surroundings. -/

namespace NetGet.TorRelay

open Library Sharing

abbrev ConnectionId := ℕ

abbrev CircuitId := ℕ

abbrev StreamId := ℕ

abbrev Handle := ℕ

inductive RelayError where
  | circuitNotFound
  | streamNotFound
  | streamIdExists
  | streamLimit
  | create2TooShort
  | unsupportedHandshake (htype : ℕ)
  | invalidHandshakeLength (hlen : ℕ)
  | handshakeIncomplete
  | handshakeFailed
  | relayTooShort
  | closeRequested
  | invalidUtf8
  | invalidTarget (target : String)
  | channelClosed
  deriving DecidableEq

/-! ## Flow control -/

/-- Addition on `u16`, which panics on overflow. -/
def addU16 (a b : ℕ) : Option ℕ := if a + b < 2 ^ 16 then some (a + b) else none

structure Window where
  package : ℕ
  deliver : ℕ
  received : ℕ
  deriving DecidableEq

namespace Window

def start (size : ℕ) : Window := { package := size, deliver := size, received := 0 }

/-- Count a cell; every `increment` cells a SENDME is due. -/
def recordReceived (increment : ℕ) (w : Window) : Option (Window × Bool) :=
  let deliver := w.deliver - 1
  (addU16 w.received 1).bind fun received =>
    if increment ≤ received then
      (addU16 deliver increment).map fun deliver => ({ w with deliver, received := 0 }, true)
    else some ({ w with deliver, received }, false)

def processSendme (increment : ℕ) (w : Window) : Option Window :=
  (addU16 w.package increment).map fun package => { w with package }

end Window

def circuitWindowStart : ℕ := 1000

def circuitWindowIncrement : ℕ := 100

def streamWindowStart : ℕ := 500

def streamWindowIncrement : ℕ := 50

/-! ## Streams and circuits -/

inductive StreamState where
  | connecting
  | active (connection : Handle) (window : Window)
  | directory (requestData : Bytes) (window : Window)
  deriving DecidableEq

structure Stream where
  target : String
  state : StreamState
  deriving DecidableEq

def maxStreamsPerCircuit : ℕ := 64

namespace Stream

def new (target : String) : Stream := { target, state := .connecting }

def setActive (s : Stream) (connection : Handle) : Stream :=
  { s with state := .active connection (.start streamWindowStart) }

def setDirectory (s : Stream) : Stream :=
  { s with state := .directory [] (.start streamWindowStart) }

def isDirectory (s : Stream) : Bool :=
  match s.state with
  | .directory _ _ => true
  | _ => false

def connection (s : Stream) : Option Handle :=
  match s.state with
  | .active connection _ => some connection
  | _ => none

def window (s : Stream) : Option Window :=
  match s.state with
  | .active _ window | .directory _ window => some window
  | .connecting => none

def setWindow (s : Stream) (window : Window) : Stream :=
  match s.state with
  | .active connection _ => { s with state := .active connection window }
  | .directory requestData _ => { s with state := .directory requestData window }
  | .connecting => s

def recordDataReceived (s : Stream) : Option (Stream × Bool) :=
  match s.window with
  | some window =>
    (window.recordReceived streamWindowIncrement).map fun r => (s.setWindow r.1, r.2)
  | none => some (s, false)

def processSendme (s : Stream) : Option Stream :=
  match s.window with
  | some window => (window.processSendme streamWindowIncrement).map s.setWindow
  | none => some s

def appendRequestData (s : Stream) (data : Bytes) : Stream :=
  match s.state with
  | .directory requestData window => { s with state := .directory (requestData ++ data) window }
  | _ => s

def requestData (s : Stream) : Bytes :=
  match s.state with
  | .directory requestData _ => requestData
  | _ => []

end Stream

structure KeyMaterial where
  kf : Bytes
  kb : Bytes
  df : Bytes
  db : Bytes

/-- The keystreams and running digests of a circuit. -/
structure CircuitCrypto (χ : Type) where
  new : KeyMaterial → χ
  decrypt : χ → Bytes → χ × Bytes
  encrypt : χ → Bytes → χ × Bytes

/-- A circuit. The connection whose cell created it is not in the source and read by nothing. -/
structure Circuit (χ : Type) where
  creator : ConnectionId
  crypto : χ
  streams : Table StreamId Stream
  bytesSent : ℕ
  bytesReceived : ℕ
  window : Window

variable {χ : Type} (cipher : CircuitCrypto χ)

namespace Circuit

def new (creator : ConnectionId) (keys : KeyMaterial) : Circuit χ where
  creator
  crypto := cipher.new keys
  streams := ∅
  bytesSent := 0
  bytesReceived := 0
  window := .start circuitWindowStart

def createStream (c : Circuit χ) (id : StreamId) (target : String) :
    Circuit χ × Except RelayError Unit :=
  if id ∈ c.streams then (c, .error .streamIdExists)
  else if maxStreamsPerCircuit ≤ c.streams.entries.length then (c, .error .streamLimit)
  else ({ c with streams := c.streams.insert id (.new target) }, .ok ())

def modifyStream (c : Circuit χ) (id : StreamId) (f : Stream → Stream) :
    Circuit χ × Except RelayError Unit :=
  match c.streams.lookup id with
  | none => (c, .error .streamNotFound)
  | some stream => ({ c with streams := c.streams.insert id (f stream) }, .ok ())

def readStream {α : Type} (c : Circuit χ) (id : StreamId) (f : Stream → α) :
    Circuit χ × Except RelayError α :=
  match c.streams.lookup id with
  | none => (c, .error .streamNotFound)
  | some stream => (c, .ok (f stream))

def createDirectoryStream (c : Circuit χ) (id : StreamId) : Circuit χ × Except RelayError Unit :=
  match c.createStream id "directory" with
  | (c, .error e) => (c, .error e)
  | (c, .ok ()) => c.modifyStream id Stream.setDirectory

def recordStreamDataReceived (c : Circuit χ) (id : StreamId) : Option (Circuit χ × Bool) :=
  match c.streams.lookup id with
  | none => some (c, false)
  | some stream =>
    stream.recordDataReceived.map fun r =>
      ({ c with streams := c.streams.insert id r.1 }, r.2)

def processStreamSendme (c : Circuit χ) (id : StreamId) : Option (Circuit χ) :=
  match c.streams.lookup id with
  | none => some c
  | some stream =>
    stream.processSendme.map fun stream => { c with streams := c.streams.insert id stream }

end Circuit

/-! ## The circuit manager -/

/-- The methods of `CircuitManager` that take a circuit id. -/
inductive Op where
  | create (creator : ConnectionId) (keys : KeyMaterial)
  | decrypt (payload : Bytes)
  | encrypt (payload : Bytes)
  | destroy
  | createStream (id : StreamId) (target : String)
  | createDirectoryStream (id : StreamId)
  | setStreamActive (id : StreamId) (connection : Handle)
  | getStreamWriter (id : StreamId)
  | getStreamReader (id : StreamId)
  | isDirectoryStream (id : StreamId)
  | appendDirectoryData (id : StreamId) (data : Bytes)
  | getDirectoryRequest (id : StreamId)
  | closeStream (id : StreamId)
  | recordSent (bytes : ℕ)
  | recordReceived (bytes : ℕ)
  | recordRelayReceived
  | processCircuitSendme
  | recordStreamDataReceived (id : StreamId)
  | processStreamSendme (id : StreamId)

def Op.Value : Op → Type
  | .decrypt _ | .encrypt _ | .getDirectoryRequest _ => Bytes
  | .getStreamWriter _ | .getStreamReader _ => Option Handle
  | .isDirectoryStream _ | .recordRelayReceived | .recordStreamDataReceived _ => Bool
  | _ => Unit

def withCircuit {α : Type} (f : Circuit χ → Option (Circuit χ × Except RelayError α)) :
    Option (Circuit χ) → Option (Option (Circuit χ) × Except RelayError α)
  | none => some (none, .error .circuitNotFound)
  | some c => (f c).map fun r => (some r.1, r.2)

/-- A method on the entry of its circuit id; without a result it has panicked. -/
def Op.apply : (op : Op) → Option (Circuit χ) →
    Option (Option (Circuit χ) × Except RelayError op.Value)
  | .create creator keys => fun _ => some (some (.new cipher creator keys), .ok ())
  | .decrypt payload =>
    withCircuit fun c =>
      let (crypto, payload) := cipher.decrypt c.crypto payload
      some ({ c with crypto }, .ok payload)
  | .encrypt payload =>
    withCircuit fun c =>
      let (crypto, payload) := cipher.encrypt c.crypto payload
      some ({ c with crypto }, .ok payload)
  | .destroy => fun _ => some (none, .ok ())
  | .createStream id target => withCircuit fun c => some (c.createStream id target)
  | .createDirectoryStream id => withCircuit fun c => some (c.createDirectoryStream id)
  | .setStreamActive id connection =>
    withCircuit fun c => some (c.modifyStream id (·.setActive connection))
  | .getStreamWriter id => withCircuit fun c => some (c.readStream id (·.connection))
  | .getStreamReader id => withCircuit fun c => some (c.readStream id (·.connection))
  | .isDirectoryStream id => withCircuit fun c => some (c.readStream id (·.isDirectory))
  | .appendDirectoryData id data =>
    withCircuit fun c => some (c.modifyStream id (·.appendRequestData data))
  | .getDirectoryRequest id => withCircuit fun c => some (c.readStream id (·.requestData))
  | .closeStream id =>
    withCircuit fun c => some ({ c with streams := c.streams.erase id }, .ok ())
  | .recordSent bytes => fun entry =>
    some (entry.map fun c => { c with bytesSent := c.bytesSent + bytes }, .ok ())
  | .recordReceived bytes => fun entry =>
    some (entry.map fun c => { c with bytesReceived := c.bytesReceived + bytes }, .ok ())
  | .recordRelayReceived =>
    withCircuit fun c =>
      (c.window.recordReceived circuitWindowIncrement).map fun r =>
        ({ c with window := r.1 }, .ok r.2)
  | .processCircuitSendme =>
    withCircuit fun c =>
      (c.window.processSendme circuitWindowIncrement).map fun window =>
        ({ c with window }, .ok ())
  | .recordStreamDataReceived id =>
    withCircuit fun c => (c.recordStreamDataReceived id).map fun r => (r.1, .ok r.2)
  | .processStreamSendme id =>
    withCircuit fun c => (c.processStreamSendme id).map fun c => (c, .ok ())

/-! ## Handlers -/

/-- What the model decided, as far as handlers look at it. -/
inductive ActionResult where
  | output (data : Bytes)
  | closeConnection
  | other

/-- What a handler asks or tells outside the manager. -/
inductive Question where
  | handshake (clientX : Bytes)
  | circuitCreated (circuit : CircuitId)
  | relayCell (circuit : CircuitId) (command : UInt8) (stream : StreamId) (length : ℕ)
  | connect (target : String)
  | write (connection : Handle) (data : Bytes)
  | read (connection : Handle)
  | directory (request : Bytes)
  | send (cell : Bytes)
  | spawnForwarder (circuit : CircuitId) (stream : StreamId) (connection : Handle)

def Question.Answer : Question → Type
  | .handshake _ => Except RelayError (Bytes × Bytes × KeyMaterial)
  | .circuitCreated _ | .relayCell _ _ _ _ => Except Unit (List ActionResult)
  | .connect _ => Option Handle
  | .write _ _ | .send _ => Bool
  | .read _ => Option Bytes
  | .directory _ => Bytes
  | .spawnForwarder _ _ _ => Unit

def interface : Interface where
  Value := Option (Circuit χ)
  Op := Op
  Reply op := Except RelayError op.Value
  apply := Op.apply cipher
  Question := Question
  Answer := Question.Answer

abbrev Task (α : Type) := Program (interface cipher) CircuitId α

abbrev Handler (α : Type) := ExceptT RelayError (Task cipher) α

variable {cipher}

def need (circuit : CircuitId) (op : Op) : Handler cipher op.Value :=
  ExceptT.mk (.call circuit op .done)

def attempt (circuit : CircuitId) (op : Op) : Handler cipher (Except RelayError op.Value) :=
  ExceptT.lift (.call circuit op .done)

def ask (question : Question) : Handler cipher question.Answer :=
  ExceptT.lift (.ask question .done)

def fixedCellLen : ℕ := 514

/-- `Vec::resize` with zeros. -/
def resize (cell : Bytes) (length : ℕ) : Bytes :=
  cell.take length ++ List.replicate (length - cell.length) 0

def beginCommand : UInt8 := 1

def dataCommand : UInt8 := 2

def endCommand : UInt8 := 3

def connectedCommand : UInt8 := 4

def sendmeCommand : UInt8 := 5

def beginDirCommand : UInt8 := 13

def reasonMisc : UInt8 := 1

def reasonConnectRefused : UInt8 := 3

def reasonDone : UInt8 := 6

def reasonResourceLimit : UInt8 := 11

def destroyReasonProtocol : UInt8 := 1

def destroyReasonInternal : UInt8 := 2

def buildRelayCell (circuit : CircuitId) (stream : StreamId) (command : UInt8) (data : Bytes) :
    Bytes :=
  resize
    (toBe 4 circuit ++ [3, command, 0, 0] ++ toBe 2 stream ++ [0, 0, 0, 0] ++
      toBe 2 data.length ++ data)
    fixedCellLen

def createDestroyCell (circuit : CircuitId) (reason : UInt8) : Bytes :=
  resize (toBe 4 circuit ++ [4, reason]) fixedCellLen

def encryptCell (circuit : CircuitId) (cell : Bytes) : Handler cipher Bytes := do
  let payload : Bytes ← need circuit (.encrypt (cell.drop 5))
  return cell.take 5 ++ payload

def countedCell (circuit : CircuitId) (cell : Bytes) : Handler cipher Bytes := do
  let encrypted ← encryptCell circuit cell
  let _ ← attempt circuit (.recordSent 509)
  return encrypted

/-- The first answer of the model that decides. -/
def decision : List ActionResult → Option ActionResult
  | [] => none
  | .other :: rest => decision rest
  | result :: _ => some result

def created2 (circuit : CircuitId) (y auth : Bytes) : Bytes :=
  resize (toBe 4 circuit ++ [11] ++ toBe 2 64 ++ y ++ auth) fixedCellLen

/-- The answer to a CREATE2 cell once the circuit is there. -/
def answerCreated (circuit : CircuitId) (y auth : Bytes) : Handler cipher (Option Bytes) := do
  let answer ← ask (.circuitCreated circuit)
  match answer with
  | .ok results =>
    match decision results with
    | some (.output data) => return some data
    | some .closeConnection => do
      let _ ← attempt circuit .destroy
      throw .closeRequested
    | _ => return some (created2 circuit y auth)
  | .error _ => do
    -- an outage of the model must not admit every circuit
    let _ ← attempt circuit .destroy
    return some (createDestroyCell circuit destroyReasonInternal)

def handleCreate2 (connection : ConnectionId) (circuit : CircuitId) (cell : Bytes) :
    Handler cipher (Option Bytes) :=
  let htype := fromBe ((cell.drop 5).take 2)
  let hlen := fromBe ((cell.drop 7).take 2)
  if cell.length < 9 then throw .create2TooShort
  else if htype ≠ 2 then throw (.unsupportedHandshake htype)
  else if hlen ≠ 84 then throw (.invalidHandshakeLength hlen)
  else if cell.length < 9 + hlen then throw .handshakeIncomplete
  else do
    let answer ← ask (.handshake (((cell.drop 9).drop 52).take 32))
    match answer with
    | .error e => throw e
    | .ok (y, auth, keys) => do
      let _ ← need circuit (.create connection keys)
      answerCreated circuit y auth

def parseBeginTarget (data : Bytes) : Except RelayError String :=
  match String.fromUTF8? ⟨(data.takeWhile (· ≠ 0)).toArray⟩ with
  | none => .error .invalidUtf8
  | some target => if ':' ∈ target.toList then .ok target else .error (.invalidTarget target)

def endStream (circuit : CircuitId) (stream : StreamId) (reason : UInt8) :
    Handler cipher (Option Bytes) := do
  let encrypted ← countedCell circuit (buildRelayCell circuit stream endCommand [reason])
  return some encrypted

def connectStream (circuit : CircuitId) (stream : StreamId) (target : String) :
    Handler cipher (Option Bytes) := do
  let connected ← ask (.connect target)
  match connected with
  | some connection => do
    let _ ← need circuit (.setStreamActive stream connection)
    let encrypted ← countedCell circuit (buildRelayCell circuit stream connectedCommand [])
    let reader : Option Handle ← need circuit (.getStreamReader stream)
    match reader with
    | none => throw .streamNotFound
    | some connection => do
      let _ ← ask (.spawnForwarder circuit stream connection)
      return some encrypted
  | none => do
    let _ ← attempt circuit (.closeStream stream)
    endStream circuit stream reasonConnectRefused

def handleBeginCell (circuit : CircuitId) (stream : StreamId) (data : Bytes) :
    Handler cipher (Option Bytes) :=
  match parseBeginTarget data with
  | .error e => throw e
  | .ok target => do
    let created ← attempt circuit (.createStream stream target)
    match created with
    -- a refused stream leaves the circuit up
    | .error _ => endStream circuit stream reasonResourceLimit
    | .ok _ => connectStream circuit stream target

def handleBeginDirCell (circuit : CircuitId) (stream : StreamId) :
    Handler cipher (Option Bytes) := do
  let _ ← need circuit (.createDirectoryStream stream)
  let encrypted ← encryptCell circuit (buildRelayCell circuit stream connectedCommand [])
  return some encrypted

def maxRelayPayload : ℕ := 498

/-- The DATA cells of a directory document. -/
def sendChunks (circuit : CircuitId) (stream : StreamId) : List Bytes → Handler cipher Unit
  | [] => return ()
  | piece :: rest => do
    let encrypted ← encryptCell circuit (buildRelayCell circuit stream dataCommand piece)
    let sent ← ask (.send encrypted)
    match sent with
    | false => throw .channelClosed
    | true => do
      let _ ← attempt circuit (.recordSent 509)
      sendChunks circuit stream rest

def sendDirectoryResponse (circuit : CircuitId) (stream : StreamId) (data : Bytes) :
    Handler cipher Unit :=
  sendChunks circuit stream (Peeling.pieces maxRelayPayload data)

def isComplete (request : Bytes) : Bool :=
  request.tails.any fun rest => [13, 10, 13, 10].isPrefixOf rest

def handleDirectoryData (circuit : CircuitId) (stream : StreamId) (data : Bytes) :
    Handler cipher (Option Bytes) := do
  let _ ← need circuit (.appendDirectoryData stream data)
  let request : Bytes ← need circuit (.getDirectoryRequest stream)
  match isComplete request with
  | false => return none
  | true => do
    let document ← ask (.directory request)
    sendDirectoryResponse circuit stream document
    let encrypted ← encryptCell circuit (buildRelayCell circuit stream endCommand [reasonDone])
    return some encrypted

/-- A SENDME to the client, if one is due. -/
def sendStreamSendme (circuit : CircuitId) (stream : StreamId) :
    Except RelayError Bool → Handler cipher Unit
  | .ok true => do
    let encrypted ← countedCell circuit (buildRelayCell circuit stream sendmeCommand [])
    let _ ← ask (.send encrypted)
    return ()
  | _ => return ()

def forwardData (circuit : CircuitId) (stream : StreamId) (data : Bytes) :
    Handler cipher (Option Bytes) := do
  let writer : Option Handle ← need circuit (.getStreamWriter stream)
  match writer with
  | none => return none
  | some connection => do
    let written ← ask (.write connection data)
    match written with
    | true => return none
    | false => do
      let _ ← attempt circuit (.closeStream stream)
      endStream circuit stream reasonMisc

def handleDataCell (circuit : CircuitId) (stream : StreamId) (data : Bytes) :
    Handler cipher (Option Bytes) := do
  let due ← attempt circuit (.recordStreamDataReceived stream)
  sendStreamSendme circuit stream due
  let directory : Bool ← need circuit (.isDirectoryStream stream)
  match directory with
  | true => handleDirectoryData circuit stream data
  | false => forwardData circuit stream data

def handleEndCell (circuit : CircuitId) (stream : StreamId) : Handler cipher (Option Bytes) := do
  let _ ← attempt circuit (.closeStream stream)
  return none

def handleSendmeCell (circuit : CircuitId) (stream : StreamId) : Handler cipher (Option Bytes) :=
  if stream = 0 then do
    let _ ← attempt circuit .processCircuitSendme
    return none
  else do
    let _ ← attempt circuit (.processStreamSendme stream)
    return none

/-- A command the relay does not implement itself. -/
def handleOtherCell (circuit : CircuitId) (command : UInt8) (stream : StreamId) (length : ℕ) :
    Handler cipher (Option Bytes) := do
  let answer ← ask (.relayCell circuit command stream length)
  match answer with
  | .ok results =>
    match decision results with
    | some (.output data) => return some data
    | some .closeConnection => throw .closeRequested
    | _ => return none
  | .error _ => do
    let _ ← attempt circuit .destroy
    return some (createDestroyCell circuit destroyReasonInternal)

def sendCircuitSendme (circuit : CircuitId) : Except RelayError Bool → Handler cipher Unit
  | .ok true => do
    let encrypted ← encryptCell circuit (buildRelayCell circuit 0 sendmeCommand [])
    let _ ← ask (.send encrypted)
    return ()
  | _ => return ()

structure RelayHeader where
  command : UInt8
  recognized : ℕ
  stream : StreamId
  length : ℕ

def relayHeader : Bytes → Option RelayHeader
  | command :: r₀ :: r₁ :: s₀ :: s₁ :: _ :: _ :: _ :: _ :: l₀ :: l₁ :: _ =>
    some
      { command
        recognized := fromBe [r₀, r₁]
        stream := fromBe [s₀, s₁]
        length := fromBe [l₀, l₁] }
  | _ => none

def handleCommand (circuit : CircuitId) (header : RelayHeader) (data : Bytes) :
    Handler cipher (Option Bytes) :=
  if header.command = beginCommand then handleBeginCell circuit header.stream data
  else if header.command = beginDirCommand then handleBeginDirCell circuit header.stream
  else if header.command = dataCommand then handleDataCell circuit header.stream data
  else if header.command = endCommand then handleEndCell circuit header.stream
  else if header.command = sendmeCommand then handleSendmeCell circuit header.stream
  else handleOtherCell circuit header.command header.stream header.length

def handlePayload (circuit : CircuitId) (payload : Bytes) : Handler cipher (Option Bytes) :=
  match relayHeader payload with
  | none => throw .relayTooShort
  | some header =>
    -- the length is whatever the peer's bytes decrypt to
    if payload.length < 11 + header.length then return none
    else if header.recognized ≠ 0 then return none
    else handleCommand circuit header ((payload.drop 11).take header.length)

def handleRelay (circuit : CircuitId) (cell : Bytes) : Handler cipher (Option Bytes) := do
  let payload : Bytes ← need circuit (.decrypt (cell.drop 5))
  let _ ← attempt circuit (.recordReceived 509)
  let due ← attempt circuit .recordRelayReceived
  sendCircuitSendme circuit due
  handlePayload circuit payload

/-! ## Cells -/

inductive CellType where
  | create2
  | relay
  | destroy
  | other
  deriving DecidableEq

def cellType (command : UInt8) : CellType :=
  if command = 10 then .create2
  else if command = 3 ∨ command = 9 then .relay
  else if command = 4 then .destroy
  else .other

structure TorCellInfo where
  circuitId : CircuitId
  cellType : CellType

def parseTorCell : Bytes → Option TorCellInfo
  | a :: b :: c :: d :: command :: _ =>
    some { circuitId := fromBe [a, b, c, d], cellType := cellType command }
  | _ => none

def handleCell (connection : ConnectionId) (info : TorCellInfo) (cell : Bytes) :
    Handler cipher (Option Bytes) :=
  match info.cellType with
  | .create2 => handleCreate2 connection info.circuitId cell
  | .relay => handleRelay info.circuitId cell
  | .destroy => do
    let _ ← attempt info.circuitId .destroy
    return none
  | .other => return none

/-! ## Forwarders -/

def forwardEnd (circuit : CircuitId) (stream : StreamId) : Task cipher Bool := do
  let cell := buildRelayCell circuit stream endCommand [reasonDone]
  let encrypted ← (encryptCell circuit cell).run
  match encrypted with
  | .ok encrypted => do
    let _ ← (attempt circuit (.recordSent 509)).run
    let _ ← (ask (.send encrypted)).run
    let _ ← (attempt circuit (.closeStream stream)).run
    return false
  | .error _ => do
    let _ ← (attempt circuit (.closeStream stream)).run
    return false

def forwardTurn (circuit : CircuitId) (stream : StreamId) (connection : Handle) :
    Task cipher Bool := .ask (.read connection) fun
  | none => forwardEnd circuit stream
  | some data => .bind
      (countedCell circuit (buildRelayCell circuit stream dataCommand data)).run fun
      | .error _ => forwardEnd circuit stream
      | .ok encrypted => .ask (.send encrypted) fun
          | true => .done true
          | false => forwardEnd circuit stream

structure Forwarder (cipher : CircuitCrypto χ) where
  circuit : CircuitId
  stream : StreamId
  connection : Handle
  task : Task cipher Bool

/-! ## Sessions -/

/-- The session of a connection with its forwarders: the cell in work, the cells waiting for the
writer, the cells written, and what was asked outside. -/
structure Session (cipher : CircuitCrypto χ) where
  id : ConnectionId
  handling : Option (CircuitId × Task cipher (Except RelayError (Option Bytes)))
  forwarders : List (Forwarder cipher)
  outgoing : List Bytes
  wire : List Bytes
  asked : List Question
  closed : Bool

namespace Session

def new (id : ConnectionId) : Session cipher where
  id
  handling := none
  forwarders := []
  outgoing := []
  wire := []
  asked := []
  closed := false

/-- The answer to a question; the surroundings give it where the session cannot. -/
def answer (s : Session cipher) : (question : Question) → question.Answer →
    Session cipher × question.Answer
  | .send cell, _ =>
    if s.closed then (s, false) else ({ s with outgoing := s.outgoing ++ [cell] }, true)
  | .spawnForwarder circuit stream connection, _ =>
    let task := forwardTurn circuit stream connection
    ({ s with forwarders := s.forwarders ++ [{ circuit, stream, connection, task }] }, ())
  | .handshake clientX, a => ({ s with asked := s.asked ++ [.handshake clientX] }, a)
  | .circuitCreated circuit, a => ({ s with asked := s.asked ++ [.circuitCreated circuit] }, a)
  | .relayCell circuit command stream length, a =>
    ({ s with asked := s.asked ++ [.relayCell circuit command stream length] }, a)
  | .connect target, a => ({ s with asked := s.asked ++ [.connect target] }, a)
  | .write connection data, a => ({ s with asked := s.asked ++ [.write connection data] }, a)
  | .read connection, a => ({ s with asked := s.asked ++ [.read connection] }, a)
  | .directory request, a => ({ s with asked := s.asked ++ [.directory request] }, a)

def finish (s : Session cipher) (circuit : CircuitId) :
    Except RelayError (Option Bytes) → Session cipher
  | .ok none => { s with handling := none }
  | .ok (some response) => { s with handling := none, wire := s.wire ++ [response] }
  | .error _ =>
    { s with
      handling := none
      wire := s.wire ++ [createDestroyCell circuit destroyReasonProtocol]
      closed := true }

def receive (s : Session cipher) (cell : Bytes) : Session cipher :=
  if s.closed ∨ s.handling.isSome ∨ cell.length ≠ fixedCellLen then s
  else
    match parseTorCell cell with
    | none => s
    | some info =>
      { s with handling := some (info.circuitId, (handleCell s.id info cell).run) }

/-- Write a cell that a forwarder or a handler has left. -/
def flush (s : Session cipher) : Session cipher :=
  if s.closed ∨ s.handling.isSome then s
  else
    match s.outgoing with
    | [] => s
    | cell :: outgoing => { s with outgoing, wire := s.wire ++ [cell] }

def setForwarder (s : Session cipher) (k : ℕ) (f : Forwarder cipher) (task : Task cipher Bool) :
    Session cipher :=
  { s with forwarders := s.forwarders.set k { f with task } }

end Session

inductive Event where
  | cell (cell : Bytes)
  | handle (answers : ∀ question : Question, question.Answer)
  | forward (k : ℕ) (answers : ∀ question : Question, question.Answer)
  | flush
  | close

def Session.handle (s : Session cipher) (answers : ∀ question : Question, question.Answer) :
    Act (interface cipher) CircuitId (Session cipher) :=
  match s.handling with
  | none => .own s
  | some (circuit, .done result) => .own (s.finish circuit result)
  | some (circuit, .call key op next) => .use key op fun
      | some reply => { s with handling := some (circuit, next reply) }
      | none => { s with handling := none, closed := true }
  | some (circuit, .ask question next) =>
    let (s, a) := s.answer question (answers question)
    .own { s with handling := some (circuit, next a) }

def Session.forward (s : Session cipher) (k : ℕ)
    (answers : ∀ question : Question, question.Answer) :
    Act (interface cipher) CircuitId (Session cipher) :=
  match s.forwarders[k]? with
  | none => .own s
  | some f =>
    match f.task with
    | .done true => .own (s.setForwarder k f (forwardTurn f.circuit f.stream f.connection))
    | .done false => .own { s with forwarders := s.forwarders.eraseIdx k }
    | .call key op next => .use key op fun
        | some reply => s.setForwarder k f (next reply)
        | none => { s with forwarders := s.forwarders.eraseIdx k }
    | .ask question next =>
      let (s, a) := s.answer question (answers question)
      .own (s.setForwarder k f (next a))

def Session.act (s : Session cipher) :
    Event → Act (interface cipher) CircuitId (Session cipher)
  | .cell cell => .own (s.receive cell)
  | .handle answers => s.handle answers
  | .forward k answers => s.forward k answers
  | .flush => .own s.flush
  | .close => .own (if s.handling.isSome then s else { s with closed := true })

variable (cipher)

abbrev Relay := World (interface cipher) ConnectionId CircuitId (Session cipher)

def Relay.new : Relay cipher where
  store _ := none
  agents id := .new id

def Relay.step (w : Relay cipher) (label : ConnectionId × Event) : Relay cipher :=
  Sharing.step Session.act w label

end NetGet.TorRelay
