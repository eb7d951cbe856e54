import NetGet.Library.Arith
import NetGet.Library.Bounded
import NetGet.Library.Decimal
import NetGet.Library.Machine
import NetGet.Model.Bytes

/-! # FIX: tag=value framing and the session layer

A string of the source is its text; what goes on the wire are its UTF-8 bytes. Arithmetic on
sequence numbers panics on overflow, and a panic ends the connection's task: `none`. -/

namespace NetGet.Fix

open Library

/-! ## Framing -/

def soh : UInt8 := 0x01

def maxBody : ℕ := 256 * 1024

def maxFields : ℕ := 2000

def dataPairs : List (ℕ × ℕ) :=
  [(90, 91), (93, 89), (95, 96), (212, 213), (348, 349), (350, 351), (352, 353), (354, 355),
    (356, 357), (358, 359), (360, 361), (362, 363), (364, 365), (445, 446), (618, 619), (621, 622)]

abbrev Field := ℕ × String

/-- Every field in wire order, BeginString, BodyLength and CheckSum excluded. -/
structure Message where
  fields : List Field
  deriving DecidableEq

namespace Message

def get (m : Message) (tag : ℕ) : Option String := (m.fields.find? (·.1 == tag)).map (·.2)

def msgType (m : Message) : String := (m.get 35).getD ""

def seq (m : Message) : Option ℕ := (m.get 34).bind fun s => parseUnsigned 32 (utf8 s)

end Message

inductive Frame where
  | incomplete
  | message (beginString : String) (message : Message) (consumed : ℕ)
  | garbled (consumed : ℕ) (reason : String)
  deriving DecidableEq

def find (needle : Bytes) : Bytes → Option ℕ
  | [] => if needle.isPrefixOf [] then some 0 else none
  | b :: hay =>
    if needle.isPrefixOf (b :: hay) then some 0 else (find needle hay).map (· + 1)

def position (b : UInt8) (bytes : Bytes) : Option ℕ := bytes.findIdx? (· == b)

def checksum (bytes : Bytes) : UInt8 := bytes.foldl (· + ·) 0

/-- `String::from_utf8_lossy`. A string reads back as itself, and an SOH is neither lost nor made
up where invalid bytes are replaced. -/
structure Lossy where
  decode : Bytes → String
  decode_utf8 : ∀ s : String, decode (utf8 s) = s
  count_soh : ∀ bytes, (utf8 (decode bytes)).count soh = bytes.count soh

def parseTag (bytes : Bytes) : Except String ℕ :=
  if bytes ≠ [] ∧ bytes.length ≤ 9 ∧ bytes.head? ≠ some 48 ∧ bytes.all isAsciiDigit then
    .ok (decimalValue bytes)
  else .error "invalid tag"

/-- The value of a field and what follows it; a data field is as long as the field in front of it
says. -/
def parseValue (lossy : Lossy) (dataLen : Option (ℕ × ℕ)) (tag : ℕ) (rest : Bytes) :
    Except String (String × Bytes) :=
  match dataLen.filter (·.1 == tag) with
  | some (_, n) =>
    if rest.length < n then .error "data field shorter than its length"
    else if rest[n]? ≠ some soh then .error "data field not followed by SOH"
    else .ok (lossy.decode (rest.take n), rest.drop (n + 1))
  | none =>
    match position soh rest with
    | none => .error "field not terminated by SOH"
    | some e =>
      if e = 0 then .error s!"tag {tag} has an empty value"
      else .ok (lossy.decode (rest.take e), rest.drop (e + 1))

def announces (tag : ℕ) (value : String) : Except String (Option (ℕ × ℕ)) :=
  match dataPairs.find? (·.1 == tag) with
  | none => .ok none
  | some (_, dataTag) =>
    match (parseUnsigned 64 (utf8 value)).filter (· ≤ maxBody) with
    | some n => .ok (some (dataTag, n))
    | none => .error "invalid data length"

/-- The loop over the fields, with the bytes that are left. Every round takes at least one byte,
so there are at most as many rounds as bytes. -/
def parseLoop (lossy : Lossy) : ℕ → Option (ℕ × ℕ) → List Field → Bytes →
    Except String (List Field)
  | 0, _, out, _ => .ok out
  | rounds + 1, dataLen, out, rest =>
    if rest = [] then .ok out
    else if maxFields ≤ out.length then .error s!"more than {maxFields} fields"
    else
      match position 61 rest with
      | none => .error "field without ="
      | some e => do
        let tag ← parseTag (rest.take e)
        let (value, after) ← parseValue lossy dataLen tag (rest.drop (e + 1))
        let dataLen ← announces tag value
        parseLoop lossy rounds dataLen (out ++ [(tag, value)]) after

def parseFields (lossy : Lossy) (body : Bytes) : Except String (List Field) := do
  let out ← parseLoop lossy body.length none [] body
  if (out.head?.map (·.1)) = some 35 then .ok out else .error "MsgType is not the third field"

def bodyLength (digits : Bytes) : Option ℕ :=
  if digits ≠ [] ∧ digits.length ≤ 7 ∧ digits.all isAsciiDigit ∧ decimalValue digits ≤ maxBody then
    some (decimalValue digits)
  else none

/-- The end of framing, once the body is known to start at `bodyStart` and to have `len`
bytes. -/
def frameBody (lossy : Lossy) (buf : Bytes) (beginString : String) (bodyStart len : ℕ) : Frame :=
  let total := bodyStart + len + 7
  if buf.length < total then .incomplete
  else
    let trailer := (buf.take total).drop (bodyStart + len)
    if !(utf8 "10=").isPrefixOf trailer || trailer[6]? != some soh ||
        !((trailer.take 6).drop 3).all isAsciiDigit then
      .garbled bodyStart "BodyLength does not end at CheckSum"
    else if decimalValue ((trailer.take 6).drop 3) ≠
        (checksum (buf.take (bodyStart + len))).toNat then
      .garbled total "CheckSum mismatch"
    else
      match parseFields lossy ((buf.take (bodyStart + len)).drop bodyStart) with
      | .ok fields => .message beginString { fields := fields } total
      | .error e => .garbled total e

def frame (lossy : Lossy) (buf : Bytes) : Frame :=
  if buf = [] then .incomplete
  else if !(utf8 "8=").isPrefixOf buf then
    match find (soh :: utf8 "8=") buf with
    | some p => .garbled (p + 1) "bytes before BeginString"
    | none => if 1 < buf.length then .garbled (buf.length - 1) "no BeginString" else .incomplete
  else
    match position soh buf with
    | none => if 32 < buf.length then .garbled 2 "BeginString too long" else .incomplete
    | some e1 =>
      let beginString := lossy.decode ((buf.take e1).drop 2)
      let rest := buf.drop (e1 + 1)
      if rest.length < 2 then .incomplete
      else if !(utf8 "9=").isPrefixOf rest then
        .garbled (e1 + 1) "BodyLength is not the second field"
      else
        match position soh rest with
        | none =>
          if 12 < rest.length then .garbled (e1 + 1) "BodyLength too long" else .incomplete
        | some e2 =>
          match bodyLength ((rest.take e2).drop 2) with
          | none =>
            .garbled (e1 + 1 + e2 + 1) "BodyLength is not a number within bounds"
          | some len => frameBody lossy buf beginString (e1 + 1 + e2 + 1) len

def renderField (f : Field) : Bytes := utf8 (toString f.1) ++ 61 :: utf8 f.2 ++ [soh]

/-- The field may be written: only a data field may carry SOH. -/
def writable (f : Field) : Bool :=
  !((utf8 f.2).contains soh && !dataPairs.any (·.2 == f.1))

def encodeBody : List Field → Except String Bytes
  | [] => .ok []
  | f :: fields =>
    if writable f then do
      let body ← encodeBody fields
      return renderField f ++ body
    else .error s!"tag {f.1} contains SOH"

/-- Encode a message: BeginString, BodyLength, `fields` (MsgType first), CheckSum. -/
def encode (beginString : String) (fields : List Field) : Except String Bytes :=
  match encodeBody fields with
  | .error e => .error e
  | .ok body =>
    if maxBody < body.length then .error s!"message body over {maxBody} bytes"
    else
      let out := utf8 "8=" ++ utf8 beginString ++ [soh] ++ utf8 "9=" ++
        utf8 (toString body.length) ++ [soh] ++ body
      .ok (out ++ utf8 "10=" ++ utf8 (padded 3 (checksum out).toNat) ++ [soh])

structure Timestamp where
  year : ℕ
  month : ℕ
  day : ℕ
  hour : ℕ
  minute : ℕ
  second : ℕ
  millisecond : ℕ

def Timestamp.text (t : Timestamp) : String :=
  padded 4 t.year ++ padded 2 t.month ++ padded 2 t.day ++ "-" ++ padded 2 t.hour ++ ":" ++
    padded 2 t.minute ++ ":" ++ padded 2 t.second ++ "." ++ padded 3 t.millisecond

/-! ## The session -/

def resendStore : ℕ := 2048

/-- The message types the dictionary marks as administrative. -/
def adminTypes : List String := ["0", "1", "2", "3", "4", "5", "A"]

structure Sent where
  seq : ℕ
  msgType : String
  sendingTime : String
  body : List Field
  deriving DecidableEq

/-- The clock during one call: the instant, in nanoseconds, and the timestamps that go into the
message with a given number, as its SendingTime and as the OrigSendingTime of a gap fill. -/
structure Clock where
  now : ℕ
  sendingTime : ℕ → Timestamp
  origSendingTime : ℕ → Timestamp

structure Session where
  beginString : String
  sender : String
  target : String
  heartbeat : ℕ
  nextOut : ℕ
  nextIn : ℕ
  sent : List Sent
  /-- Highest sequence number seen while a ResendRequest is outstanding. -/
  resendUntil : Option ℕ
  lastIn : ℕ
  lastOut : ℕ
  testRequest : Option (String × ℕ)
  testCounter : ℕ
  logoutSent : Bool
  deriving DecidableEq

/-- What an inbound message asks of the connection: bytes to write, an application message for
the handler, the reason to close after writing. -/
structure Step where
  send : List Bytes
  app : Option Message
  close : Option String
  deriving DecidableEq

def Step.ofSend (bytes : List Bytes) : Step := { send := bytes, app := none, close := none }

namespace Session

def new (beginString sender target : String) (heartbeat now : ℕ) : Session :=
  { beginString := beginString
    sender := sender
    target := target
    heartbeat := heartbeat
    nextOut := 1
    nextIn := 1
    sent := []
    resendUntil := none
    lastIn := now
    lastOut := now
    testRequest := none
    testCounter := 0
    logoutSent := false }

def reset (s : Session) : Session :=
  { s with nextOut := 1, nextIn := 1, sent := [], resendUntil := none }

def acceptLogon (s : Session) (now seq : ℕ) : Option Session :=
  (checkedAdd 32 seq 1).map fun next => { s with nextIn := next, lastIn := now }

def header (s : Session) (clock : Clock) (msgType : String) (seq : ℕ) (possDup : Option String) :
    List Field :=
  [(35, msgType), (49, s.sender), (56, s.target), (34, toString seq)] ++
    (if possDup.isSome then [(43, "Y")] else []) ++
    [(52, (clock.sendingTime seq).text)] ++
    (possDup.map fun orig => (122, orig)).toList

def encode (s : Session) (clock : Clock) (msgType : String) (body : List Field) :
    Option (Session × Except String Bytes) :=
  let fields := s.header clock msgType s.nextOut none
  let sendingTime := ((fields.find? (·.1 == 52)).map (·.2)).getD ""
  match Fix.encode s.beginString (fields ++ body) with
  | .error e => some (s, .error e)
  | .ok bytes =>
    (checkedAdd 32 s.nextOut 1).map fun next =>
      let kept := s.sent ++
        [{ seq := s.nextOut, msgType := msgType, sendingTime := sendingTime, body := body }]
      ({ s with
          nextOut := next
          lastOut := clock.now
          sent := if adminTypes.contains msgType then s.sent
            else keepLast resendStore kept },
        .ok bytes)

def encodeOrDefault (s : Session) (clock : Clock) (msgType : String) (body : List Field) :
    Option (Session × Bytes) :=
  (s.encode clock msgType body).map fun out => (out.1, out.2.toOption.getD [])

def encodeIfOk (s : Session) (clock : Clock) (msgType : String) (body : List Field) :
    Option (Session × List Bytes) :=
  (s.encode clock msgType body).map fun out => (out.1, out.2.toOption.toList)

def logout (s : Session) (clock : Clock) (text : Option String) : Option (Session × Bytes) :=
  encodeOrDefault { s with logoutSent := true } clock "5" (text.map fun t => (58, t)).toList

def reject (s : Session) (clock : Clock) (refSeq reason : ℕ) (refTag : Option ℕ) (text : String) :
    Option (Session × Bytes) :=
  s.encodeOrDefault clock "3"
    ([(45, toString refSeq)] ++ (refTag.map fun t => (371, toString t)).toList ++
      [(373, toString reason), (58, text)])

def gapFill (s : Session) (clock : Clock) (seq newSeq : ℕ) : Bytes :=
  (Fix.encode s.beginString
    (s.header clock "4" seq (some (clock.origSendingTime seq).text) ++
      [(123, "Y"), (36, toString newSeq)])).toOption.getD []

def resendFields (s : Session) (clock : Clock) (m : Sent) : List Field :=
  s.header clock m.msgType m.seq (some m.sendingTime) ++ m.body

/-- The loop over the numbers asked for, with the number of rounds left. -/
def resendLoop (s : Session) (clock : Clock) : ℕ → ℕ → Option ℕ → List Bytes
  | 0, seq, gapFrom => (gapFrom.map fun g => s.gapFill clock g seq).toList
  | rounds + 1, seq, gapFrom =>
    match s.sent.find? (·.seq == seq) with
    | some m =>
      (gapFrom.map fun g => s.gapFill clock g seq).toList ++
        (Fix.encode s.beginString (s.resendFields clock m)).toOption.toList ++
        resendLoop s clock rounds (seq + 1) none
    | none => resendLoop s clock rounds (seq + 1) (some (gapFrom.getD seq))

/-- Answer a ResendRequest for the numbers from `first` to `last` (0 is everything sent). -/
def resend (s : Session) (clock : Clock) (first last : ℕ) : Session × List Bytes :=
  let sentLast := s.nextOut - 1
  let last := if last = 0 ∨ sentLast < last then sentLast else last
  let seq := max first 1
  ({ s with lastOut := clock.now }, s.resendLoop clock (last + 1 - seq) seq none)

def onResendRequest (s : Session) (clock : Clock) (m : Message) : Session × List Bytes :=
  let first := ((m.get 7).bind fun v => parseUnsigned 32 (utf8 v)).getD 1
  let last := ((m.get 16).bind fun v => parseUnsigned 32 (utf8 v)).getD 0
  s.resend clock first last

def newSeqNo (m : Message) : Option ℕ := (m.get 36).bind fun v => parseUnsigned 32 (utf8 v)

/-- A SequenceReset in reset mode applies whatever its sequence number. -/
def sequenceReset (s : Session) (clock : Clock) (m : Message) (seq : ℕ) :
    Option (Session × Step) :=
  match (newSeqNo m).filter (s.nextIn ≤ ·) with
  | some n => some ({ s with nextIn := n, resendUntil := none }, .ofSend [])
  | none => do
    let (s, r) ← s.reject clock seq 5 (some 36) "NewSeqNo is lower than expected"
    return (s, .ofSend [r])

def answerLogout (s : Session) (clock : Clock) (reason : String) : Option (Session × Step) :=
  if s.logoutSent then some (s, { send := [], app := none, close := some reason })
  else do
    let (s, bytes) ← s.logout clock none
    return (s, { send := [bytes], app := none, close := some reason })

/-- Ask for the missing messages unless a request is outstanding. -/
def askForResend (s : Session) (clock : Clock) : Option (Session × List Bytes) :=
  if s.resendUntil.isNone then s.encodeIfOk clock "2" [(7, toString s.nextIn), (16, "0")]
  else some (s, [])

def tooHigh (s : Session) (clock : Clock) (m : Message) (seq : ℕ) : Option (Session × Step) :=
  if m.msgType = "5" then s.answerLogout clock "peer logged out"
  else do
    let (s, answer) := if m.msgType = "2" then s.onResendRequest clock m else (s, [])
    let (s, request) ← s.askForResend clock
    return ({ s with resendUntil := some (max (s.resendUntil.getD 0) seq) },
      .ofSend (answer ++ request))

def settle (s : Session) : Session :=
  { s with resendUntil := s.resendUntil.filter (s.nextIn ≤ ·) }

/-- A message whose number is the expected one, which has been counted. -/
def inSequence (s : Session) (clock : Clock) (m : Message) (seq : ℕ) : Option (Session × Step) :=
  match m.msgType with
  | "0" =>
    let answered := (m.get 112).isSome && m.get 112 == s.testRequest.map (·.1)
    some ({ s with testRequest := if answered then none else s.testRequest }, .ofSend [])
  | "1" => do
    let id := (m.get 112).getD ""
    let (s, bytes) ← s.encodeIfOk clock "0" (if id = "" then [] else [(112, id)])
    return (s, .ofSend bytes)
  | "2" =>
    let (s, answer) := s.onResendRequest clock m
    some (s, .ofSend answer)
  | "3" => some (s, .ofSend [])
  | "4" =>
    match (newSeqNo m).filter (seq < ·) with
    | some n => some (settle { s with nextIn := n }, .ofSend [])
    | none => do
      let (s, r) ← s.reject clock seq 5 (some 36) "GapFill NewSeqNo must exceed MsgSeqNum"
      return (s, .ofSend [r])
  | "5" =>
    s.answerLogout clock
      (((m.get 58).map fun t => s!"peer logged out: {t}").getD "peer logged out")
  | "A" => do
    let (s, r) ← s.reject clock seq 11 (some 35) "already logged on"
    return (s, .ofSend [r])
  | _ =>
    if (m.get 52).isNone then do
      let (s, r) ← s.reject clock seq 1 (some 52) "Required tag missing"
      return (s, .ofSend [r])
    else some (s, { send := [], app := some m, close := none })

def compIdProblem (s : Session) (clock : Clock) (m : Message) (seq : ℕ) :
    Option (Session × Step) := do
  let refTag := if m.get 49 ≠ some s.target then 49 else 56
  let (s, r) ← s.reject clock seq 9 (some refTag) "CompID problem"
  let (s, bytes) ← s.logout clock (some "CompID problem")
  return (s, { send := [r, bytes], app := none, close := some "CompID problem" })

def tooLow (s : Session) (clock : Clock) (m : Message) (seq : ℕ) : Option (Session × Step) :=
  if m.get 43 = some "Y" then some (s, .ofSend [])
  else do
    let text := s!"MsgSeqNum too low, expecting {s.nextIn} but received {seq}"
    let (s, bytes) ← s.logout clock (some text)
    return (s, { send := [bytes], app := none, close := some text })

def onMessage (s : Session) (clock : Clock) (m : Message) : Option (Session × Step) :=
  let s := { s with lastIn := clock.now }
  match m.seq with
  | none => do
    let (s, bytes) ← s.logout clock (some "MsgSeqNum missing")
    return (s, { send := [bytes], app := none, close := some "MsgSeqNum missing" })
  | some seq =>
    if m.get 49 ≠ some s.target ∨ m.get 56 ≠ some s.sender then s.compIdProblem clock m seq
    else if m.msgType = "4" ∧ m.get 123 ≠ some "Y" then s.sequenceReset clock m seq
    else if seq < s.nextIn then s.tooLow clock m seq
    else if s.nextIn < seq then s.tooHigh clock m seq
    else do
      let next ← checkedAdd 32 s.nextIn 1
      inSequence (settle { s with nextIn := next }) clock m seq

def beat (s : Session) (clock : Clock) (out : List Bytes) :
    Option (Session × List Bytes × Option String) :=
  if s.heartbeat ≤ clock.now - s.lastOut then do
    let (s, bytes) ← s.encodeIfOk clock "0" []
    return (s, out ++ bytes, none)
  else some (s, out, none)

/-- Timer duty: a Heartbeat when idle, a TestRequest when the peer is quiet, and a reason to
close when it never answers. -/
def tick (s : Session) (clock : Clock) : Option (Session × List Bytes × Option String) :=
  match s.testRequest with
  | some (_, sent) =>
    if s.heartbeat ≤ clock.now - sent then do
      let text := "no answer to TestRequest"
      let (s, bytes) ← s.logout clock (some text)
      return (s, [bytes], some text)
    else s.beat clock []
  | none =>
    if s.heartbeat + s.heartbeat / 5 ≤ clock.now - s.lastIn then do
      let counter ← checkedAdd 32 s.testCounter 1
      let id := s!"TEST{counter}"
      let (s, bytes) ← encodeIfOk { s with testCounter := counter } clock "1" [(112, id)]
      beat { s with testRequest := some (id, clock.now) } clock bytes
    else s.beat clock []

end Session

/-! ## A connection after logon -/

/-- A session that is driven by its connection. A panic ends it. Each message handed to the
application is recorded with the number that was expected when it came; the record is not in the
source and read by nothing. -/
structure Connection where
  session : Session
  alive : Bool
  handed : List (ℕ × Message)

inductive Call where
  | onMessage (clock : Clock) (m : Message)
  | encode (clock : Clock) (msgType : String) (body : List Field)
  | logout (clock : Clock) (text : Option String)
  | tick (clock : Clock)

namespace Connection

/-- The connection once the peer's Logon has been accepted as message `seq`. -/
def acceptLogon (s : Session) (now seq : ℕ) : Connection :=
  match s.acceptLogon now seq with
  | none => { session := s, alive := false, handed := [] }
  | some s => { session := s, alive := true, handed := [] }

def ofOutcome (c : Connection) (out : Option Session) : Connection :=
  match out with
  | none => { c with alive := false }
  | some s => { c with session := s }

def step (c : Connection) (call : Call) : Connection :=
  if !c.alive then c
  else
    match call with
    | .onMessage clock m =>
      match c.session.onMessage clock m with
      | none => { c with alive := false }
      | some (s, out) =>
        { c with
          session := s
          handed := c.handed ++ out.app.toList.map fun m => (c.session.nextIn, m) }
    | .encode clock msgType body =>
      c.ofOutcome ((c.session.encode clock msgType body).map (·.1))
    | .logout clock text => c.ofOutcome ((c.session.logout clock text).map (·.1))
    | .tick clock => c.ofOutcome ((c.session.tick clock).map (·.1))

end Connection

/-! ## A sender and its peer -/

/-- A session with the application messages it has sent since its numbers were last reset. The
log is not in the source and read by nothing. -/
structure Outbox where
  session : Session
  log : List Sent
  deriving DecidableEq

/-- A message that is handed to `Session::encode`. -/
structure Outbound where
  clock : Clock
  msgType : String
  body : List Field

namespace Outbox

def start (s : Session) : Outbox := { session := s.reset, log := [] }

def send (o : Outbox) (m : Outbound) : Option Outbox :=
  (o.session.encode m.clock m.msgType m.body).map fun out =>
    match out.2 with
    | .error _ => { o with session := out.1 }
    | .ok _ =>
      { session := out.1
        log := o.log ++
          if adminTypes.contains m.msgType then []
          else [{ seq := o.session.nextOut
                  msgType := m.msgType
                  sendingTime := (m.clock.sendingTime o.session.nextOut).text
                  body := m.body }] }

def sendAll (o : Outbox) : List Outbound → Option Outbox
  | [] => some o
  | m :: ms => (o.send m).bind fun o => o.sendAll ms

end Outbox

/-- What the peer does with the frames it receives: it processes the messages it can read and
passes over the others. -/
def Session.feed (s : Session) (lossy : Lossy) (clock : Clock) :
    List Bytes → Option (Session × List Step)
  | [] => some (s, [])
  | bytes :: frames =>
    match frame lossy bytes with
    | .message _ m _ => do
      let (s, out) ← s.onMessage clock m
      let (s, outs) ← s.feed lossy clock frames
      return (s, out :: outs)
    | _ => s.feed lossy clock frames

def resendRequest (first : ℕ) : Message := { fields := [(7, toString first), (16, "0")] }

end NetGet.Fix
