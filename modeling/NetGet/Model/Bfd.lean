import NetGet.Library.Machine
import NetGet.Model.Bytes

/-! # Bidirectional Forwarding Detection

The Control packet with its authentication section, and one session in Asynchronous mode: states,
timers, Poll Sequence and sequence numbers. Intervals are in microseconds and are only compared, so
they are naturals; sequence numbers wrap. -/

namespace NetGet.Bfd

open Library

/-! ## The Control packet -/

inductive State where
  | adminDown
  | down
  | init
  | up
  deriving DecidableEq, Repr

def State.fromBits (b : UInt8) : State :=
  match (b &&& 3).toNat with
  | 0 => .adminDown
  | 1 => .down
  | 2 => .init
  | _ => .up

def State.code : State → UInt8
  | .adminDown => 0
  | .down => 1
  | .init => 2
  | .up => 3

def State.name : State → String
  | .adminDown => "AdminDown"
  | .down => "Down"
  | .init => "Init"
  | .up => "Up"

inductive AuthType where
  | simplePassword
  | keyedMd5
  | meticulousKeyedMd5
  | keyedSha1
  | meticulousKeyedSha1
  deriving DecidableEq, Repr

def AuthType.fromCode (c : UInt8) : Except String AuthType :=
  match c.toNat with
  | 1 => .ok .simplePassword
  | 2 => .ok .keyedMd5
  | 3 => .ok .meticulousKeyedMd5
  | 4 => .ok .keyedSha1
  | 5 => .ok .meticulousKeyedSha1
  | other => .error s!"authentication type {other} is reserved"

def AuthType.code : AuthType → UInt8
  | .simplePassword => 1
  | .keyedMd5 => 2
  | .meticulousKeyedMd5 => 3
  | .keyedSha1 => 4
  | .meticulousKeyedSha1 => 5

def AuthType.name : AuthType → String
  | .simplePassword => "simple"
  | .keyedMd5 => "keyed_md5"
  | .meticulousKeyedMd5 => "meticulous_keyed_md5"
  | .keyedSha1 => "keyed_sha1"
  | .meticulousKeyedSha1 => "meticulous_keyed_sha1"

def AuthType.digestLen : AuthType → ℕ
  | .simplePassword => 0
  | .keyedMd5 | .meticulousKeyedMd5 => 16
  | .keyedSha1 | .meticulousKeyedSha1 => 20

/-- The sequence number must increase with every packet, not merely not decrease. -/
def AuthType.meticulous : AuthType → Bool
  | .meticulousKeyedMd5 | .meticulousKeyedSha1 => true
  | _ => false

def maxPassword : ℕ := 16

def AuthType.passwordLimit : AuthType → ℕ
  | .simplePassword => maxPassword
  | kind => kind.digestLen

/-- A session's authentication. `AuthConfig::new` refuses every other password. -/
structure AuthConfig where
  kind : AuthType
  keyId : UInt8
  password : Bytes
  password_ne : password ≠ []
  password_le : password.length ≤ kind.passwordLimit

/-- The authentication section of a received packet; the sequence number is of the keyed types
only. -/
structure AuthSection where
  kind : AuthType
  keyId : UInt8
  sequence : Option UInt32
  deriving DecidableEq, Repr

structure ControlPacket where
  diag : UInt8
  state : State
  poll : Bool
  final : Bool
  controlPlaneIndependent : Bool
  demand : Bool
  detectMult : UInt8
  myDiscriminator : UInt32
  yourDiscriminator : UInt32
  desiredMinTxUs : ℕ
  requiredMinRxUs : ℕ
  requiredMinEchoRxUs : ℕ
  auth : Option AuthSection
  deriving DecidableEq, Repr

/-- The digest functions, with the lengths they are specified to have. -/
structure Hashes where
  md5 : Bytes → Bytes
  sha1 : Bytes → Bytes
  md5_length : ∀ bytes, (md5 bytes).length = 16
  sha1_length : ∀ bytes, (sha1 bytes).length = 20

def padded (key : Bytes) (n : ℕ) : Bytes := key.take n ++ List.replicate (n - key.length) 0

def Hashes.digest (hashes : Hashes) (kind : AuthType) (bytes : Bytes) : Bytes :=
  if kind.digestLen = 16 then hashes.md5 bytes else hashes.sha1 bytes

def toBeBytes (v : UInt32) : Bytes :=
  [(v >>> 24).toUInt8, (v >>> 16).toUInt8, (v >>> 8).toUInt8, v.toUInt8]

def bit (b : Bool) : UInt8 := if b then 1 else 0

def ControlPacket.flags (p : ControlPacket) (authenticated : Bool) : UInt8 :=
  (p.state.code <<< 6) ||| (bit p.poll <<< 5) ||| (bit p.final <<< 4) |||
    (bit p.controlPlaneIndependent <<< 3) ||| (bit authenticated <<< 2) ||| (bit p.demand <<< 1)

def withLength (out : Bytes) : Bytes := out.set 3 (UInt8.ofNat out.length)

/-- Encode, signing with `auth` (and the sequence number, for the keyed types) when given. -/
def ControlPacket.encode (hashes : Hashes) (p : ControlPacket)
    (auth : Option (AuthConfig × UInt32)) : Bytes :=
  let out := [((1 : UInt8) <<< 5) ||| (p.diag &&& 0x1f), p.flags auth.isSome, p.detectMult, 0] ++
    ([p.myDiscriminator, p.yourDiscriminator, UInt32.ofNat p.desiredMinTxUs,
      UInt32.ofNat p.requiredMinRxUs, UInt32.ofNat p.requiredMinEchoRxUs].flatMap toBeBytes)
  match auth with
  | none => withLength out
  | some (a, sequence) =>
    match a.kind with
    | .simplePassword =>
      withLength (out ++ [a.kind.code, 3 + UInt8.ofNat a.password.length, a.keyId] ++
        a.password)
    | kind =>
      let n := kind.digestLen
      let signed := out ++ [kind.code, 8 + UInt8.ofNat n, a.keyId, 0] ++ toBeBytes sequence
      let keyed := withLength (signed ++ padded a.password n)
      withLength (keyed.take signed.length ++ hashes.digest kind keyed)

def mandatoryLen : ℕ := 24

def maxPacket : ℕ := mandatoryLen + 28

def ensure (condition : Bool) (message : String) : Except String Unit :=
  if condition then .ok () else .error message

/-- The byte at `i`. Every index that is read lies below a length that was checked before. -/
def byteAt (bytes : Bytes) (i : ℕ) : UInt8 := bytes.getD i 0

def word (bytes : Bytes) (i : ℕ) : UInt32 :=
  ((byteAt bytes i).toUInt32 <<< 24) ||| ((byteAt bytes (i + 1)).toUInt32 <<< 16) |||
    ((byteAt bytes (i + 2)).toUInt32 <<< 8) ||| (byteAt bytes (i + 3)).toUInt32

def decodeAuth (bytes : Bytes) (length : ℕ) : Except String AuthSection := do
  let kind ← AuthType.fromCode (byteAt bytes 24)
  let authLen := (byteAt bytes 25).toNat
  ensure (mandatoryLen + authLen == length)
    s!"Auth Len {authLen} does not end the packet at Length {length}"
  match kind with
  | .simplePassword =>
    ensure (4 ≤ authLen && authLen ≤ 3 + maxPassword)
      s!"a Simple Password section of {authLen} bytes"
    return { kind := kind, keyId := byteAt bytes 26, sequence := none }
  | kind =>
    ensure (authLen == 8 + kind.digestLen) s!"a {kind.name} section of {authLen} bytes"
    return { kind := kind, keyId := byteAt bytes 26, sequence := some (word bytes 28) }

def decode (bytes : Bytes) : Except String ControlPacket := do
  ensure (bytes.length ≤ maxPacket)
    s!"a {bytes.length}-byte datagram is longer than any BFD Control packet ({maxPacket})"
  ensure (mandatoryLen ≤ bytes.length)
    s!"a {bytes.length}-byte datagram is shorter than a BFD Control packet"
  let version := byteAt bytes 0 >>> 5
  ensure (version == 1) s!"BFD version {version}, not 1"
  let flags := byteAt bytes 1
  let authPresent := flags &&& 0x04 != 0
  let length := (byteAt bytes 3).toNat
  ensure ((if authPresent then mandatoryLen + 2 else mandatoryLen) ≤ length)
    s!"Length {length} is too short"
  ensure (length ≤ bytes.length)
    s!"Length {length} is longer than the {bytes.length}-byte datagram"
  ensure (flags &&& 0x01 == 0) "the Multipoint bit is set"
  let detectMult := byteAt bytes 2
  ensure (detectMult != 0) "Detect Mult is zero"
  let myDiscriminator := word bytes 4
  ensure (myDiscriminator != 0) "My Discriminator is zero"
  let state := State.fromBits (flags >>> 6)
  let yourDiscriminator := word bytes 8
  ensure (yourDiscriminator != 0 || state == .down || state == .adminDown)
    s!"Your Discriminator is zero in state {state.name}"
  let auth ←
    if authPresent then some <$> decodeAuth bytes length
    else do
      ensure (length == mandatoryLen) s!"Length {length} with no authentication section"
      pure none
  return {
    diag := byteAt bytes 0 &&& 0x1f
    state := state
    poll := flags &&& 0x20 != 0
    final := flags &&& 0x10 != 0
    controlPlaneIndependent := flags &&& 0x08 != 0
    demand := flags &&& 0x02 != 0
    detectMult := detectMult
    myDiscriminator := myDiscriminator
    yourDiscriminator := yourDiscriminator
    desiredMinTxUs := (word bytes 12).toNat
    requiredMinRxUs := (word bytes 16).toNat
    requiredMinEchoRxUs := (word bytes 20).toNat
    auth := auth }

def verify (hashes : Hashes) (bytes : Bytes) (packet : ControlPacket) (config : Option AuthConfig) :
    Except String Unit :=
  match packet.auth, config with
  | none, none => .ok ()
  | some _, none => .error "the packet is authenticated and this session is not"
  | none, some _ => .error "the packet is not authenticated and this session is"
  | some auth, some config => do
    ensure (auth.kind == config.kind)
      s!"authentication type {auth.kind.name} where {config.kind.name} is configured"
    ensure (auth.keyId == config.keyId)
      s!"key id {auth.keyId} where {config.keyId} is configured"
    let length := (byteAt bytes 3).toNat
    match config.kind with
    | .simplePassword =>
      ensure ((bytes.take length).drop 27 == config.password) "wrong password"
    | kind =>
      let start := length - kind.digestLen
      let copy := bytes.take start ++ padded config.password kind.digestLen
      ensure (hashes.digest kind copy == (bytes.take length).drop start)
        s!"the {kind.name} digest does not match"

/-! ## The session -/

def slowTxUs : ℕ := 1000000

structure Timers where
  desiredMinTxUs : ℕ
  requiredMinRxUs : ℕ
  detectMult : UInt8
  deriving DecidableEq, Repr

/-- What one received packet did to the session. -/
structure Received where
  transition : Option (State × State)
  sendFinal : Bool
  deriving DecidableEq, Repr

structure Session where
  localDiscr : UInt32
  remoteDiscr : UInt32
  state : State
  localDiag : UInt8
  configured : Timers
  advertised : Timers
  txInForceUs : ℕ
  rxInForceUs : ℕ
  poll : Bool
  remoteDesiredMinTxUs : ℕ
  remoteMinRxUs : ℕ
  remoteDetectMult : UInt8
  auth : Option AuthConfig
  xmitSeq : UInt32
  rcvSeq : Option UInt32
  lastRx : Option ℕ

def Timers.advertisedIn (configured : Timers) (state : State) : Timers :=
  { configured with
    desiredMinTxUs :=
      if state = .up then configured.desiredMinTxUs else max configured.desiredMinTxUs slowTxUs }

namespace Session

/-- `Session::new`; the first sequence number to send is drawn at random. -/
def new (localDiscr : UInt32) (configured : Timers) (auth : Option AuthConfig)
    (random : UInt32) : Session :=
  let advertised := { configured with desiredMinTxUs := max configured.desiredMinTxUs slowTxUs }
  { localDiscr := localDiscr
    remoteDiscr := 0
    state := .down
    localDiag := 0
    configured := configured
    advertised := advertised
    txInForceUs := advertised.desiredMinTxUs
    rxInForceUs := advertised.requiredMinRxUs
    poll := false
    remoteDesiredMinTxUs := 0
    remoteMinRxUs := 1
    remoteDetectMult := 0
    auth := auth
    xmitSeq := random
    rcvSeq := none
    lastRx := none }

/-- Advertise new values. While Up, a change starts a Poll Sequence; an increase of the transmit
interval or a decrease of the receive interval takes effect at the Final. -/
def advertise (s : Session) : Session :=
  let next := s.configured.advertisedIn s.state
  if next = s.advertised then s
  else if s.state = .up then
    { s with
      poll := true
      txInForceUs :=
        if next.desiredMinTxUs < s.txInForceUs then next.desiredMinTxUs else s.txInForceUs
      rxInForceUs :=
        if s.rxInForceUs < next.requiredMinRxUs then next.requiredMinRxUs else s.rxInForceUs
      advertised := next }
  else
    { s with
      txInForceUs := next.desiredMinTxUs
      rxInForceUs := next.requiredMinRxUs
      advertised := next }

def setTimers (s : Session) (timers : Timers) : Session :=
  advertise { s with configured := timers }

def setState (s : Session) (next : State) (diag : UInt8) : Session × Option (State × State) :=
  if next = s.state then (s, none)
  else (advertise { s with state := next, localDiag := diag }, some (s.state, next))

def adminDown (s : Session) (diag : UInt8) : Session × Option (State × State) :=
  s.setState .adminDown diag

def adminUp (s : Session) : Session × Option (State × State) :=
  if s.state ≠ .adminDown then (s, none) else s.setState .down 0

def sequenceOf (s : Session) (p : ControlPacket) : Option UInt32 :=
  if s.auth.isSome then p.auth.bind (·.sequence) else none

def inWindow (kind : AuthType) (last seq : UInt32) (detectMult : UInt8) : Bool :=
  let window := 3 * detectMult.toNat
  let ahead := (seq - last).toNat
  if kind.meticulous then 1 ≤ ahead && ahead ≤ window else ahead ≤ window

/-- What a packet has to pass before the session takes it: its authentication, then the window
of its sequence number. -/
def vet (s : Session) (hashes : Hashes) (bytes : Bytes) (p : ControlPacket) :
    Except String Unit := do
  verify hashes bytes p s.auth
  match s.auth, s.sequenceOf p, s.rcvSeq with
  | some config, some seq, some last =>
    ensure (inWindow config.kind last seq p.detectMult)
      s!"sequence number {seq} is outside the window after {last}"
  | _, _, _ => .ok ()

/-- The fields a packet sets whatever the state, and the end of a Poll Sequence. -/
def absorb (s : Session) (p : ControlPacket) (now : ℕ) : Session :=
  let s := { s with
    rcvSeq := (s.sequenceOf p).orElse fun _ => s.rcvSeq
    lastRx := some now
    remoteDiscr := p.myDiscriminator
    remoteDesiredMinTxUs := p.desiredMinTxUs
    remoteMinRxUs := p.requiredMinRxUs
    remoteDetectMult := p.detectMult }
  if p.final && s.poll then
    { s with
      poll := false
      txInForceUs := s.advertised.desiredMinTxUs
      rxInForceUs := s.advertised.requiredMinRxUs }
  else s

def respond (s : Session) (remote : State) : Session × Option (State × State) :=
  match remote, s.state with
  | .adminDown, .down => (s, none)
  | .adminDown, _ => s.setState .down 3
  | .down, .down => s.setState .init 0
  | .init, .down => s.setState .up 0
  | .init, .init => s.setState .up 0
  | .up, .init => s.setState .up 0
  | .down, .up => s.setState .down 3
  | _, _ => (s, none)

def receive (s : Session) (hashes : Hashes) (bytes : Bytes) (p : ControlPacket) (now : ℕ) :
    Session × Except String Received :=
  match s.vet hashes bytes p with
  | .error e => (s, .error e)
  | .ok () =>
    let s := s.absorb p now
    if s.state = .adminDown then (s, .ok { transition := none, sendFinal := p.poll })
    else
      let (s, transition) := s.respond p.state
      (s, .ok { transition := transition, sendFinal := p.poll })

/-- The packet to send now: `final` answers a Poll. -/
def packet (s : Session) (hashes : Hashes) (final : Bool) : Session × Bytes :=
  let p : ControlPacket :=
    { diag := s.localDiag
      state := s.state
      poll := s.poll && !final
      final := final
      controlPlaneIndependent := false
      demand := false
      detectMult := s.advertised.detectMult
      myDiscriminator := s.localDiscr
      yourDiscriminator := s.remoteDiscr
      desiredMinTxUs := s.advertised.desiredMinTxUs
      requiredMinRxUs := s.advertised.requiredMinRxUs
      requiredMinEchoRxUs := 0
      auth := none }
  match s.auth with
  | none => (s, p.encode hashes none)
  | some a =>
    let s :=
      if a.kind ≠ .simplePassword then { s with xmitSeq := s.xmitSeq + 1 } else s
    (s, p.encode hashes (some (a, s.xmitSeq)))

def txIntervalUs (s : Session) : ℕ := max s.txInForceUs s.remoteMinRxUs

/-- The interval to the next periodic packet: 75–100% of the interval, or 75–90% with a Detect
Mult of one. -/
def nextInterval (s : Session) (random : ℕ) : ℕ :=
  let top := if s.advertised.detectMult = 1 then 90 else 100
  let pct := random % (top - 75 + 1) + 75
  max s.txInForceUs s.remoteMinRxUs * pct / 100

def detectionTime (s : Session) : ℕ :=
  s.remoteDetectMult.toNat * max s.rxInForceUs s.remoteDesiredMinTxUs

/-- When the session goes Down for silence, if it is waiting on the peer at all. -/
def detectionDeadline (s : Session) : Option ℕ :=
  match s.state with
  | .init | .up => s.lastRx.map (· + s.detectionTime)
  | _ => none

/-- The Detection Time passed: Down with diagnostic 1, and the remote discriminator is
forgotten. -/
def detectionExpired (s : Session) : Session × Option (State × State) :=
  setState { s with remoteDiscr := 0, rcvSeq := none } .down 1

end Session

/-! ## Runs -/

/-- A session with what it took and sent: the sequence numbers it accepted since the Detection
Time last passed, each with the Detect Mult of its packet, and the packets it emitted. The two
lists are not in the source and read by nothing. -/
structure World where
  session : Session
  accepted : List (UInt32 × UInt8)
  sent : List Bytes

inductive Label where
  | receive (bytes : Bytes) (now : ℕ)
  | setTimers (timers : Timers)
  | adminDown (diag : UInt8)
  | adminUp
  | detectionExpired
  | packet (final : Bool)

namespace World

def new (localDiscr : UInt32) (configured : Timers) (auth : Option AuthConfig)
    (random : UInt32) : World :=
  { session := .new localDiscr configured auth random, accepted := [], sent := [] }

/-- A decoded packet is handed to the session; what cannot be decoded never reaches it. -/
def receive (w : World) (hashes : Hashes) (bytes : Bytes) (now : ℕ) : World :=
  match decode bytes with
  | .error _ => w
  | .ok p =>
    match w.session.receive hashes bytes p now with
    | (s, .error _) => { w with session := s }
    | (s, .ok _) =>
      { w with
        session := s
        accepted := w.accepted ++
          (w.session.sequenceOf p).toList.map fun seq => (seq, p.detectMult) }

def step (hashes : Hashes) (w : World) : Label → World
  | .receive bytes now => w.receive hashes bytes now
  | .setTimers timers => { w with session := w.session.setTimers timers }
  | .adminDown diag => { w with session := (w.session.adminDown diag).1 }
  | .adminUp => { w with session := w.session.adminUp.1 }
  | .detectionExpired => { w with session := w.session.detectionExpired.1, accepted := [] }
  | .packet final =>
    let (s, bytes) := w.session.packet hashes final
    { w with session := s, sent := w.sent ++ [bytes] }

end World

end NetGet.Bfd
