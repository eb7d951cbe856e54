import Mathlib
import NetGet.Library.ByteOrder
import NetGet.Library.ReverseIndex
import NetGet.Model.Bytes

/-! # Pub/sub of the Redis server

The hub knows which connection is subscribed to what, forwards by connection and backwards by name.
Every frame to a connection goes through its outbox, whose writer is the only one at the socket.
The methods of the hub run under its lock. -/

namespace NetGet.PubSub

open Library ByteOrder ReverseIndex Function

def maxChannelBytes : ℕ := 1024

def maxPatternBytes : ℕ := 256

def maxSubscriptionsPerConnection : ℕ := 1024

def maxSubscriptionsPerServer : ℕ := 65536

def maxPatternsPerServer : ℕ := 1024

abbrev ConnectionId := ℕ

inductive Kind where
  | channel
  | pattern
  | shard
  deriving DecidableEq

namespace Kind

def subscribeWord : Kind → String
  | .channel => "subscribe"
  | .pattern => "psubscribe"
  | .shard => "ssubscribe"

def unsubscribeWord : Kind → String
  | .channel => "unsubscribe"
  | .pattern => "punsubscribe"
  | .shard => "sunsubscribe"

def maxNameBytes : Kind → ℕ
  | .pattern => maxPatternBytes
  | .channel | .shard => maxChannelBytes

def all : List Kind := [.channel, .pattern, .shard]

end Kind

inductive Resp where
  | word (text : String)
  | bulk (bytes : Bytes)
  | int (value : ℕ)
  | null
  | push (items : List Resp)

def messageFrame (kind : Kind) (pattern : Option Bytes) (channel message : Bytes) : Resp :=
  let word :=
    match kind, pattern with
    | .shard, _ => "smessage"
    | _, some _ => "pmessage"
    | _, none => "message"
  .push (.word word :: (pattern.map .bulk).toList ++ [.bulk channel, .bulk message])

def confirmation (word : String) (name : Option Bytes) (count : ℕ) : Resp :=
  .push [.word word, (name.map Resp.bulk).getD .null, .int count]

/-! ## Outboxes -/

/-- What a frame is about, for a message with the place of the confirmation of its subscription
among the frames of its outbox. -/
inductive About where
  | reply
  | confirmed (kind : Kind) (name : Bytes)
  | message (kind : Kind) (name : Bytes) (since : ℕ)
  deriving DecidableEq

/-- A frame on its way to the socket. What it is about is not in the source and read by nothing. -/
structure OutFrame where
  bytes : Bytes
  counted : Bool
  about : About
  deriving DecidableEq

/-- The outbox of a connection with its writer: the channel, the frame being written, and whether
the receiving side is gone. All frames ever queued are not in the source and read by nothing. -/
structure Outbox where
  channel : List OutFrame
  writing : Option OutFrame
  queued : ℕ
  limit : ℕ
  killed : Bool
  stopped : Bool
  history : List OutFrame

inductive Delivery where
  | queued
  | overflow
  | gone
  deriving DecidableEq

namespace Outbox

def withLimit (limit : ℕ) : Outbox where
  channel := []
  writing := none
  queued := 0
  limit
  killed := false
  stopped := false
  history := []

def send (o : Outbox) (frame : OutFrame) : Outbox :=
  { o with channel := o.channel ++ [frame], history := o.history ++ [frame] }

/-- Queue a frame that is not counted, if the writer is still there. -/
def queueReply (o : Outbox) (bytes : Bytes) (about : About) : Outbox :=
  if o.stopped then o else o.send { bytes, counted := false, about }

def deliver (o : Outbox) (bytes : Bytes) (about : About) : Outbox × Delivery :=
  if o.killed then (o, .gone)
  else if o.limit < o.queued + bytes.length then ({ o with killed := true }, .overflow)
  else if o.stopped then (o, .gone)
  else
    ({ o.send { bytes, counted := true, about } with queued := o.queued + bytes.length }, .queued)

def take (o : Outbox) : Outbox :=
  match o.stopped, o.writing, o.channel with
  | false, none, frame :: channel => { o with channel, writing := some frame }
  | _, _, _ => o

def written (o : Outbox) (success : Bool) : Outbox :=
  match o.writing with
  | none => o
  | some frame =>
    let queued := if frame.counted then o.queued - frame.bytes.length else o.queued
    if success then { o with writing := none, queued }
    else { o with writing := none, queued, killed := true, stopped := true, channel := [] }

def stop (o : Outbox) : Outbox := { o with stopped := true, writing := none, channel := [] }

end Outbox

/-! ## The hub -/

structure Subscriber where
  names : Kind → Finset Bytes

namespace Subscriber

def new : Subscriber := { names := fun _ => ∅ }

def total (s : Subscriber) : ℕ :=
  (s.names .channel).card + (s.names .pattern).card + (s.names .shard).card

/-- The count that Redis reports in a confirmation. -/
def reported (s : Subscriber) : Kind → ℕ
  | .shard => (s.names .shard).card
  | .channel | .pattern => (s.names .channel).card + (s.names .pattern).card

def insert (s : Subscriber) (kind : Kind) (name : Bytes) : Subscriber :=
  { names := update s.names kind (Insert.insert name (s.names kind)) }

def erase (s : Subscriber) (kind : Kind) (name : Bytes) : Subscriber :=
  { names := update s.names kind ((s.names kind).erase name) }

end Subscriber

/-- `HubInner`; a subtraction that underflows is a panic. -/
structure Hub where
  subscribers : Table ConnectionId Subscriber
  index : Kind → Table Bytes (Finset ConnectionId)
  total : ℕ
  underflowed : Bool

namespace Hub

def new : Hub where
  subscribers := ∅
  index _ := ∅
  total := 0
  underflowed := false

def subtract (h : Hub) (n : ℕ) : Hub :=
  { h with total := h.total - n, underflowed := h.underflowed || decide (h.total < n) }

def indexAdd (h : Hub) (kind : Kind) (name : Bytes) (conn : ConnectionId) : Hub :=
  { h with index := update h.index kind (add (h.index kind) name conn) }

def indexRemove (h : Hub) (kind : Kind) (name : Bytes) (conn : ConnectionId) : Hub :=
  { h with index := update h.index kind (remove (h.index kind) name conn) }

def names (h : Hub) (conn : ConnectionId) (kind : Kind) : Finset Bytes :=
  (h.subscribers.lookup conn).elim ∅ (·.names kind)

def held (h : Hub) (conn : ConnectionId) : ℕ := (h.subscribers.lookup conn).elim 0 (·.total)

def reported (h : Hub) (conn : ConnectionId) (kind : Kind) : ℕ :=
  (h.subscribers.lookup conn).elim 0 (·.reported kind)

def dropSubscriber (h : Hub) (conn : ConnectionId) : Hub :=
  match h.subscribers.lookup conn with
  | none => h
  | some sub =>
    let h := { h with subscribers := h.subscribers.erase conn }
    let h := Kind.all.foldl
      (fun h kind => ((sub.names kind).sort (· ≤ ·)).foldl
        (fun h name => h.indexRemove kind name conn) h) h
    h.subtract sub.total

def checkName (kind : Kind) (name : Bytes) : Except String Unit :=
  let what := if kind = .pattern then "pattern" else "channel name"
  let bound := kind.maxNameBytes
  if bound < name.length then .error s!"ERR {what} longer than {bound} bytes" else .ok ()

def fresh (h : Hub) (conn : ConnectionId) (kind : Kind) (names : List Bytes) : Finset Bytes :=
  names.toFinset \ h.names conn kind

def checkLocked (h : Hub) (conn : ConnectionId) (kind : Kind) (names : List Bytes) :
    Except String Unit :=
  let new := h.fresh conn kind names
  match names.forM (checkName kind) with
  | .error e => .error e
  | .ok _ =>
    if maxSubscriptionsPerConnection < h.held conn + new.card then
      .error s!"ERR max subscriptions per connection reached ({maxSubscriptionsPerConnection})"
    else if maxSubscriptionsPerServer < h.total + new.card then
      .error s!"ERR max subscriptions per server reached ({maxSubscriptionsPerServer})"
    else if kind = .pattern ∧ maxPatternsPerServer < (h.index .pattern).keys.length +
        (new.filter (· ∉ h.index .pattern)).card then
      .error s!"ERR max distinct patterns per server reached ({maxPatternsPerServer})"
    else .ok ()

def enter (h : Hub) (conn : ConnectionId) : Hub :=
  match h.subscribers.lookup conn with
  | some _ => h
  | none => { h with subscribers := h.subscribers.insert conn .new }

def subscribeName (h : Hub) (conn : ConnectionId) (kind : Kind) (name : Bytes) : Hub × Bool :=
  match h.subscribers.lookup conn with
  | none => (h, false)
  | some sub =>
    if name ∈ sub.names kind then (h, false)
    else
      let h := { h with subscribers := h.subscribers.insert conn (sub.insert kind name) }
      (({ h with total := h.total + 1 } : Hub).indexAdd kind name conn, true)

def unsubscribeName (h : Hub) (conn : ConnectionId) (kind : Kind) (name : Bytes) : Hub :=
  match h.subscribers.lookup conn with
  | none => h
  | some sub =>
    if name ∈ sub.names kind then
      let h := { h with subscribers := h.subscribers.insert conn (sub.erase kind name) }
      (h.subtract 1).indexRemove kind name conn
    else h

def leave (h : Hub) (conn : ConnectionId) : Hub :=
  match h.subscribers.lookup conn with
  | some sub =>
    if sub.total = 0 then { h with subscribers := h.subscribers.erase conn } else h
  | none => h

end Hub

/-! ## The server -/

/-- The hub, the outboxes and the protocol versions of the connections. The places of the
confirmations are not in the source and read by nothing. -/
structure Server where
  hub : Hub
  outboxes : ConnectionId → Outbox
  protos : ConnectionId → ℕ
  confirmedAt : ConnectionId → Kind → Bytes → ℕ

section

variable (encode : Resp → ℕ → Bytes) (globMatch : Bytes → Bytes → Bool)

namespace Server

def new (limits : ConnectionId → ℕ) : Server where
  hub := .new
  outboxes conn := .withLimit (limits conn)
  protos _ := 2
  confirmedAt _ _ _ := 0

def updateOutbox (s : Server) (conn : ConnectionId) (f : Outbox → Outbox) : Server :=
  { s with outboxes := update s.outboxes conn (f (s.outboxes conn)) }

def subscribeOne (conn : ConnectionId) (kind : Kind) (version : ℕ) (s : Server) (name : Bytes) :
    Server :=
  let (hub, added) := s.hub.subscribeName conn kind name
  let confirmedAt :=
    if added then
      update s.confirmedAt conn (update (s.confirmedAt conn) kind
        (update (s.confirmedAt conn kind) name (s.outboxes conn).history.length))
    else s.confirmedAt
  let frame := encode (confirmation kind.subscribeWord (some name) (hub.reported conn kind)) version
  ({ s with hub, confirmedAt } : Server).updateOutbox conn
    (·.queueReply frame (.confirmed kind name))

def subscribe (s : Server) (conn : ConnectionId) (kind : Kind) (names : List Bytes) :
    Server × Except String Unit :=
  match s.hub.checkLocked conn kind names with
  | .error e => (s, .error e)
  | .ok _ =>
    let version := s.protos conn
    let s := { s with hub := s.hub.enter conn }
    (names.foldl (subscribeOne encode conn kind version) s, .ok ())

def unsubscribeOne (conn : ConnectionId) (kind : Kind) (version : ℕ) (s : Server) (name : Bytes) :
    Server :=
  let hub := s.hub.unsubscribeName conn kind name
  let frame :=
    encode (confirmation kind.unsubscribeWord (some name) (hub.reported conn kind)) version
  ({ s with hub } : Server).updateOutbox conn (·.queueReply frame .reply)

/-- The named subscriptions, or all of a kind. -/
def unsubscribe (s : Server) (conn : ConnectionId) (kind : Kind) (names : List Bytes) : Server :=
  let version := s.protos conn
  let targets := if names.isEmpty then (s.hub.names conn kind).sort (· ≤ ·) else names
  if targets.isEmpty then
    let frame := encode (confirmation kind.unsubscribeWord none (s.hub.reported conn kind)) version
    s.updateOutbox conn (·.queueReply frame .reply)
  else
    let s := targets.foldl (unsubscribeOne encode conn kind version) s
    { s with hub := s.hub.leave conn }

def removeConnection (s : Server) (conn : ConnectionId) : Server :=
  { s with hub := s.hub.dropSubscriber conn }

/-- The subscriptions a message goes to: of the channel, then of the patterns in order. -/
def targets (h : Hub) (channel : Bytes) (shard : Bool) : List (ConnectionId × Option Bytes) :=
  let kind := if shard then .shard else .channel
  let matched := (h.index .pattern).keys.filter (globMatch · channel)
  let direct := ((holders (h.index kind) channel).sort (· ≤ ·)).map fun conn => (conn, none)
  if shard then direct
  else
    direct ++ (matched.toFinset.sort (· ≤ ·)).flatMap fun pattern =>
      ((holders (h.index .pattern) pattern).sort (· ≤ ·)).map fun conn => (conn, some pattern)

structure Publishing where
  server : Server
  delivered : ℕ
  slow : List ConnectionId
  gone : List ConnectionId

def subscription (channel : Bytes) (shard : Bool) : Option Bytes → Kind × Bytes
  | some pattern => (.pattern, pattern)
  | none => (if shard then .shard else .channel, channel)

def publishOne (channel message : Bytes) (shard : Bool) (p : Publishing)
    (target : ConnectionId × Option Bytes) : Publishing :=
  let s := p.server
  let (conn, pattern) := target
  match s.hub.subscribers.lookup conn with
  | none => p
  | some _ =>
    let kind := if shard then Kind.shard else .channel
    let (of, name) := subscription channel shard pattern
    let frame := encode (messageFrame kind pattern channel message) (s.protos conn)
    let (outbox, delivery) :=
      (s.outboxes conn).deliver frame (.message of name (s.confirmedAt conn of name))
    let p := { p with server := s.updateOutbox conn fun _ => outbox }
    match delivery with
    | .queued => { p with delivered := p.delivered + 1 }
    | .overflow => if conn ∈ p.slow then p else { p with slow := p.slow ++ [conn] }
    | .gone => if conn ∈ p.gone then p else { p with gone := p.gone ++ [conn] }

def publish (s : Server) (channel message : Bytes) (shard : Bool) : Server × ℕ :=
  let p := (targets globMatch s.hub channel shard).foldl (publishOne encode channel message shard)
    { server := s, delivered := 0, slow := [], gone := [] }
  let hub := p.slow.foldl Hub.dropSubscriber (p.gone.foldl Hub.dropSubscriber p.server.hub)
  ({ p.server with hub }, p.delivered)

end Server

/-- Calls of the hub, and what else happens to a connection: replies of its read loop, the steps
of its writer, a mark to close it, and another protocol version. -/
inductive Label where
  | subscribe (conn : ConnectionId) (kind : Kind) (names : List Bytes)
  | unsubscribe (conn : ConnectionId) (kind : Kind) (names : List Bytes)
  | publish (channel message : Bytes) (shard : Bool)
  | removeConnection (conn : ConnectionId)
  | reply (conn : ConnectionId) (bytes : Bytes)
  | take (conn : ConnectionId)
  | written (conn : ConnectionId) (success : Bool)
  | stop (conn : ConnectionId)
  | kill (conn : ConnectionId)
  | setProto (conn : ConnectionId) (version : ℕ)

def Server.step (s : Server) : Label → Server
  | .subscribe conn kind names => (s.subscribe encode conn kind names).1
  | .unsubscribe conn kind names => s.unsubscribe encode conn kind names
  | .publish channel message shard => (s.publish encode globMatch channel message shard).1
  | .removeConnection conn => s.removeConnection conn
  | .reply conn bytes => s.updateOutbox conn (·.queueReply bytes .reply)
  | .take conn => s.updateOutbox conn Outbox.take
  | .written conn success => s.updateOutbox conn (·.written success)
  | .stop conn => s.updateOutbox conn Outbox.stop
  | .kill conn => s.updateOutbox conn fun o => { o with killed := true }
  | .setProto conn version => { s with protos := update s.protos conn version }

end

end NetGet.PubSub
