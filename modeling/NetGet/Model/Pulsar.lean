import NetGet.Library.Arith
import NetGet.Library.Bounded
import NetGet.Library.Machine
import NetGet.Library.Table
import NetGet.Model.Bytes

/-! # The Pulsar broker

Topics, subscriptions and consumers behind one lock. The outcomes of the `try_send`s of a `drain`
are part of its input, and so is the place where a search of a map succeeds, since maps have an
order of their own. Sums that overflow panic and leave what was written. -/

namespace NetGet.Pulsar

open Library

def maxBacklog : ℕ := 10000
def maxUnacked : ℕ := 10000
def maxTopics : ℕ := 10000
def maxRefusals : ℕ := 4096

/-! ## Messages -/

structure MessageId where
  ledgerId : ℕ
  entryId : ℕ
  deriving DecidableEq

def MessageId.before (a b : MessageId) : Prop :=
  a.ledgerId < b.ledgerId ∨ a.ledgerId = b.ledgerId ∧ a.entryId < b.entryId

instance (a b : MessageId) : Decidable (a.before b) := by
  unfold MessageId.before
  infer_instance

structure Entry where
  payload : Bytes

structure Stored where
  id : MessageId
  payload : Bytes
  redelivery : ℕ

/-! ## Subscriptions -/

structure Consumer where
  conn : ℕ
  consumerId : ℕ
  permits : ℕ
  unacked : List Stored
  /-- Not in the source and read by nothing: the type the consumer joined with. -/
  joinedAs : ℤ

/-- Not in the source and read by nothing: what became of a subscription's messages. -/
structure History where
  published : List MessageId
  acked : List MessageId
  returned : List MessageId
  /-- The backlog or a list of unacknowledged messages has reached its bound. -/
  full : Bool

structure Sub where
  subType : ℤ
  consumers : List Consumer
  backlog : List Stored
  next : ℕ
  history : History

namespace Sub

def default : Sub :=
  { subType := 0, consumers := [], backlog := [], next := 0, history := ⟨[], [], [], false⟩ }

def reached (s : Sub) : Bool :=
  decide (maxBacklog ≤ s.backlog.length) ||
    s.consumers.any fun c => decide (maxUnacked ≤ c.unacked.length)

def mark (s : Sub) : Sub :=
  { s with history := { s.history with full := s.history.full || s.reached } }

/-- The consumer the next message goes to: Exclusive and Failover deliver to the first
consumer, Shared and Key_Shared round-robin over those with permits. -/
def pick (s : Sub) : Option ℕ :=
  let n := s.consumers.length
  let order :=
    if n = 0 then []
    else if s.subType = 0 ∨ s.subType = 2 then [0]
    else (List.range n).map fun i => (s.next + i) % n
  order.find? fun i => s.consumers[i]?.any fun c => decide (0 < c.permits)

def take (m : Stored) (c : Consumer) : Consumer :=
  { c with
    permits := c.permits - 1
    unacked := boundedPush maxUnacked c.unacked m }

def deliver (s : Sub) (i : ℕ) (m : Stored) (backlog : List Stored) : Sub :=
  { s with
    consumers := s.consumers.modify i (take m)
    backlog
    next := (i + 1) % s.consumers.length }.mark

/-- Hand backlog messages to consumers with permits, in order, until a send fails. -/
def drain : List Bool → Sub → Sub
  | [], s => s
  | sent :: sends, s =>
    match s.backlog, s.pick with
    | m :: backlog, some i => if sent then drain sends (s.deliver i m backlog) else s
    | _, _ => s

def enqueue (s : Sub) (m : Stored) : Sub :=
  { s with
    backlog := boundedPush maxBacklog s.backlog m
    history := { s.history with published := s.history.published ++ [m.id] } }.mark

/-- Put a message back at the front; `none` is a panic. -/
def pushFront (s : Sub) (m : Stored) : Option Sub :=
  (checkedAdd 32 m.redelivery 1).map fun redelivery =>
    { s with
      backlog := { m with redelivery } :: s.backlog
      history := { s.history with returned := m.id :: s.history.returned } }.mark

/-- Put messages back one after the other; the flag tells whether it went without a panic. -/
def giveBack : List Stored → Sub → Sub × Bool
  | [], s => (s, true)
  | m :: messages, s =>
    match s.pushFront m with
    | none => (s, false)
    | some s => giveBack messages s

def flow (s : Sub) (i permits : ℕ) (sends : List Bool) : Sub :=
  { s with
    consumers := s.consumers.modify i fun c =>
      { c with permits := saturatingAdd 32 c.permits permits } }.drain sends

/-- Whether a message survives the acknowledgment of `key`. -/
def survives (cumulative : Bool) (key : MessageId) (m : Stored) : Bool :=
  if cumulative then decide (key.before m.id) else decide (m.id ≠ key)

def ack (s : Sub) (i : ℕ) (cumulative : Bool) (ids : List MessageId) : Sub :=
  match s.consumers[i]? with
  | none => s
  | some c =>
    let unacked := ids.foldl (fun kept key => kept.filter (survives cumulative key)) c.unacked
    let acked := c.unacked.filter fun m => ids.any fun key => !survives cumulative key m
    { s with
      consumers := s.consumers.modify i fun c => { c with unacked }
      history := { s.history with acked := s.history.acked ++ acked.map (·.id) } }

def named (ids : List MessageId) (m : Stored) : Bool :=
  ids.isEmpty || ids.any fun id => decide (id = m.id)

def redeliver (s : Sub) (i : ℕ) (ids : List MessageId) (sends : List Bool) : Sub :=
  match s.consumers[i]? with
  | none => s
  | some c =>
    let (back, keep) := c.unacked.partition (named ids)
    let kept := { s with consumers := s.consumers.modify i fun c => { c with unacked := keep } }
    match kept.giveBack back.reverse with
    | (s, true) => s.drain sends
    | (s, false) => s

def leave (s : Sub) (i : ℕ) (sends : List Bool) : Sub :=
  match s.consumers[i]? with
  | none => s
  | some c =>
    match { s with consumers := s.consumers.eraseIdx i }.giveBack c.unacked.reverse with
    | (s, true) => { s with next := 0 }.drain sends
    | (s, false) => s

def join (s : Sub) (subType : ℤ) (conn consumerId : ℕ) : Sub :=
  { s with
    subType := if s.consumers.isEmpty then subType else s.subType
    consumers := s.consumers ++
      [{ conn, consumerId, permits := 0, unacked := [], joinedAs := subType }] }

end Sub

/-! ## Topics -/

structure Topic where
  ledgerId : ℕ
  nextEntry : ℕ
  subs : Table String Sub

/-- An entry to publish, with the outcomes of the sends it leads to in each subscription. -/
structure Send where
  entry : Entry
  sends : String → List Bool

namespace Topic

def stored (t : Topic) (e : Entry) : Stored :=
  { id := { ledgerId := t.ledgerId, entryId := t.nextEntry }
    payload := e.payload
    redelivery := 0 }

def store (t : Topic) (send : Send) : Option Topic :=
  (checkedAdd 64 t.nextEntry 1).map fun nextEntry =>
    { t with
      nextEntry
      subs := t.subs.mapValues fun name s =>
        (s.enqueue (t.stored send.entry)).drain (send.sends name) }

def storeAll : List Send → Topic → Topic × List MessageId
  | [], t => (t, [])
  | send :: sends, t =>
    match t.store send with
    | none => (t, [])
    | some t' =>
      let (last, ids) := storeAll sends t'
      (last, (t.stored send.entry).id :: ids)

end Topic

/-! ## The broker -/

abbrev SendKey := String × String × ℕ

structure Refusals where
  reasons : Table SendKey String
  order : List SendKey

structure Broker where
  topics : Table String Topic
  nextLedger : ℕ
  refusals : Refusals
  /-- Not in the source and read by nothing: the ids given out, oldest first, by topic. -/
  assigned : List (String × MessageId)

structure Place where
  topic : String
  sub : String
  deriving DecidableEq

namespace Broker

def new : Broker :=
  { topics := ∅, nextLedger := 0, refusals := ⟨∅, []⟩, assigned := [] }

def rememberRefusal (b : Broker) (key : SendKey) (why : String) : Broker :=
  let r :=
    if b.refusals.reasons.keys.length ≥ maxRefusals then
      match b.refusals.order with
      | [] => b.refusals
      | old :: order => { reasons := b.refusals.reasons.erase old, order }
    else b.refusals
  let order := if key ∈ r.reasons then r.order else r.order ++ [key]
  { b with refusals := { reasons := r.reasons.insert key why, order } }

def sub? (b : Broker) (place : Place) : Option Sub :=
  (b.topics.lookup place.topic).bind fun t => t.subs.lookup place.sub

/-- The topic, the subscription and the index of a consumer, when the search over the maps
finds it at `place`. -/
def findConsumer (b : Broker) (place : Place) (conn consumerId : ℕ) : Option (Topic × Sub × ℕ) :=
  match b.topics.lookup place.topic with
  | none => none
  | some t =>
    match t.subs.lookup place.sub with
    | none => none
    | some s =>
      (s.consumers.findIdx? fun c => c.conn = conn ∧ c.consumerId = consumerId).map
        fun i => (t, s, i)

def withConsumer {R : Type} (b : Broker) (place : Place) (conn consumerId : ℕ)
    (f : Topic → Sub → ℕ → Topic × R) : Broker × Option R :=
  match b.findConsumer place conn consumerId with
  | none => (b, none)
  | some (t, s, i) =>
    let (t, result) := f t s i
    ({ b with topics := b.topics.insert place.topic t }, some result)

def openTopic (b : Broker) : Broker × Option Topic :=
  ({ b with nextLedger := wrappingAdd 64 b.nextLedger 1 },
    (checkedAdd 64 b.nextLedger 1).map fun ledgerId => { ledgerId, nextEntry := 0, subs := ∅ })

def topicEntry (b : Broker) (topic : String) : Broker × Option Topic :=
  match b.topics.lookup topic with
  | some t => (b, some t)
  | none => b.openTopic

/-- The topic with no subscriptions that the search over the map finds: the one given, when
it is such a topic. -/
def forgettable (b : Broker) (found : String) : Option String :=
  let bare := fun name => (b.topics.lookup name).any fun t => t.subs.keys.isEmpty
  if bare found then some found else b.topics.keys.find? bare

/-- A full broker forgets a topic with no subscriptions before it opens another. -/
def makeRoom (b : Broker) (topic found : String) : Broker :=
  if topic ∉ b.topics ∧ b.topics.keys.length ≥ maxTopics then
    match b.forgettable found with
    | none => b
    | some name => { b with topics := b.topics.erase name }
  else b

/-- Store messages on a topic and deliver them; the id of the last, none after a panic. -/
def publish (b : Broker) (topic : String) (sends : List Send) (found : String) :
    Broker × Option MessageId :=
  match (b.makeRoom topic found).topicEntry topic with
  | (b, none) => (b, none)
  | (b, some t) =>
    let (stored, ids) := t.storeAll sends
    ({ b with
        topics := b.topics.insert topic stored
        assigned := b.assigned ++ ids.map fun id => (topic, id) },
      if ids.length = sends.length then some (ids.getLast?.getD ⟨t.ledgerId, 0⟩) else none)

def subTypes : List String := ["Exclusive", "Shared", "Failover", "Key_Shared"]

/-- The name of a type; a number below zero is none of them. -/
def subTypeName (subType : ℤ) : String :=
  if subType < 0 then "?" else subTypes.getD subType.toNat "?"

/-- Whether a consumer could join: an Exclusive subscription takes one consumer, and a
subscription keeps the type it was created with. -/
def canSubscribe (b : Broker) (place : Place) (subType : ℤ) : Except String Unit :=
  match b.sub? place with
  | none => .ok ()
  | some s =>
    if ¬ s.consumers.isEmpty ∧ s.subType ≠ subType then
      .error ("subscription " ++ place.sub ++ " is " ++ subTypeName s.subType)
    else if s.subType = 0 ∧ ¬ s.consumers.isEmpty then
      .error ("exclusive subscription " ++ place.sub ++ " already has a consumer")
    else .ok ()

structure Subscribe where
  place : Place
  subType : ℤ
  conn : ℕ
  consumerId : ℕ

/-- The second lock section of `subscribe`, after `can_subscribe` has passed; no result is
a panic. -/
def subscribe (b : Broker) (r : Subscribe) : Broker × Option (Except String Unit) :=
  if r.place.topic ∉ b.topics ∧ b.topics.keys.length ≥ maxTopics then
    (b, some (.error "too many topics"))
  else
    match b.topicEntry r.place.topic with
    | (b, none) => (b, none)
    | (b, some t) =>
      let s := ((t.subs.lookup r.place.sub).getD .default).join r.subType r.conn r.consumerId
      ({ b with
          topics := b.topics.insert r.place.topic { t with subs := t.subs.insert r.place.sub s } },
        some (.ok ()))

def updateSub (b : Broker) (place : Place) (conn consumerId : ℕ) (f : Sub → ℕ → Sub) : Broker :=
  (b.withConsumer place conn consumerId fun t s i =>
    ({ t with subs := t.subs.insert place.sub (f s i) }, ())).1

def flow (b : Broker) (place : Place) (conn consumerId permits : ℕ) (sends : List Bool) :
    Broker :=
  b.updateSub place conn consumerId fun s i => s.flow i permits sends

def ack (b : Broker) (place : Place) (conn consumerId : ℕ) (cumulative : Bool)
    (ids : List MessageId) : Broker :=
  b.updateSub place conn consumerId fun s i => s.ack i cumulative ids

def redeliver (b : Broker) (place : Place) (conn consumerId : ℕ) (ids : List MessageId)
    (sends : List Bool) : Broker :=
  b.updateSub place conn consumerId fun s i => s.redeliver i ids sends

def unsubscribe (b : Broker) (place : Place) (conn consumerId : ℕ) :
    Broker × Except String Unit :=
  let (b, result) := b.withConsumer place conn consumerId fun t s _ =>
    if s.consumers.length > 1 then
      (t, .error "other consumers are still connected to this subscription")
    else ({ t with subs := t.subs.erase place.sub }, .ok ())
  (b, result.getD (.error "no such consumer"))

def closeConsumer (b : Broker) (place : Place) (conn consumerId : ℕ) (sends : List Bool) :
    Broker :=
  b.updateSub place conn consumerId fun s i => s.leave i sends

/-- The first lock section of `drop_connection`: the consumers of the connection. -/
def consumersOf (b : Broker) (conn : ℕ) : List ℕ :=
  ((b.topics.values.flatMap fun t => t.subs.values).flatMap fun s =>
    s.consumers.filter fun c => c.conn = conn).map (·.consumerId)

end Broker

/-! ## Runs -/

/-- The broker and the calls that stand between two of their lock sections: subscribers
that `can_subscribe` let through, and consumers that `drop_connection` is closing. -/
structure World where
  broker : Broker
  joining : List Broker.Subscribe
  leaving : List (ℕ × ℕ)

inductive Label where
  | canSubscribe (r : Broker.Subscribe)
  | subscribe (k : ℕ)
  | publish (topic : String) (sends : List Send) (found : String)
  | flow (place : Place) (conn consumerId permits : ℕ) (sends : List Bool)
  | ack (place : Place) (conn consumerId : ℕ) (cumulative : Bool) (ids : List MessageId)
  | redeliver (place : Place) (conn consumerId : ℕ) (ids : List MessageId) (sends : List Bool)
  | unsubscribe (place : Place) (conn consumerId : ℕ)
  | closeConsumer (place : Place) (conn consumerId : ℕ) (sends : List Bool)
  | dropConnection (conn : ℕ)
  | leave (k : ℕ) (place : Place) (sends : List Bool)
  | rememberRefusal (key : SendKey) (why : String)

namespace World

def new : World := { broker := .new, joining := [], leaving := [] }

def step (w : World) : Label → World
  | .canSubscribe r =>
    match w.broker.canSubscribe r.place r.subType with
    | .error _ => w
    | .ok _ => { w with joining := w.joining ++ [r] }
  | .subscribe k =>
    match w.joining[k]? with
    | none => w
    | some r => { w with broker := (w.broker.subscribe r).1, joining := w.joining.eraseIdx k }
  | .publish topic sends found =>
    { w with broker := (w.broker.publish topic sends found).1 }
  | .flow place conn consumerId permits sends =>
    { w with broker := w.broker.flow place conn consumerId permits sends }
  | .ack place conn consumerId cumulative ids =>
    { w with broker := w.broker.ack place conn consumerId cumulative ids }
  | .redeliver place conn consumerId ids sends =>
    { w with broker := w.broker.redeliver place conn consumerId ids sends }
  | .unsubscribe place conn consumerId =>
    { w with broker := (w.broker.unsubscribe place conn consumerId).1 }
  | .closeConsumer place conn consumerId sends =>
    { w with broker := w.broker.closeConsumer place conn consumerId sends }
  | .dropConnection conn =>
    { w with leaving := w.leaving ++ (w.broker.consumersOf conn).map fun id => (conn, id) }
  | .leave k place sends =>
    match w.leaving[k]? with
    | none => w
    | some (conn, consumerId) =>
      { w with
        broker := w.broker.closeConsumer place conn consumerId sends
        leaving := w.leaving.eraseIdx k }
  | .rememberRefusal key why => { w with broker := w.broker.rememberRefusal key why }

end World

end NetGet.Pulsar
