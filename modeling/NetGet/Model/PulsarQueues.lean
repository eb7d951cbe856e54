import NetGet.Model.Pulsar

/-! # The writer queues of the Pulsar broker

A frame reaches a consumer through the writer queue of its connection, which has room for a
number of frames. Here the outcome of each `try_send` follows from the room that is left. -/

namespace NetGet.Pulsar

open Library

def writeQueue : ℕ := 1024

/-- The places that are left in the writer queue of each connection; a connection whose writer
is gone has none. -/
abbrev Queues := ℕ → ℕ

namespace Sub

/-- The outcomes of the sends of a drain, and the room that is left after it. Every round of the
loop takes a message off the backlog. -/
def trySends : ℕ → Queues → Sub → List Bool × Queues
  | 0, free, _ => ([], free)
  | rounds + 1, free, s =>
    match s.backlog, s.pick with
    | m :: backlog, some i =>
      let conn := (s.consumers[i]?.map (·.conn)).getD 0
      if 0 < free conn then
        let (sends, free) := trySends rounds (Function.update free conn (free conn - 1))
          (s.deliver i m backlog)
        (true :: sends, free)
      else ([false], free)
    | _, _ => ([], free)

def attempt (free : Queues) (s : Sub) : List Bool × Queues := trySends s.backlog.length free s

/-- The subscription once the messages that are asked for are back in the backlog, if that goes
without a panic. -/
def returned (s : Sub) (i : ℕ) (ids : List MessageId) : Option Sub :=
  (s.consumers[i]?).bind fun c =>
    let (back, keep) := c.unacked.partition (named ids)
    let kept := { s with consumers := s.consumers.modify i fun c => { c with unacked := keep } }
    match kept.giveBack back.reverse with
    | (s, true) => some s
    | (_, false) => none

/-- The subscription once a consumer has left, if that goes without a panic. -/
def left (s : Sub) (i : ℕ) : Option Sub :=
  (s.consumers[i]?).bind fun c =>
    match { s with consumers := s.consumers.eraseIdx i }.giveBack c.unacked.reverse with
    | (s, true) => some { s with next := 0 }
    | (_, false) => none

/-- The sends of draining a subscription, unless a panic came before. -/
def attempt? (free : Queues) (s : Option Sub) : List Bool × Queues :=
  match s with
  | none => ([], free)
  | some s => s.attempt free

end Sub

namespace Topic

/-- The sends that a message leads to, subscription by subscription. -/
def attempts (m : Stored) :
    Queues → List (Sigma fun _ : String => Sub) → (String → List Bool) × Queues
  | free, [] => (fun _ => [], free)
  | free, ⟨name, s⟩ :: subs =>
    let (sends, free) := (s.enqueue m).attempt free
    let (others, free) := attempts m free subs
    (fun name' => if name' = name then sends else others name', free)

/-- The sends that storing the entries leads to; none after a panic. -/
def attemptAll :
    Queues → List Entry → Topic → List Send × Queues
  | free, [], _ => ([], free)
  | free, e :: entries, t =>
    let (sends, left) := attempts (t.stored e) free t.subs.entries
    match t.store ⟨e, sends⟩ with
    | none => ([⟨e, sends⟩], free)
    | some t =>
      let (rest, left) := attemptAll left entries t
      (⟨e, sends⟩ :: rest, left)

end Topic

structure Net where
  world : World
  free : Queues

/-- The connections' own tasks fill and empty their writer queues in any way; or a lock section of
the broker, whose outcomes of `try_send` are not taken from the label. -/
inductive Call where
  | writers (free : Queues)
  | broker (l : Label)

namespace Net

def new : Net := { world := .new, free := fun _ => writeQueue }

def attemptFor (n : Net) (place : Place) (conn consumerId : ℕ) (f : Sub → ℕ → Option Sub) :
    List Bool × Queues :=
  match n.world.broker.findConsumer place conn consumerId with
  | none => ([], n.free)
  | some (_, s, i) => Sub.attempt? n.free (f s i)

/-- The label with the outcomes that the writer queues lead to, and the room that is left. -/
def attempt (n : Net) : Label → Label × Queues
  | .publish topic sends found =>
    match (n.world.broker.makeRoom topic found).topicEntry topic with
    | (_, none) => (.publish topic sends found, n.free)
    | (_, some t) =>
      let (sends, free) := t.attemptAll n.free (sends.map (·.entry))
      (.publish topic sends found, free)
  | .flow place conn consumerId permits _ =>
    let (sends, free) := n.attemptFor place conn consumerId fun s i => some (s.flow i permits [])
    (.flow place conn consumerId permits sends, free)
  | .redeliver place conn consumerId ids _ =>
    let (sends, free) := n.attemptFor place conn consumerId fun s i => s.returned i ids
    (.redeliver place conn consumerId ids sends, free)
  | .closeConsumer place conn consumerId _ =>
    let (sends, free) := n.attemptFor place conn consumerId Sub.left
    (.closeConsumer place conn consumerId sends, free)
  | .leave k place _ =>
    match n.world.leaving[k]? with
    | none => (.leave k place [], n.free)
    | some (conn, consumerId) =>
      let (sends, free) := n.attemptFor place conn consumerId Sub.left
      (.leave k place sends, free)
  | l => (l, n.free)

def step (n : Net) : Call → Net
  | .writers free => { n with free := fun conn => min (free conn) writeQueue }
  | .broker l =>
    let (l, free) := n.attempt l
    { world := n.world.step l, free := free }

end Net

end NetGet.Pulsar
