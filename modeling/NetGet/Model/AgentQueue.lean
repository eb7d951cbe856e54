import NetGet.Library.Arith
import NetGet.Library.Machine
import NetGet.Library.Table
import NetGet.Model.Json

/-! # The queue of LLM requests answered by the calling agent

Submitters wait on a channel, agents claim and answer requests. Every lock section of the
queue is one step of the system at the end of this file. -/

namespace NetGet.AgentQueue

open Json
open Library

structure PendingLlmRequest where
  id : ℕ
  claimed : Bool

structure Entry where
  request : PendingLlmRequest
  responder : ℕ

/-- What the lock guards: the ids in arrival order, the entries and the next id. -/
structure Inner where
  order : List ℕ
  entries : Table ℕ Entry
  nextId : ℕ

def Inner.new : Inner := { order := [], entries := ∅, nextId := 1 }

/-- The id of the new request, or `none` when the id counter overflows: the call panics
before it changes anything. -/
def Inner.submit (inner : Inner) (responder : ℕ) : Option (ℕ × Inner) :=
  match checkedAdd 64 inner.nextId 1 with
  | none => none
  | some nextId =>
    let id := inner.nextId
    some (id,
      { order := inner.order ++ [id]
        entries := inner.entries.insert id { request := { id, claimed := false }, responder }
        nextId })

def Inner.isUnclaimed (inner : Inner) (id : ℕ) : Bool :=
  match inner.entries.lookup id with
  | none => false
  | some entry => !entry.request.claimed

def Entry.claim (entry : Entry) : Entry :=
  { entry with request := { entry.request with claimed := true } }

/-- Claim the oldest request that is not claimed yet. `wait_and_claim` makes the same call
until it returns a request or times out. -/
def Inner.claimNext (inner : Inner) : Option PendingLlmRequest × Inner :=
  match inner.order.find? inner.isUnclaimed with
  | none => (none, inner)
  | some id =>
    match inner.entries.lookup id with
    | none => (none, inner)
    | some entry =>
      (some entry.claim.request,
        { inner with entries := inner.entries.insert id entry.claim })

def Inner.remove (inner : Inner) (id : ℕ) : Inner :=
  { inner with entries := inner.entries.erase id, order := inner.order.filter (· ≠ id) }

/-- The lock section of `answer`. -/
def Inner.answer (inner : Inner) (id : ℕ) : Except String (Entry × Inner) :=
  match inner.entries.lookup id with
  | none =>
    .error ("no pending LLM request with id " ++ toString id ++
      " (already answered, expired, or never existed)")
  | some entry => .ok (entry, inner.remove id)

def Inner.expire (inner : Inner) (id : ℕ) : Inner := inner.remove id

structure Answer where
  id : ℕ
  responder : ℕ
  actions : List Value

/-- The second half of `answer`: sending fails once the submitter stopped waiting. -/
def Answer.send (answer : Answer) (waiting : Bool) : Except String Unit :=
  if waiting then .ok ()
  else
    .error ("LLM request " ++ toString answer.id ++
      " is no longer waiting (its connection timed out or closed)")

/-- The queue with its users. `channels` counts the channels made so far, `closed` lists
those whose submitter stopped waiting, `sending` the answers between the two halves of
`answer`. The logs keep what `submit`, `claim_next` and `send` returned. -/
structure World where
  inner : Inner
  channels : ℕ
  closed : List ℕ
  sending : List Answer
  submitted : List (ℕ × ℕ)
  claims : List ℕ
  deliveries : List Answer

def World.init : World :=
  { inner := .new, channels := 0, closed := [], sending := [], submitted := [], claims := [],
    deliveries := [] }

inductive Label where
  | submit
  | claimNext
  | answer (id : ℕ) (actions : List Value)
  | send (call : ℕ)
  | expire (id : ℕ)
  | list
  | stopWaiting (channel : ℕ)

def World.step (w : World) : Label → World
  | .submit =>
    match w.inner.submit w.channels with
    | none => { w with channels := w.channels + 1 }
    | some (id, inner) =>
      { w with
        inner
        channels := w.channels + 1
        submitted := w.submitted ++ [(id, w.channels)] }
  | .claimNext =>
    match w.inner.claimNext with
    | (none, inner) => { w with inner }
    | (some request, inner) => { w with inner, claims := w.claims ++ [request.id] }
  | .answer id actions =>
    match w.inner.answer id with
    | .error _ => w
    | .ok (entry, inner) =>
      { w with inner, sending := w.sending ++ [{ id, responder := entry.responder, actions }] }
  | .send call =>
    match w.sending[call]? with
    | none => w
    | some answer =>
      let w := { w with sending := w.sending.eraseIdx call }
      match answer.send (answer.responder ∉ w.closed) with
      | .error _ => w
      | .ok () => { w with deliveries := w.deliveries ++ [answer] }
  | .expire id => { w with inner := w.inner.expire id }
  | .list => w
  | .stopWaiting channel => { w with closed := channel :: w.closed }

end NetGet.AgentQueue
