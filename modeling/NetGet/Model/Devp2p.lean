import NetGet.Library.Arith
import NetGet.Library.Table
import NetGet.Model.Bytes

/-! # The eth session of devp2p

Requests of the peer that are owed an answer, and requests of NetGet that wait for one. Messages are
taken as they are decoded. -/

namespace NetGet.Devp2p

open Library

def maxOutstanding : ℕ := 16
def maxOwed : ℕ := 64
def requestTimeout : ℕ := 20

variable {Item Hash : Type}

inductive Origin (Hash : Type) where
  | number (n : ℕ)
  | hash (h : Hash)

structure HeaderRequest (Hash : Type) where
  origin : Origin Hash
  amount : ℕ
  skip : ℕ
  reverse : Bool

/-- The block number at position `i` of an answer, unless it passes zero or overflows. -/
def HeaderRequest.numberAt (req : HeaderRequest Hash) (first i : ℕ) : Option ℕ :=
  (checkedAdd 64 req.skip 1).bind fun skip =>
    if 2 ^ 64 ≤ skip * i then none
    else if req.reverse then if skip * i ≤ first then some (first - skip * i) else none
    else checkedAdd 64 first (skip * i)

inductive Kind where
  | headers | bodies | pooled
  deriving DecidableEq

/-- What is read off the items of an answer. -/
structure Eth (Item Hash : Type) where
  headerNumber : Item → Except String ℕ
  headerParent : Item → Option Hash
  headerHash : Item → Hash
  /-- `header_to_json`, `body_json` and `transaction_json` succeed. -/
  readable : Kind → Item → Bool

inductive Asked (Hash : Type) where
  | headers (req : HeaderRequest Hash)
  | bodies (hashes : List Hash)
  | pooled (hashes : List Hash)

structure Outstanding (Hash : Type) where
  asked : Asked Hash
  deadline : ℕ
  depth : ℕ

inductive Owed (Hash : Type) where
  | headers (req : HeaderRequest Hash)
  | bodies (count : ℕ)
  | pooled (hashes : List Hash)

/-- What is sent for a request; a pooled transaction comes with its hash. -/
inductive Answer (Item Hash : Type) where
  | headers (headers : List Item)
  | bodies (bodies : List Item)
  | pooled (transactions : List (Item × Hash))

inductive Entry (Item Hash : Type) where
  | asked (id : ℕ) (owed : Owed Hash)
  | sent (id : ℕ) (answer : Answer Item Hash)

structure Session (Item Hash : Type) where
  peerStatus : Bool
  ourStatus : Bool
  nextRequestId : ℕ
  outstanding : Table ℕ (Outstanding Hash)
  owed : Table ℕ (Owed Hash)
  /-- Not in the source and read by nothing: the requests taken and the answers sent. -/
  log : List (Entry Item Hash)

inductive Message (Item Hash : Type) where
  | getBlockHeaders (id : ℕ) (req : HeaderRequest Hash)
  | getBlockBodies (id : ℕ) (hashes : List Hash)
  | getPooledTransactions (id : ℕ) (hashes : List Hash)
  /-- BlockHeaders, BlockBodies or PooledTransactions. -/
  | response (kind : Kind) (id : ℕ) (items : List Item)
  /-- A message that concerns no request: announcements, range updates, receipts. -/
  | noted
  | refused (why : String)

inductive PeerEvent (Item : Type) where
  | requested (kind : Kind) (id : ℕ)
  | received (kind : Kind) (id : ℕ) (items : List Item) (depth : ℕ)

inductive Command (Item Hash : Type) where
  | disconnect
  | sendStatus
  | send (requestId : Option ℕ) (answer : Answer Item Hash)
  | request (asked : Asked Hash)

inductive Label (Item Hash : Type) where
  | takeStatus
  | onMessage (message : Message Item Hash)
  /-- A command, and whether what it writes is sent. -/
  | apply (command : Command Item Hash) (answering : Option ℕ) (depth now : ℕ) (sent : Bool)
  | expire (now : ℕ)

/-- Each newer header names the hash of the older one, in a contiguous request. -/
def linked [DecidableEq Hash] (eth : Eth Item Hash) (req : HeaderRequest Hash)
    (headers : List Item) : Bool :=
  req.skip != 0 || (headers.zip headers.tail).all fun w =>
    let (older, newer) := if req.reverse then (w.2, w.1) else (w.1, w.2)
    eth.headerParent newer = some (eth.headerHash older)

def checkOrigin [DecidableEq Hash] (eth : Eth Item Hash) (first : Item) (firstNumber : ℕ) :
    Origin Hash → Except String Unit
  | .number n => ensure (firstNumber = n)
      s!"the first header is block {firstNumber}, the request starts at {n}"
  | .hash h => ensure (eth.headerHash first = h) "the first header has another hash"

def validateAnswer [DecidableEq Hash] (eth : Eth Item Hash) (req : HeaderRequest Hash)
    (headers : List Item) : Except String Unit := do
  ensure (headers.length ≤ req.amount) s!"{headers.length} headers for a request of {req.amount}"
  match headers with
  | [] => .ok ()
  | first :: _ =>
    let firstNumber ← eth.headerNumber first
    checkOrigin eth first firstNumber req.origin
    headers.zipIdx.forM fun h => do
      let n ← eth.headerNumber h.1
      ensure (some n = req.numberAt firstNumber h.2) s!"headers[{h.2}] is block {n}"
    ensure (linked eth req headers) "the headers do not form a chain"

def checkAnswer [DecidableEq Hash] (eth : Eth Item Hash) :
    Owed Hash → Answer Item Hash → Except String Unit
  | .headers req, .headers headers => validateAnswer eth req headers
  | .bodies n, .bodies bodies => ensure (bodies.length ≤ n)
      s!"{bodies.length} bodies for a request naming {n} blocks"
  | .pooled asked, .pooled transactions => ensure (transactions.all fun t => t.2 ∈ asked)
      "a transaction was not asked for"
  | _, _ => .error "there is no unanswered request of this kind"

namespace Session

def new (nextRequestId : ℕ) : Session Item Hash :=
  { peerStatus := false, ourStatus := false, nextRequestId, outstanding := ∅, owed := ∅, log := [] }

def owe (s : Session Item Hash) (kind : Kind) (id : ℕ) (owed : Owed Hash) :
    Except String (Option (PeerEvent Item)) × Session Item Hash :=
  if maxOwed ≤ s.owed.keys.length then
    (.error s!"the peer has {maxOwed} requests unanswered", s)
  else if id ∈ s.owed then
    (.error s!"the peer reused request id {id} while it is still unanswered", s)
  else
    (.ok (some (.requested kind id)),
      { s with owed := s.owed.insert id owed, log := s.log ++ [.asked id owed] })

def received (eth : Eth Item Hash) (o : Outstanding Hash) (id : ℕ) (items : List Item) :
    Except String (Option (PeerEvent Item)) :=
  let report (kind : Kind) :=
    if items.all (eth.readable kind) then .ok (some (.received kind id items (o.depth + 1)))
    else .error "an item is malformed"
  match o.asked with
  | .headers req =>
    if req.amount < items.length then
      .error s!"{items.length} headers for a request of {req.amount}"
    else report .headers
  | .bodies hashes =>
    if hashes.length < items.length then
      .error s!"{items.length} bodies for {hashes.length} hashes"
    else report .bodies
  | .pooled _ => report .pooled

def answerFor (eth : Eth Item Hash) (s : Session Item Hash) (id : ℕ) (items : List Item) :
    Except String (Option (PeerEvent Item)) × Session Item Hash :=
  match s.outstanding.lookup id with
  | none => (.ok none, s)
  | some o => (received eth o id items, { s with outstanding := s.outstanding.erase id })

def onMessage (eth : Eth Item Hash) (s : Session Item Hash) (message : Message Item Hash) :
    Except String (Option (PeerEvent Item)) × Session Item Hash :=
  if s.peerStatus then
    match message with
    | .getBlockHeaders id req => s.owe .headers id (.headers req)
    | .getBlockBodies id hashes => s.owe .bodies id (.bodies hashes.length)
    | .getPooledTransactions id hashes => s.owe .pooled id (.pooled hashes)
    | .response _ id items => s.answerFor eth id items
    | .noted => (.ok none, s)
    | .refused why => (.error why, s)
  else (.error "a message before the peer's Status", s)

/-- `SendHeaders`, `SendBodies` and `SendPooled`. -/
def send [DecidableEq Hash] (eth : Eth Item Hash) (s : Session Item Hash) (id : Option ℕ)
    (answer : Answer Item Hash) (sent : Bool) : Session Item Hash :=
  match id with
  | none => s
  | some id =>
    match s.owed.lookup id with
    | none => s
    | some owed =>
      if (checkAnswer eth owed answer).isOk && sent then
        { s with owed := s.owed.erase id, log := s.log ++ [.sent id answer] }
      else s

/-- `RequestHeaders`, `RequestBodies` and `RequestPooled`. -/
def request (s : Session Item Hash) (asked : Asked Hash) (depth now : ℕ) (sent : Bool) :
    Session Item Hash :=
  if maxOutstanding ≤ s.outstanding.keys.length then s
  else
    let id := wrappingAdd 64 s.nextRequestId 1
    let s := { s with nextRequestId := id }
    if sent then
      { s with
        outstanding := s.outstanding.insert id { asked, deadline := now + requestTimeout, depth } }
    else s

/-- The session after a command, which changes nothing where it fails, but for the next id. -/
def apply [DecidableEq Hash] (eth : Eth Item Hash) (s : Session Item Hash)
    (command : Command Item Hash) (answering : Option ℕ) (depth now : ℕ) (sent : Bool) :
    Session Item Hash :=
  match command with
  | .disconnect => s
  | .sendStatus => if sent then { s with ourStatus := true } else s
  | .send requestId answer =>
    if s.peerStatus && s.ourStatus then s.send eth (requestId.or answering) answer sent else s
  | .request asked =>
    if s.peerStatus && s.ourStatus then s.request asked depth now sent else s

def step [DecidableEq Hash] (eth : Eth Item Hash) (s : Session Item Hash) :
    Label Item Hash → Session Item Hash
  | .takeStatus => { s with peerStatus := true }
  | .onMessage message => (s.onMessage eth message).2
  | .apply command answering depth now sent => s.apply eth command answering depth now sent
  | .expire now => { s with outstanding := s.outstanding.retain fun _ o => now < o.deadline }

end Session

end NetGet.Devp2p
