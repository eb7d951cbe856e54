import NetGet.Library.Bounded
import NetGet.Library.Machine
import NetGet.Library.Table
import NetGet.Model.Bytes

/-! # Observers and uploads of the CoAP server

Instants and durations are counted in nanoseconds. -/

namespace NetGet.Coap

open Library

inductive IpAddr where
  | v4 (bits : BitVec 32)
  | v6 (bits : BitVec 128)
  deriving DecidableEq

/-- A socket address; `flowinfo` and `scopeId` are zero for an IPv4 address. -/
structure SocketAddr where
  ip : IpAddr
  port : UInt16
  flowinfo : UInt32
  scopeId : UInt32
  deriving DecidableEq

/-! ## Observers -/

def recentNotifications : ℕ := 256

structure Observer where
  peer : SocketAddr
  token : Bytes
  path : String
  query : Option String
  blockSzx : Option UInt8
  connectionId : ℕ
  deriving DecidableEq

inductive Registered where
  | added
  | replaced
  | full
  | peerFull
  deriving DecidableEq

structure Sent where
  peer : SocketAddr
  messageId : UInt16
  token : Bytes
  deriving DecidableEq

structure Entry where
  observer : Observer
  confirmed : ℕ
  deriving DecidableEq

structure Observers where
  list : List Entry
  cap : ℕ
  perIp : ℕ
  maxAge : ℕ
  sent : List Sent
  pending : Table (SocketAddr × UInt16) Bytes

/-- The change of the first entry that passes the test, `iter_mut().find(..)`. -/
def modifyFirst {α : Type*} (p : α → Bool) (f : α → α) : List α → List α
  | [] => []
  | x :: xs => if p x then f x :: xs else x :: modifyFirst p f xs

/-- Whether an entry is the observation of `peer` under `token`. -/
def Entry.is (peer : SocketAddr) (token : Bytes) (e : Entry) : Bool :=
  e.observer.peer = peer ∧ e.observer.token = token

namespace Observers

def new (cap perIp maxAge : ℕ) : Observers :=
  { list := [], cap, perIp, maxAge, sent := [], pending := ∅ }

/-- The pending notifications that are not for the observation of `peer` under `token`. -/
def retainOthers (peer : SocketAddr) (token : Bytes) (pending : Table (SocketAddr × UInt16) Bytes) :
    Table (SocketAddr × UInt16) Bytes :=
  pending.retain fun k t => !(k.1 = peer ∧ t = token)

def register (o : Observers) (observer : Observer) (now : ℕ) : Observers × Registered :=
  let entry : Entry := { observer, confirmed := now }
  if o.list.any (Entry.is observer.peer observer.token) then
    ({ o with
        list := modifyFirst (Entry.is observer.peer observer.token) (fun _ => entry) o.list },
      .replaced)
  else if o.perIp ≤ (o.list.filter fun e => e.observer.peer.ip = observer.peer.ip).length then
    (o, .peerFull)
  else if o.cap ≤ o.list.length then (o, .full)
  else ({ o with list := o.list ++ [entry] }, .added)

def expire (o : Observers) (now : ℕ) : Observers × List Observer :=
  let keep : Entry → Bool := fun e => now - e.confirmed < o.maxAge
  let expired := (o.list.filter fun e => !keep e).map Entry.observer
  ({ o with
      list := o.list.filter keep
      pending := expired.foldl (fun p observer => retainOthers observer.peer observer.token p)
        o.pending },
    expired)

def deregister (o : Observers) (peer : SocketAddr) (token : Bytes) : Observers × Bool :=
  let list := o.list.filter fun e => !e.is peer token
  ({ o with list, pending := retainOthers peer token o.pending }, o.list.length ≠ list.length)

def record (o : Observers) (peer : SocketAddr) (messageId : UInt16) (token : Bytes)
    (confirmable : Bool) : Observers :=
  let sent := (o.sent.filter fun s => !(s.peer = peer ∧ s.messageId = messageId)) ++
    [⟨peer, messageId, token⟩]
  let pending := o.pending.erase (peer, messageId)
  { o with
    sent := keepLast recentNotifications sent
    pending :=
      if confirmable then (retainOthers peer token pending).insert (peer, messageId) token
      else pending }

def acknowledge (o : Observers) (peer : SocketAddr) (messageId : UInt16) (now : ℕ) :
    Observers × Bool :=
  match o.pending.lookup (peer, messageId) with
  | none => (o, false)
  | some token =>
    ({ o with
        pending := o.pending.erase (peer, messageId)
        list := modifyFirst (Entry.is peer token) (fun e => { e with confirmed := now }) o.list },
      true)

def settle (o : Observers) (peer : SocketAddr) (messageId : UInt16) : Observers :=
  { o with pending := o.pending.erase (peer, messageId) }

def reset (o : Observers) (peer : SocketAddr) (messageId : UInt16) :
    Observers × Option Observer :=
  let token := (o.pending.lookup (peer, messageId)).or
    ((o.sent.find? fun s => s.peer = peer ∧ s.messageId = messageId).map Sent.token)
  let o := { o with pending := o.pending.erase (peer, messageId) }
  match token with
  | none => (o, none)
  | some token =>
    match o.list.find? (Entry.is peer token) with
    | none => (o, none)
    | some entry => ((o.deregister peer token).1, some entry.observer)

inductive Call where
  | register (observer : Observer) (now : ℕ)
  | deregister (peer : SocketAddr) (token : Bytes)
  | expire (now : ℕ)
  | record (peer : SocketAddr) (messageId : UInt16) (token : Bytes) (confirmable : Bool)
  | acknowledge (peer : SocketAddr) (messageId : UInt16) (now : ℕ)
  | awaitingAck (peer : SocketAddr) (messageId : UInt16)
  | settle (peer : SocketAddr) (messageId : UInt16)
  | reset (peer : SocketAddr) (messageId : UInt16)

def step (o : Observers) : Call → Observers
  | .register observer now => (o.register observer now).1
  | .deregister peer token => (o.deregister peer token).1
  | .expire now => (o.expire now).1
  | .record peer messageId token confirmable => o.record peer messageId token confirmable
  | .acknowledge peer messageId now => (o.acknowledge peer messageId now).1
  | .awaitingAck _ _ => o
  | .settle peer messageId => o.settle peer messageId
  | .reset peer messageId => (o.reset peer messageId).1

end Observers

/-! ## Block-wise uploads -/

def code (c d : UInt8) : UInt8 := c <<< 5 ||| d

def codeBadRequest : UInt8 := code 4 0

def codeRequestEntityIncomplete : UInt8 := code 4 8

def codeRequestEntityTooLarge : UInt8 := code 4 13

def codeServiceUnavailable : UInt8 := code 5 3

def maxSzx : ℕ := 6

def szxSize (szx : ℕ) : ℕ := 2 ^ (min szx maxSzx + 4)

/-- The value of a block option. The number has at most 20 bits on the wire. -/
structure BlockValue where
  num : ℕ
  more : Bool
  szx : ℕ
  deriving DecidableEq

def BlockValue.size (b : BlockValue) : ℕ := szxSize b.szx

def BlockValue.offset (b : BlockValue) : ℕ := b.num * b.size

structure ResourceKey where
  peer : SocketAddr
  path : String
  query : Option String
  deriving DecidableEq

structure UploadKey where
  resource : ResourceKey
  method : UInt8
  deriving DecidableEq

structure Upload where
  body : Bytes
  touched : ℕ
  deriving DecidableEq

inductive UploadStep where
  | continue (block : BlockValue)
  | complete (body : Bytes) (blocks : ℕ) (last : BlockValue)
  | refuse (code : UInt8) (size1 : Option ℕ) (decision reason : String)
  deriving DecidableEq

structure Uploads where
  entries : Table UploadKey Upload
  cap : ℕ
  perIp : ℕ
  ttl : ℕ
  maxBody : ℕ

namespace Uploads

def new (cap perIp ttl maxBody : ℕ) : Uploads :=
  { entries := ∅, cap := max cap 1, perIp := max perIp 1, ttl, maxBody }

def remove (u : Uploads) (key : UploadKey) : Uploads := { u with entries := u.entries.erase key }

def expire (u : Uploads) (now : ℕ) : Uploads :=
  { u with entries := u.entries.retain fun _ upload => now - upload.touched < u.ttl }

def tooLarge (u : Uploads) (what : String) : UploadStep :=
  .refuse codeRequestEntityTooLarge (some u.maxBody) "refused_upload_too_large"
    s!"{what}; this server takes at most {u.maxBody} bytes"

def held (u : Uploads) (ip : IpAddr) : List (Σ _ : UploadKey, Upload) :=
  u.entries.entries.filter fun e => e.1.resource.peer.ip = ip

/-- The upload that was touched first. `rank` is the place of a key in the order of the hash map,
which decides between uploads touched at the same instant. -/
def oldest (rank : UploadKey → ℕ) :
    List (Σ _ : UploadKey, Upload) → Option (Σ _ : UploadKey, Upload)
  | [] => none
  | e :: rest =>
    match oldest rank rest with
    | none => some e
    | some first =>
      if first.2.touched < e.2.touched ∨
          first.2.touched = e.2.touched ∧ rank first.1 < rank e.1 then some first
      else some e

/-- The loop that evicts uploads of one address. A round removes one, so that `entries.length`
rounds are enough. -/
def evict (rank : UploadKey → ℕ) (ip : IpAddr) : ℕ → Uploads → Uploads
  | 0, u => u
  | rounds + 1, u =>
    if (u.held ip).length < u.perIp then u
    else
      match oldest rank (u.held ip) with
      | none => u
      | some e => evict rank ip rounds (u.remove e.1)

/-- A block with the number 0 starts its upload again. -/
def acceptFirst (u : Uploads) (rank : UploadKey → ℕ) (key : UploadKey) (block : BlockValue)
    (payload : Bytes) (now : ℕ) : Uploads × UploadStep :=
  let u := u.remove key
  if !block.more then (u, .complete payload 1 block)
  else
    let u := evict rank key.resource.peer.ip u.entries.keys.length u
    if u.cap ≤ u.entries.keys.length then
      (u, .refuse codeServiceUnavailable none "refused_upload_table_full"
        s!"{u.cap} uploads are already in progress")
    else
      ({ u with entries := u.entries.insert key { body := payload, touched := now } },
        .continue block)

def acceptLater (u : Uploads) (key : UploadKey) (block : BlockValue) (payload : Bytes)
    (now : ℕ) : Uploads × UploadStep :=
  match u.entries.lookup key with
  | none =>
    (u.remove key, .refuse codeRequestEntityIncomplete none "refused_upload_out_of_order"
      s!"block {block.num} arrived with no upload in progress")
  | some upload =>
    if upload.body.length ≠ block.offset then
      (u.remove key, .refuse codeRequestEntityIncomplete none "refused_upload_out_of_order"
        (s!"block {block.num} starts at byte {block.offset}, but {upload.body.length} bytes " ++
          "have arrived"))
    else if u.maxBody < upload.body.length + payload.length then
      (u.remove key,
        u.tooLarge s!"the upload reached {upload.body.length + payload.length} bytes")
    else
      let upload := { body := upload.body ++ payload, touched := now }
      if block.more then
        ({ u with entries := u.entries.insert key upload }, .continue block)
      else (u.remove key, .complete upload.body (block.num + 1) block)

def accept (u : Uploads) (rank : UploadKey → ℕ) (key : UploadKey) (block : BlockValue)
    (payload : Bytes) (size1 : Option ℕ) (now : ℕ) : Uploads × UploadStep :=
  let u := u.expire now
  if u.maxBody < size1.getD 0 then
    (u.remove key, u.tooLarge s!"the client announced {size1.getD 0} bytes")
  else if block.more ∧ payload.length ≠ block.size then
    (u.remove key, .refuse codeBadRequest none "refused_upload_bad_block"
      (s!"block {block.num} says more follow but carries {payload.length} bytes, not its size " ++
        s!"{block.size}"))
  else if block.size < payload.length then
    (u.remove key, .refuse codeBadRequest none "refused_upload_bad_block"
      s!"block {block.num} carries {payload.length} bytes, over its size {block.size}")
  else if block.num = 0 then u.acceptFirst rank key block payload now
  else u.acceptLater key block payload now

structure Request where
  block : BlockValue
  payload : Bytes
  size1 : Option ℕ
  now : ℕ
  deriving DecidableEq

/-- A call of `accept`, with the order of the hash map at that time. -/
structure Call where
  key : UploadKey
  request : Request
  rank : UploadKey → ℕ

def call (u : Uploads) (c : Call) : Uploads × UploadStep :=
  u.accept c.rank c.key c.request.block c.request.payload c.request.size1 c.request.now

def step (u : Uploads) (c : Call) : Uploads := (u.call c).1

end Uploads

end NetGet.Coap
