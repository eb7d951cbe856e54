import NetGet.Library.Arith
import NetGet.Library.Machine
import NetGet.Library.Table

/-! # The FIFO concurrency gate of the LLM rate limiter

`ConcurrencyState` is the data behind the gate's mutex. Each operation is one critical section and
returns the waker that is invoked after unlocking. `World` adds the tasks' futures and permits. -/

namespace NetGet.ConcurrencyGate

open Library

variable {ω : Type*}

structure ConcurrencyState (ω : Type*) where
  limit : ℕ
  active : ℕ
  nextId : ℕ
  queue : List (ℕ × ω)
  deriving DecidableEq

def ConcurrencyState.new (limit : ℕ) : ConcurrencyState ω :=
  { limit, active := 0, nextId := 0, queue := [] }

def ConcurrencyState.frontWaker (s : ConcurrencyState ω) : Option ω :=
  s.queue.head?.map Prod.snd

def ConcurrencyState.resize (limit : ℕ) (s : ConcurrencyState ω) :
    ConcurrencyState ω × Option ω :=
  ({ s with limit }, s.frontWaker)

/-- `none` is the `Err(())` of the source. -/
def ConcurrencyState.tryAcquireOwned (s : ConcurrencyState ω) :
    Option (ConcurrencyState ω) :=
  if s.active ≥ s.limit ∨ s.queue.isEmpty = false then none
  else some { s with active := s.active + 1 }

/-- Whether a `ConcurrencyWait` with this `id` field is next in line. -/
def ConcurrencyState.isFirst (s : ConcurrencyState ω) : Option ℕ → Bool
  | none => s.queue.isEmpty
  | some id => s.queue.head?.any fun front => front.1 == id

def register (id : ℕ) (waker : ω) : List (ℕ × ω) → List (ℕ × ω)
  | [] => []
  | entry :: rest =>
    if entry.1 == id then (entry.1, waker) :: rest else entry :: register id waker rest

/-- What a poll leaves behind: the guarded state, the future's `id` field, whether a
permit was returned, and the waker to invoke after unlocking. -/
structure PollResult (ω : Type*) where
  state : ConcurrencyState ω
  id : Option ℕ
  ready : Bool
  wake : Option ω

def ConcurrencyState.poll (s : ConcurrencyState ω) (id : Option ℕ) (waker : ω) :
    PollResult ω :=
  if s.isFirst id ∧ s.active < s.limit then
    let queue := if id.isSome then s.queue.tail else s.queue
    let s := { s with queue, active := s.active + 1 }
    { state := s, id := none, ready := true,
      wake := if s.active < s.limit then s.frontWaker else none }
  else
    match id with
    | some id =>
      { state := { s with queue := register id waker s.queue },
        id := some id, ready := false, wake := none }
    | none =>
      { state := { s with
          nextId := wrappingAdd 64 s.nextId 1
          queue := s.queue ++ [(s.nextId, waker)] },
        id := some s.nextId, ready := false, wake := none }

def ConcurrencyState.dropWait (id : Option ℕ) (s : ConcurrencyState ω) :
    ConcurrencyState ω × Option ω :=
  match id with
  | none => (s, none)
  | some id =>
    let s := { s with queue := s.queue.filter fun entry => entry.1 != id }
    (s, s.frontWaker)

def ConcurrencyState.dropPermit (s : ConcurrencyState ω) : ConcurrencyState ω × Option ω :=
  let s := { s with active := s.active - 1 }
  (s, s.frontWaker)

/-- A live `ConcurrencyWait`. Only `id` is a field of the source; `granted` records
that a poll returned `Ready`. -/
structure Wait where
  id : Option ℕ
  granted : Bool
  deriving DecidableEq

/-- A waker as registered in the queue. Only `waker` is in the source; `invoked`
records that an equal waker was invoked since this registration. -/
structure Registration (ω : Type*) where
  waker : ω
  invoked : Bool
  deriving DecidableEq

/-- The gate with everything the tasks hold. Futures and permits are named by the
order in which they were made. `inflight` holds the wakers taken in a critical section
and not invoked yet. `polled` and `granted` list the futures in the order of their first
poll and in the order of their grants. -/
structure World (ω : Type*) where
  gate : ConcurrencyState (Registration ω)
  waits : Table ℕ Wait
  created : ℕ
  permits : List ℕ
  minted : ℕ
  inflight : List ω
  polled : List ℕ
  granted : List ℕ

def World.new (limit : ℕ) : World ω where
  gate := .new limit
  waits := ∅
  created := 0
  permits := []
  minted := 0
  inflight := []
  polled := []
  granted := []

inductive Label (ω : Type*) where
  /-- `try_acquire_owned` -/
  | tryAcquire
  /-- `acquire_owned`: a new future, not polled yet -/
  | acquire
  | poll (future : ℕ) (waker : ω)
  | dropWait (future : ℕ)
  | dropPermit (permit : ℕ)
  | resize (limit : ℕ)
  /-- a task invokes a waker it took inside its critical section -/
  | wake (waker : ω)

/-- The end of a critical section: the guarded state, and the waker taken there. -/
def World.unlock (w : World ω) (gate : ConcurrencyState (Registration ω))
    (wake : Option (Registration ω)) : World ω :=
  { w with gate, inflight := (wake.map Registration.waker).toList ++ w.inflight }

def World.mint (w : World ω) : World ω :=
  { w with permits := w.minted :: w.permits, minted := w.minted + 1 }

/-- The outcome of polling `future`, whose field was `id`, with `waker`. -/
def World.pollWait (w : World ω) (future : ℕ) (id : Option ℕ) (waker : ω) : World ω :=
  let result := w.gate.poll id { waker, invoked := false }
  let w := { w.unlock result.state result.wake with
    waits := w.waits.insert future { id := result.id, granted := result.ready }
    polled := if future ∈ w.polled then w.polled else w.polled ++ [future] }
  if result.ready then { w.mint with granted := w.granted ++ [future] } else w

/-- `waker` is invoked: every registration of it is now a woken one. -/
def World.invoke [DecidableEq ω] (w : World ω) (waker : ω) : World ω :=
  { w with
    inflight := w.inflight.erase waker
    gate := { w.gate with
      queue := w.gate.queue.map fun entry =>
        if entry.2.waker = waker then (entry.1, { entry.2 with invoked := true })
        else entry } }

/-- One atomic step: a critical section, or the invocation of a waker. A future that
returned `Ready` is not polled again, which every `.await` guarantees. -/
def World.step [DecidableEq ω] (w : World ω) : Label ω → World ω
  | .tryAcquire =>
    match w.gate.tryAcquireOwned with
    | none => w
    | some gate => (w.unlock gate none).mint
  | .acquire =>
    { w with
      waits := w.waits.insert w.created { id := none, granted := false }
      created := w.created + 1 }
  | .poll future waker =>
    match w.waits.lookup future with
    | none => w
    | some wait => if wait.granted then w else w.pollWait future wait.id waker
  | .dropWait future =>
    match w.waits.lookup future with
    | none => w
    | some wait =>
      let (gate, wake) := w.gate.dropWait wait.id
      { w.unlock gate wake with waits := w.waits.erase future }
  | .dropPermit permit =>
    if permit ∈ w.permits then
      let (gate, wake) := w.gate.dropPermit
      { w.unlock gate wake with permits := w.permits.erase permit }
    else w
  | .resize limit =>
    let (gate, wake) := w.gate.resize limit
    w.unlock gate wake
  | .wake waker => if waker ∈ w.inflight then w.invoke waker else w

/-- The world after `labels`, starting from `ConcurrencyGate::new(limit)`. -/
def World.after [DecidableEq ω] (limit : ℕ) (labels : List (Label ω)) : World ω :=
  Machine.run World.step (World.new limit) labels

/-- A whole operation: its critical section, then the wakers it took. -/
def World.operation [DecidableEq ω] (w : World ω) (label : Label ω) : World ω :=
  let w := w.step label
  w.inflight.foldl World.invoke w

end NetGet.ConcurrencyGate
