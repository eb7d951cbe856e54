import NetGet.Library.Arith
import NetGet.Library.Machine
import NetGet.Library.Table
import NetGet.Model.Truncate

/-! # The circuit breaker of the LLM backend

Times and durations are naturals in one unit. Every operation is one critical section
on `Inner`; `now` is the instant it reads the clock. -/

namespace NetGet.Breaker

open Library

inductive BreakerState where
  | closed
  | opened
  | halfOpen
  deriving DecidableEq

structure BreakerStatus where
  state : BreakerState
  consecutiveFailures : ℕ
  retryIn : Option ℕ
  trips : ℕ
  lastError : Option String
  deriving DecidableEq

structure Inner where
  consecutiveFailures : ℕ
  openedAt : Option ℕ
  trips : ℕ
  lastError : Option String
  generation : ℕ
  probeInFlight : Bool
  deriving DecidableEq

structure CircuitBreaker where
  failureThreshold : ℕ
  cooldown : ℕ
  inner : Inner
  deriving DecidableEq

/-- `CircuitBreaker::new`. A threshold of 0 is treated as 1. -/
def CircuitBreaker.new (failureThreshold : UInt32) (cooldown : ℕ) : CircuitBreaker where
  failureThreshold := max failureThreshold.toNat 1
  cooldown
  inner :=
    { consecutiveFailures := 0, openedAt := none, trips := 0, lastError := none,
      generation := 0, probeInFlight := false }

structure BreakerPermit where
  generation : ℕ
  probe : Bool
  completed : Bool
  deriving DecidableEq

structure BreakerOpen where
  consecutiveFailures : ℕ
  retryIn : ℕ
  lastError : Option String
  deriving DecidableEq

def CircuitBreaker.acquire (b : CircuitBreaker) (now : ℕ) :
    Except BreakerOpen (CircuitBreaker × BreakerPermit) :=
  match b.inner.openedAt with
  | some openedAt =>
    let elapsed := now - openedAt
    if b.inner.probeInFlight ∨ elapsed < b.cooldown then
      .error
        { consecutiveFailures := b.inner.consecutiveFailures
          retryIn := b.cooldown - elapsed
          lastError := b.inner.lastError }
    else
      .ok ({ b with inner := { b.inner with probeInFlight := true } },
        { generation := b.inner.generation, probe := true, completed := false })
  | none =>
    .ok (b, { generation := b.inner.generation, probe := false, completed := false })

/-- The direct `CircuitBreaker::record_success`. -/
def CircuitBreaker.recordSuccess (b : CircuitBreaker) : CircuitBreaker :=
  { b with inner := { b.inner with
      consecutiveFailures := 0
      openedAt := none
      lastError := none
      probeInFlight := false
      generation := wrappingAdd 64 b.inner.generation 1 } }

def Inner.countFailure (inner : Inner) (error : String) : Inner :=
  { inner with
    consecutiveFailures := saturatingAdd 32 inner.consecutiveFailures 1
    lastError := some (Truncate.truncateStr error 4096) }

/-- The breaker opens, or opens again, at `now`. -/
def Inner.trip (inner : Inner) (now : ℕ) : Inner :=
  { inner with
    openedAt := some now
    trips := saturatingAdd 64 inner.trips 1
    probeInFlight := false
    generation := wrappingAdd 64 inner.generation 1 }

/-- The direct `CircuitBreaker::record_failure`, with whether it opened the breaker. -/
def CircuitBreaker.recordFailure (b : CircuitBreaker) (error : String) (now : ℕ) :
    CircuitBreaker × Bool :=
  let inner := b.inner.countFailure error
  if inner.consecutiveFailures ≥ b.failureThreshold ∧
      (inner.openedAt.isNone ∨ inner.probeInFlight) then
    ({ b with inner := inner.trip now }, true)
  else ({ b with inner }, false)

def CircuitBreaker.reset (b : CircuitBreaker) : CircuitBreaker := b.recordSuccess

def CircuitBreaker.status (b : CircuitBreaker) (now : ℕ) : BreakerStatus :=
  let (state, retryIn) :=
    match b.inner.openedAt with
    | none =>
      if b.inner.consecutiveFailures ≥ b.failureThreshold then (BreakerState.halfOpen, none)
      else (BreakerState.closed, none)
    | some openedAt =>
      let elapsed := now - openedAt
      if elapsed < b.cooldown then (BreakerState.opened, some (b.cooldown - elapsed))
      else (BreakerState.halfOpen, none)
  { state, retryIn
    consecutiveFailures := b.inner.consecutiveFailures
    trips := b.inner.trips
    lastError := b.inner.lastError }

/-- `BreakerPermit::drop`. -/
def BreakerPermit.drop (p : BreakerPermit) (b : CircuitBreaker) (now : ℕ) : CircuitBreaker :=
  if p.probe ∧ ¬p.completed then
    if b.inner.generation = p.generation ∧ b.inner.probeInFlight then
      { b with inner := { b.inner with
          probeInFlight := false
          openedAt := some now
          generation := wrappingAdd 64 b.inner.generation 1 } }
    else b
  else b

/-- `BreakerPermit::record_success`, ending with the drop of the completed lease. -/
def BreakerPermit.recordSuccess (p : BreakerPermit) (b : CircuitBreaker) (now : ℕ) :
    CircuitBreaker :=
  let b :=
    if b.inner.generation = p.generation then
      { b with inner := { b.inner with
          consecutiveFailures := 0
          openedAt := none
          lastError := none
          probeInFlight := false
          generation :=
            if p.probe then wrappingAdd 64 b.inner.generation 1 else b.inner.generation } }
    else b
  { p with completed := true }.drop b now

/-- `BreakerPermit::record_failure`, with whether it opened the breaker. -/
def BreakerPermit.recordFailure (p : BreakerPermit) (b : CircuitBreaker) (error : String)
    (now : ℕ) : CircuitBreaker × Bool :=
  let (b, tripped) :=
    if b.inner.generation = p.generation then
      let inner := b.inner.countFailure error
      if inner.consecutiveFailures ≥ b.failureThreshold then
        ({ b with inner := inner.trip now }, true)
      else ({ b with inner }, false)
    else (b, false)
  ({ p with completed := true }.drop b now, tripped)

/-- The breaker, the clock and the leases that are outstanding, named in the order they
were issued. `generations` counts how often the generation changed. -/
structure World where
  breaker : CircuitBreaker
  now : ℕ
  leases : Table ℕ BreakerPermit
  issued : ℕ
  generations : ℕ

inductive Label where
  | acquire
  | reportSuccess (lease : ℕ)
  | reportFailure (lease : ℕ) (error : String)
  | dropLease (lease : ℕ)
  | recordSuccess
  | recordFailure (error : String)
  | reset
  | advance (time : ℕ)

/-- The breaker after an operation, noting a change of generation. -/
def World.update (w : World) (breaker : CircuitBreaker) : World :=
  { w with
    breaker
    generations :=
      if breaker.inner.generation = w.breaker.inner.generation then w.generations
      else w.generations + 1 }

def World.settle (w : World) (lease : ℕ) (outcome : BreakerPermit → CircuitBreaker) : World :=
  match w.leases.lookup lease with
  | none => w
  | some p => { w.update (outcome p) with leases := w.leases.erase lease }

def World.step (w : World) : Label → World
  | .acquire =>
    match w.breaker.acquire w.now with
    | .error _ => w
    | .ok (breaker, p) =>
      { w.update breaker with
        leases := w.leases.insert w.issued p
        issued := w.issued + 1 }
  | .reportSuccess lease => w.settle lease fun p => p.recordSuccess w.breaker w.now
  | .reportFailure lease error =>
    w.settle lease fun p => (p.recordFailure w.breaker error w.now).1
  | .dropLease lease => w.settle lease fun p => p.drop w.breaker w.now
  | .recordSuccess => w.update w.breaker.recordSuccess
  | .recordFailure error => w.update (w.breaker.recordFailure error w.now).1
  | .reset => w.update w.breaker.reset
  | .advance time => { w with now := w.now + time }

def World.new (failureThreshold : UInt32) (cooldown : ℕ) : World where
  breaker := .new failureThreshold cooldown
  now := 0
  leases := ∅
  issued := 0
  generations := 0

/-- The world after `labels`, starting from `CircuitBreaker::new`. -/
def World.after (failureThreshold : UInt32) (cooldown : ℕ) (labels : List Label) : World :=
  Machine.run World.step (World.new failureThreshold cooldown) labels

end NetGet.Breaker
