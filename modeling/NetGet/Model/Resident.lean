import Mathlib
import NetGet.Library.Machine
import NetGet.Library.Table
import NetGet.Model.Bytes

/-! # Resident scripts

An interpreter that stays alive and answers each event, a line on its standard input, with a line.
Only their position in the stream tells which answer belongs to which event. A step is what a task
does between two points at which it can be suspended. -/

namespace NetGet.Resident

open Library

/-! ## Reading a line -/

def newline : UInt8 := 10

def maxStdoutBytes : ℕ := 8 * 1024 * 1024

inductive ReadError where
  | unexpectedEof
  | exceedsCap
  | invalidUtf8
  deriving DecidableEq

inductive Reading where
  | line (text : Bytes)
  | error (e : ReadError)
  /-- Nothing more has been delivered yet. -/
  | pending
  deriving DecidableEq

/-- Read up to the first newline from what `fill_buf` returns, call by call; it returns nothing
at the end of the stream. -/
def readLineBounded (fromUtf8 : Bytes → Bool) (limit : ℕ) (line : Bytes) : List Bytes → Reading
  | [] => .pending
  | available :: chunks =>
    if available = [] then .error .unexpectedEof
    else
      let position := available.findIdx? (· == newline)
      let take := (position.map (· + 1)).getD available.length
      if limit - line.length < take then .error .exceedsCap
      else
        let line := line ++ available.take take
        if position.isSome then
          if fromUtf8 line then .line line else .error .invalidUtf8
        else readLineBounded fromUtf8 limit line chunks

/-! ## Scopes -/

inductive ScriptLanguage where
  | python
  | javaScript
  | go
  | perl
  deriving DecidableEq

def residentLanguageSupported : ScriptLanguage → Bool
  | .python | .javaScript | .perl => true
  | .go => false

inductive ResidentScope where
  | server
  | connection
  deriving DecidableEq

structure ScriptInput (ε : Type*) where
  server : Option ℕ
  client : Option ℕ
  connection : Option String
  event : ε
  deriving DecidableEq

structure ScopeKey where
  ownerId : ℕ
  ownerIsClient : Bool
  connectionId : Option String
  language : ScriptLanguage
  codeHash : ℕ
  privatePayloads : Bool
  deriving DecidableEq

/-- What the manager takes from libraries: the hash of a script, the test `String::from_utf8`
and the parser of a line of actions. -/
structure Host (α : Type*) where
  hash : ScriptLanguage → String → ℕ
  fromUtf8 : Bytes → Bool
  parse : Bytes → Option α

variable {ε α : Type*}

def ScopeKey.new (host : Host α) (scope : ResidentScope) (input : ScriptInput ε)
    (language : ScriptLanguage) (code : String) : ScopeKey :=
  let owner :=
    match input.server, input.client with
    | some server, _ => (server, false)
    | none, some client => (client, true)
    | none, none => (0, false)
  { ownerId := owner.1
    ownerIsClient := owner.2
    connectionId :=
      match scope with
      | .connection => input.connection
      | .server => none
    language
    codeHash := host.hash language code
    privatePayloads := false }

/-! ## Processes -/

/-- A line of output, without the newline that ends it. -/
structure Line where
  text : Bytes
  whole : newline ∉ text

def Line.bytes (line : Line) : Bytes := line.text ++ [newline]

/-- A line of input. The number of the dispatch that wrote it is not in the source and read by
nothing. -/
structure Request (ε : Type*) where
  dispatch : ℕ
  input : ScriptInput ε

/-- A line of output. What it answers, unless user code printed it, is not in the source and
read by nothing. -/
structure Written (ε : Type*) where
  line : Line
  answers : Option (Request ε)

structure Process (ε : Type*) where
  running : Bool
  requests : List (Request ε)
  unread : List (Written ε)

namespace Process

def spawned : Process ε := { running := true, requests := [], unread := [] }

def kill (p : Process ε) : Process ε := { p with running := false }

def stdout (p : Process ε) : Bytes := p.unread.flatMap fun w => w.line.bytes

/-- `fill_buf` can return those chunks: parts of the output in order, and nothing only when the
process has ended and all has been read. -/
def Delivers (p : Process ε) (chunks : List Bytes) : Prop :=
  [] ∉ chunks.dropLast ∧ chunks.flatten <+: p.stdout ∧
    (chunks.getLast? = some [] → p.running = false ∧ chunks.flatten = p.stdout)

instance (p : Process ε) (chunks : List Bytes) : Decidable (p.Delivers chunks) := by
  unfold Delivers
  infer_instance

end Process

inductive Holder where
  | dispatch (k : ℕ)
  | shutdown (j : ℕ)
  deriving DecidableEq

structure ResidentScript (ε : Type*) where
  process : Process ε
  /-- The slot holds the pipes. -/
  io : Bool
  /-- Who has locked the slot. -/
  lock : Option Holder

namespace ResidentScript

def spawn : ResidentScript ε := { process := .spawned, io := true, lock := none }

/-- An occupied lock means that the process is in use. -/
def isDead (script : ResidentScript ε) : Bool := script.lock.isNone && !script.io

end ResidentScript

/-! ## Dispatches and shutdowns -/

inductive Failure where
  | unsupportedLanguage
  /-- The deadline passed before there was a process. -/
  | timedOut
  | spawn
  | turnTimeout
  | notAlive
  | write
  | read (e : ReadError)
  | timeout
  | response
  deriving DecidableEq

inductive Stage (α : Type*) where
  /-- Look the process up in the registry or spawn it. -/
  | acquire
  /-- Wait for the lock of the slot. -/
  | waiting (script : ℕ)
  /-- Hold the lock and the pipes, and write the event. -/
  | writing (script : ℕ)
  | reading (script : ℕ)
  /-- Hold the lock and wait for the killed process to end. -/
  | reaping (script : ℕ) (why : Failure)
  /-- The exchange failed: look whether the process is dead. -/
  | failed (script : ℕ) (why : Failure)
  /-- It is: remove it from the registry. -/
  | evicting (script : ℕ) (why : Failure)
  | returned (result : Except Failure α)
  | cancelled

structure Dispatch (ε α : Type*) where
  key : ScopeKey
  input : ScriptInput ε
  stage : Stage α

structure Shutdown where
  waiting : List ℕ
  killing : Option ℕ

structure ResidentEntry where
  script : ℕ
  lastUsed : ℕ

/-- In nanoseconds. -/
def idleTtl : ℕ := 300 * 1000000000

def evictIdle (now : ℕ) (registry : Table ScopeKey ResidentEntry) : Table ScopeKey ResidentEntry :=
  registry.retain fun _ entry => now - entry.lastUsed ≤ idleTtl

inductive Closing where
  | owner (ownerId : ℕ) (ownerIsClient : Bool)
  | connection (serverId : ℕ) (connectionId : String)
  | all

def Closing.covers (key : ScopeKey) : Closing → Bool
  | .owner ownerId ownerIsClient => key.ownerId == ownerId && key.ownerIsClient == ownerIsClient
  | .connection serverId connectionId =>
    key.ownerId == serverId && !key.ownerIsClient && key.connectionId == some connectionId
  | .all => true

/-! ## The manager -/

/-- The registry, the processes ever spawned, and the calls, each in the order they came. -/
structure Manager (ε α : Type*) where
  registry : Table ScopeKey ResidentEntry
  scripts : List (ResidentScript ε)
  dispatches : List (Dispatch ε α)
  shutdowns : List Shutdown
  /-- Not in the source and read by nothing: what the processes have answered. -/
  replies : List (Request ε × Line)

namespace Manager

def start : Manager ε α :=
  { registry := ∅, scripts := [], dispatches := [], shutdowns := [], replies := [] }

def goOn (s : Manager ε α) (k : ℕ) (d : Dispatch ε α) (stage : Stage α) : Manager ε α :=
  { s with dispatches := s.dispatches.set k { d with stage } }

def setScript (s : Manager ε α) (i : ℕ) (script : ResidentScript ε) : Manager ε α :=
  { s with scripts := s.scripts.set i script }

/-- The section under the registry's lock that looks the process up or spawns it. -/
def acquire (s : Manager ε α) (now : ℕ) (spawns : Bool) (k : ℕ) (d : Dispatch ε α) :
    Manager ε α :=
  match d.stage with
  | .acquire =>
    let registry := evictIdle now s.registry
    let dead := (registry.lookup d.key).any fun entry =>
      (s.scripts[entry.script]?).any (·.isDead)
    let registry := if dead then registry.erase d.key else registry
    match registry.lookup d.key with
    | some entry =>
      { s with registry := registry.insert d.key { entry with lastUsed := now } }.goOn k d
        (.waiting entry.script)
    | none =>
      if spawns then
        { s with
          registry := registry.insert d.key { script := s.scripts.length, lastUsed := now }
          scripts := s.scripts ++ [ResidentScript.spawn] }.goOn k d
          (.waiting s.scripts.length)
      else { s with registry }.goOn k d (.returned (.error .spawn))
  | _ => s

/-- Remove the process from the registry unless another stands there by now. -/
def evict (s : Manager ε α) (key : ScopeKey) (i : ℕ) : Table ScopeKey ResidentEntry :=
  if (s.registry.lookup key).any (·.script == i) then s.registry.erase key else s.registry

def advance (s : Manager ε α) (k : ℕ) (d : Dispatch ε α) : Manager ε α :=
  match d.stage with
  | .waiting i =>
    match s.scripts[i]? with
    | none => s
    | some script =>
      if script.lock.isSome then s
      else if script.io then
        (s.setScript i { script with io := false, lock := some (.dispatch k) }).goOn k d
          (.writing i)
      else s.goOn k d (.failed i .notAlive)
  | .writing i =>
    match s.scripts[i]? with
    | none => s
    | some script =>
      let request := { dispatch := k, input := d.input }
      let process := { script.process with requests := script.process.requests ++ [request] }
      (s.setScript i { script with process }).goOn k d (.reading i)
  | .reaping i why =>
    match s.scripts[i]? with
    | none => s
    | some script => (s.setScript i { script with lock := none }).goOn k d (.failed i why)
  | .failed i why =>
    if (s.scripts[i]?).any (·.isDead) then s.goOn k d (.evicting i why)
    else s.goOn k d (.returned (.error why))
  | .evicting i why =>
    { s with registry := s.evict d.key i }.goOn k d (.returned (.error why))
  | .acquire | .reading _ | .returned _ | .cancelled => s

def breakOff (s : Manager ε α) (k : ℕ) (d : Dispatch ε α) (i : ℕ) (why : Failure) : Manager ε α :=
  match s.scripts[i]? with
  | none => s
  | some script =>
    (s.setScript i { script with process := script.process.kill }).goOn k d (.reaping i why)

/-- One line of output is all that an exchange reads. A line that is not a response leaves the
process alive for the next event. -/
def read (host : Host α) (s : Manager ε α) (chunks : List Bytes) (k : ℕ) (d : Dispatch ε α) :
    Manager ε α :=
  match d.stage with
  | .reading i =>
    match s.scripts[i]? with
    | none => s
    | some script =>
      if script.process.Delivers chunks then
        match readLineBounded host.fromUtf8 maxStdoutBytes [] chunks with
        | .pending => s
        | .error e => s.breakOff k d i (.read e)
        | .line text =>
          let process :=
            { script.process with unread := script.process.unread.tail }
          (s.setScript i { process, io := true, lock := none }).goOn k d
            (match host.parse text with
            | some actions => .returned (.ok actions)
            | none => .failed i .response)
      else s
  | _ => s

def expire (s : Manager ε α) (k : ℕ) (d : Dispatch ε α) : Manager ε α :=
  match d.stage with
  | .acquire => s.goOn k d (.returned (.error .timedOut))
  | .waiting i => s.goOn k d (.failed i .turnTimeout)
  | .writing i | .reading i => s.breakOff k d i .timeout
  | _ => s

def writeFails (s : Manager ε α) (k : ℕ) (d : Dispatch ε α) : Manager ε α :=
  match d.stage with
  | .writing i => s.breakOff k d i .write
  | _ => s

/-- The caller drops the dispatch. What it owns goes with it: the process is killed and the lock
is released. -/
def cancel (s : Manager ε α) (k : ℕ) (d : Dispatch ε α) : Manager ε α :=
  match d.stage with
  | .writing i | .reading i | .reaping i _ =>
    match s.scripts[i]? with
    | none => s
    | some script =>
      (s.setScript i { script with process := script.process.kill, lock := none }).goOn k d
        .cancelled
  | .returned _ | .cancelled => s
  | .acquire | .waiting _ | .failed _ _ | .evicting _ _ => s.goOn k d .cancelled

def shutdown (s : Manager ε α) (closing : Closing) : Manager ε α :=
  { s with
    registry := s.registry.retain fun key _ => !closing.covers key
    shutdowns := s.shutdowns ++
      [{ waiting := (s.registry.retain fun key _ => closing.covers key).values.map (·.script)
         killing := none }] }

def kill (s : Manager ε α) (j : ℕ) (t : Shutdown) : Manager ε α :=
  match t.killing, t.waiting with
  | some i, _ =>
    match s.scripts[i]? with
    | none => s
    | some script =>
      { s.setScript i { script with lock := none } with
        shutdowns := s.shutdowns.set j { t with killing := none } }
  | none, [] => s
  | none, i :: rest =>
    match s.scripts[i]? with
    | none => s
    | some script =>
      if script.lock.isSome then s
      else if script.io then
        { s.setScript i
            { process := script.process.kill, io := false, lock := some (.shutdown j) } with
          shutdowns := s.shutdowns.set j { waiting := rest, killing := some i } }
      else { s with shutdowns := s.shutdowns.set j { t with waiting := rest } }

def lives (s : Manager ε α) (i : ℕ) (f : Process ε → Process ε) : Manager ε α :=
  match s.scripts[i]? with
  | none => s
  | some script =>
    if script.process.running then s.setScript i { script with process := f script.process }
    else s

def reply (s : Manager ε α) (i : ℕ) (line : Line) : Manager ε α :=
  match s.scripts[i]? with
  | none => s
  | some script =>
    match script.process.requests with
    | [] => s
    | request :: rest =>
      if script.process.running then
        let process :=
          { script.process with
            requests := rest
            unread := script.process.unread ++ [{ line, answers := some request }] }
        { s.setScript i { script with process } with
          replies := s.replies ++ [(request, line)] }
      else s

def act (s : Manager ε α) (k : ℕ) (f : ℕ → Dispatch ε α → Manager ε α) : Manager ε α :=
  match s.dispatches[k]? with
  | none => s
  | some d => f k d

end Manager

/-! ## Runs -/

inductive Label (ε : Type*) where
  | dispatch (scope : ResidentScope) (input : ScriptInput ε) (language : ScriptLanguage)
      (code : String) (privatePayloads : Bool)
  | acquire (k now : ℕ) (spawns : Bool)
  | advance (k : ℕ)
  | read (k : ℕ) (chunks : List Bytes)
  | expire (k : ℕ)
  | writeFails (k : ℕ)
  | cancel (k : ℕ)
  | shutdown (closing : Closing)
  | kill (j : ℕ)
  /-- User code prints a line. -/
  | print (i : ℕ) (line : Line)
  | reply (i : ℕ) (line : Line)
  | die (i : ℕ)

variable (host : Host α)

def Manager.step (s : Manager ε α) : Label ε → Manager ε α
  | .dispatch scope input language code privatePayloads =>
    let key := { ScopeKey.new host scope input language code with privatePayloads }
    let stage :=
      if residentLanguageSupported language then .acquire
      else .returned (.error .unsupportedLanguage)
    { s with dispatches := s.dispatches ++ [{ key, input, stage }] }
  | .acquire k now spawns => s.act k (s.acquire now spawns)
  | .advance k => s.act k s.advance
  | .read k chunks => s.act k (s.read host chunks)
  | .expire k => s.act k s.expire
  | .writeFails k => s.act k s.writeFails
  | .cancel k => s.act k s.cancel
  | .shutdown closing => s.shutdown closing
  | .kill j =>
    match s.shutdowns[j]? with
    | none => s
    | some t => s.kill j t
  | .print i line =>
    s.lives i fun p => { p with unread := p.unread ++ [{ line, answers := none }] }
  | .reply i line => s.reply i line
  | .die i => s.lives i Process.kill

end NetGet.Resident
