import NetGet.Library.Decimal
import NetGet.Model.Pipe
import NetGet.Model.Server
import NetGet.Model.Task

/-! # The application state

`AppStateInner` and the lock sections of `AppState` that touch the registries of servers,
clients, connections, pipes and scheduled tasks. A call whose id counter overflows panics
before it changes anything; it returns `none` here. `finished` says which futures have. -/

namespace NetGet

open Library

inductive Mode where
  | server
  | client
  | idle
  deriving DecidableEq

abbrev ServerHandle := ℕ
abbrev ClientHandle := ℕ

structure AppStateInner where
  mode : Mode
  servers : Table ServerId ServerInstance
  clients : Table ClientId ClientInstance
  nextUnifiedId : ℕ
  tasks : Table TaskId ScheduledTask
  scheduledExecutions : Table TaskId JoinHandle
  peerTasks : Table (ServerId × ConnectionId) (List JoinHandle)
  nextTaskId : ℕ
  taskNames : Table String TaskId
  pipes : Table PipeId PipeSpec
  clientLlmCallLimit : ℕ
  clientLlmCalls : Table ClientId ℕ
  clientTasks : Table ClientId (List JoinHandle)
  serverTasks : Table ServerId (List JoinHandle)
  serverHandles : Table ServerId ServerHandle
  clientHandles : Table ClientId ClientHandle
  peerHandles : Table (ServerId × ConnectionId) ClientHandle

namespace AppStateInner

def new (clientLlmCallLimit : ℕ) : AppStateInner :=
  { mode := .idle
    servers := ∅
    clients := ∅
    nextUnifiedId := 1
    tasks := ∅
    scheduledExecutions := ∅
    peerTasks := ∅
    nextTaskId := 1
    taskNames := ∅
    pipes := ∅
    clientLlmCallLimit
    clientLlmCalls := ∅
    clientTasks := ∅
    serverTasks := ∅
    serverHandles := ∅
    clientHandles := ∅
    peerHandles := ∅ }

def settleMode (s : AppStateInner) : AppStateInner :=
  if s.servers.keys.isEmpty && s.clients.keys.isEmpty then { s with mode := .idle } else s

def getNextUnifiedId (s : AppStateInner) : Option (ℕ × AppStateInner) :=
  (checkedAdd 32 s.nextUnifiedId 1).map fun nextUnifiedId =>
    (s.nextUnifiedId, { s with nextUnifiedId })

/-! ## Scheduled tasks -/

def addTask (s : AppStateInner) (task : ScheduledTask) : Option (TaskId × AppStateInner) :=
  (checkedAdd 64 s.nextTaskId 1).map fun nextTaskId =>
    let id := s.nextTaskId
    (id,
      { s with
        nextTaskId
        taskNames := s.taskNames.insert task.name id
        tasks := s.tasks.insert id { task with id } })

/-- A task by its number or, when that is no number, by its name. -/
def getTask (s : AppStateInner) (idOrName : String) : Option ScheduledTask :=
  match parseUnsigned 64 (utf8 idOrName) with
  | some id => s.tasks.lookup id
  | none => (s.taskNames.lookup idOrName).bind s.tasks.lookup

/-- Forget the task and its execution, which is aborted. The name is kept when it has been
given to a later task. -/
def removeScheduledTask (s : AppStateInner) (id : TaskId) :
    Option ScheduledTask × AppStateInner :=
  let s := { s with scheduledExecutions := s.scheduledExecutions.erase id }
  match s.tasks.lookup id with
  | none => (none, s)
  | some task =>
    let s := { s with tasks := s.tasks.erase id }
    (some task,
      if s.taskNames.lookup task.name = some id then
        { s with taskNames := s.taskNames.erase task.name }
      else s)

def removeTask (s : AppStateInner) (id : TaskId) : Option ScheduledTask × AppStateInner :=
  s.removeScheduledTask id

def taskIds (s : AppStateInner) (p : TaskScope → Bool) : List TaskId :=
  (s.tasks.retain fun _ task => p task.scope).keys

def dropTasks (s : AppStateInner) (p : TaskScope → Bool) : AppStateInner :=
  (s.taskIds p).foldl (fun s id => (s.removeScheduledTask id).2) s

/-- The scopes that end with a server: a connection cannot outlive its server. -/
def ofServer (serverId : ServerId) : TaskScope → Bool
  | .server sid => sid = serverId
  | .connection sid _ => sid = serverId
  | _ => false

def ofConnection (serverId : ServerId) (connectionId : ConnectionId) : TaskScope → Bool
  | .connection sid cid => sid = serverId ∧ cid = connectionId
  | _ => false

def ofClient (clientId : ClientId) : TaskScope → Bool
  | .client cid => cid = clientId
  | _ => false

def dropTasksForServer (s : AppStateInner) (serverId : ServerId) : AppStateInner :=
  s.dropTasks (ofServer serverId)

def cleanupServerTasks (s : AppStateInner) (serverId : ServerId) : AppStateInner :=
  s.dropTasksForServer serverId

def cleanupConnectionTasks (s : AppStateInner) (serverId : ServerId)
    (connectionId : ConnectionId) : AppStateInner :=
  s.dropTasks (ofConnection serverId connectionId)

def cleanupClientTasks (s : AppStateInner) (clientId : ClientId) : AppStateInner :=
  s.dropTasks (ofClient clientId)

def isDue (clock : Clock) (active : List TaskId) (task : ScheduledTask) : Bool :=
  decide (task.status = .scheduled) && decide (task.nextExecution ≤ clock.instant) &&
    decide (task.id ∉ active)

def activeTasks (finished : JoinHandle → Bool) (s : AppStateInner) : List TaskId :=
  (s.scheduledExecutions.retain fun _ handle => !finished handle).keys

def claimDueTasks (clock : Clock) (finished : JoinHandle → Bool) (s : AppStateInner) :
    List ScheduledTask × AppStateInner :=
  let active := s.activeTasks finished
  let claim (task : ScheduledTask) : ScheduledTask := { task with status := .executing }
  ((s.tasks.values.filter (isDue clock active)).map claim,
    { s with
      scheduledExecutions := s.scheduledExecutions.retain fun _ handle => !finished handle
      tasks := s.tasks.mapValues fun _ task =>
        if isDue clock active task then claim task else task })

/-- Start a claimed task: `handle` is the future spawned for it. A task that was removed or
whose last execution still runs is skipped. -/
def spawnScheduledTask (finished : JoinHandle → Bool) (s : AppStateInner) (id : TaskId)
    (handle : JoinHandle) : Bool × AppStateInner :=
  if (s.tasks.lookup id).any fun task => decide (task.status = .executing) then
    if (s.scheduledExecutions.lookup id).any fun handle => !finished handle then (false, s)
    else (true, { s with scheduledExecutions := s.scheduledExecutions.insert id handle })
  else (false, s)

def updateTaskStatus (s : AppStateInner) (id : TaskId) (status : TaskStatus) : AppStateInner :=
  { s with tasks := s.tasks.modify id fun task => { task with status } }

def updateTaskNextExecution (s : AppStateInner) (id : TaskId) (next : Instant) :
    AppStateInner :=
  { s with tasks := s.tasks.modify id fun task => { task with nextExecution := next } }

def countExecution : TaskType → TaskType
  | .recurring intervalSecs maxExecutions executionsCount =>
    .recurring intervalSecs maxExecutions (saturatingAdd 64 executionsCount 1)
  | taskType => taskType

def recordResult (result : TaskExecutionResult) (task : ScheduledTask) : ScheduledTask :=
  let task :=
    if result.success then { task with failureCount := 0, lastError := none }
    else
      { task with
        failureCount := saturatingAdd 64 task.failureCount 1
        lastError := result.error }
  { task with taskType := countExecution task.taskType }

def recordTaskExecution (s : AppStateInner) (id : TaskId) (result : TaskExecutionResult) :
    AppStateInner :=
  { s with tasks := s.tasks.modify id (recordResult result) }

/-! ## Servers, peers and pipes -/

/-- The tasks of an owner with one more, without those that have finished. -/
def pushTask (finished : JoinHandle → Bool) (tasks : Option (List JoinHandle))
    (handle : JoinHandle) : List JoinHandle :=
  ((tasks.getD []).filter fun handle => !finished handle) ++ [handle]

def addServer (s : AppStateInner) (server : ServerInstance) :
    Option (ServerId × AppStateInner) :=
  s.getNextUnifiedId.map fun (id, s) =>
    (id,
      { s with
        servers := s.servers.insert id { server with id }
        mode := if s.mode = .idle then .server else s.mode })

def updateServerStatus (clock : Clock) (s : AppStateInner) (id : ServerId)
    (status : ServerStatus) : AppStateInner :=
  { s with
    servers := s.servers.modify id fun server =>
      { server with status, statusChangedAt := clock.instant } }

def removePeer (s : AppStateInner) (serverId : ServerId) (connectionId : ConnectionId) :
    AppStateInner :=
  { s with
    peerHandles := s.peerHandles.erase (serverId, connectionId)
    peerTasks := s.peerTasks.erase (serverId, connectionId) }

def removePeerHandle (s : AppStateInner) (serverId : ServerId) (connectionId : ConnectionId) :
    AppStateInner :=
  s.removePeer serverId connectionId

def teardownServer (s : AppStateInner) (serverId : ServerId) : AppStateInner :=
  let s :=
    { s with
      serverTasks := s.serverTasks.erase serverId
      serverHandles := s.serverHandles.erase serverId
      peerHandles := s.peerHandles.retain fun peer _ => peer.1 ≠ serverId
      peerTasks := s.peerTasks.retain fun peer _ => peer.1 ≠ serverId }
  let s := s.dropTasksForServer serverId
  let doomed := (s.pipes.retain fun _ p => p.source = serverId ∨ p.target = serverId).keys
  { s with pipes := s.pipes.eraseAll doomed }

def forgetServer (s : AppStateInner) (id : ServerId) : AppStateInner :=
  ({ s with servers := s.servers.erase id } : AppStateInner).teardownServer id

def removeServer (s : AppStateInner) (id : ServerId) : Option ServerInstance × AppStateInner :=
  (s.servers.lookup id, (s.forgetServer id).settleMode)

def oldServers (clock : Clock) (maxAgeSecs : ℕ) (s : AppStateInner) : List ServerId :=
  (s.servers.retain fun _ server =>
    decide (server.status = .stopped) &&
      decide (clock.secsSince server.statusChangedAt ≥ maxAgeSecs)).keys

def cleanupOldServers (clock : Clock) (maxAgeSecs : ℕ) (s : AppStateInner) : AppStateInner :=
  ((s.oldServers clock maxAgeSecs).foldl forgetServer s).settleMode

/-- Declare a pipe, unless an endpoint is missing or the edge would close a cycle. -/
def addPipe (s : AppStateInner) (source target : ServerId) :
    Option (Except String PipeId × AppStateInner) :=
  if source ∉ s.servers then
    some (.error ("pipe source server #" ++ toString source ++ " does not exist"), s)
  else if target ∉ s.servers then
    some (.error ("pipe target server #" ++ toString target ++ " does not exist"), s)
  else if wouldCreateCycle s.pipes.values source target then
    some (.error ("pipe #" ++ toString source ++ " -> #" ++ toString target ++
      " refused: it would create a delivery cycle"), s)
  else
    s.getNextUnifiedId.map fun (id, s) =>
      (.ok id, { s with pipes := s.pipes.insert id { id, source, target } })

def removePipe (s : AppStateInner) (id : PipeId) : Option PipeSpec × AppStateInner :=
  (s.pipes.lookup id, { s with pipes := s.pipes.erase id })

def registerServerTask (finished : JoinHandle → Bool) (s : AppStateInner) (id : ServerId)
    (handle : JoinHandle) : AppStateInner :=
  if id ∉ s.servers then s
  else
    { s with
      serverTasks := s.serverTasks.insert id (pushTask finished (s.serverTasks.lookup id) handle) }

def registerServerHandle (s : AppStateInner) (id : ServerId) (handle : ServerHandle) :
    AppStateInner :=
  if id ∉ s.servers then s else { s with serverHandles := s.serverHandles.insert id handle }

def registerPeerHandle (s : AppStateInner) (serverId : ServerId) (connectionId : ConnectionId)
    (handle : ClientHandle) : AppStateInner :=
  if serverId ∉ s.servers then s
  else { s with peerHandles := s.peerHandles.insert (serverId, connectionId) handle }

def registerPeerTask (finished : JoinHandle → Bool) (s : AppStateInner) (serverId : ServerId)
    (connectionId : ConnectionId) (handle : JoinHandle) : AppStateInner :=
  if serverId ∉ s.servers ∨ (serverId, connectionId) ∉ s.peerHandles then s
  else
    let peer := (serverId, connectionId)
    { s with
      peerTasks := s.peerTasks.insert peer (pushTask finished (s.peerTasks.lookup peer) handle) }

/-! ## Connections -/

def addConnectionToServer (s : AppStateInner) (serverId : ServerId)
    (connection : ConnectionState) : AppStateInner :=
  { s with servers := s.servers.modify serverId fun server => server.addConnection connection }

def closeConnectionOnServer (clock : Clock) (s : AppStateInner) (serverId : ServerId)
    (connectionId : ConnectionId) : AppStateInner :=
  let s :=
    { s with
      servers := s.servers.modify serverId fun server =>
        server.closeConnection clock connectionId }
  (s.removePeerHandle serverId connectionId).cleanupConnectionTasks serverId connectionId

def removeConnectionFromServer (s : AppStateInner) (serverId : ServerId)
    (connectionId : ConnectionId) : AppStateInner :=
  let s :=
    { s with
      servers := s.servers.modify serverId fun server => server.removeConnection connectionId }
  (s.removePeerHandle serverId connectionId).cleanupConnectionTasks serverId connectionId

/-- Reap idle entries of connectionless servers. `connectionless` is what the protocol
registry says of a protocol name. -/
def cleanupOldConnections (connectionless : String → Bool) (clock : Clock) (maxAgeSecs : ℕ)
    (s : AppStateInner) : AppStateInner :=
  { s with
    servers := s.servers.mapValues fun _ server =>
      if connectionless server.protocolName then server.cleanupOldConnections clock maxAgeSecs
      else server }

def cleanupClosedConnections (clock : Clock) (maxAgeSecs : ℕ) (s : AppStateInner) :
    AppStateInner :=
  { s with
    servers := s.servers.mapValues fun _ server =>
      server.removeConnections (server.closedConnections clock maxAgeSecs) }

/-! ## Clients -/

def addClient (s : AppStateInner) (client : ClientInstance) :
    Option (ClientId × AppStateInner) :=
  s.getNextUnifiedId.map fun (id, s) =>
    (id,
      { s with
        clients := s.clients.insert id { client with id }
        mode := if s.mode = .idle then .client else s.mode })

def updateClientStatus (clock : Clock) (s : AppStateInner) (id : ClientId)
    (status : ClientStatus) : AppStateInner :=
  { s with clients := s.clients.modify id (ClientInstance.updateStatus clock status) }

/-- Hang up but keep the client: its connection tasks and its command handle go. -/
def disconnectClient (clock : Clock) (s : AppStateInner) (id : ClientId) :
    Bool × AppStateInner :=
  if id ∉ s.clients then (false, s)
  else
    let s :=
      { s with
        clientTasks := s.clientTasks.erase id
        clientHandles := s.clientHandles.erase id }
    (true, s.updateClientStatus clock id .disconnected)

def removeClient (s : AppStateInner) (id : ClientId) : Option ClientInstance × AppStateInner :=
  let client := s.clients.lookup id
  let s :=
    { s with
      clients := s.clients.erase id
      clientLlmCalls := s.clientLlmCalls.erase id
      clientHandles := s.clientHandles.erase id
      clientTasks := s.clientTasks.erase id }
  (client, (s.dropTasks (ofClient id)).settleMode)

def registerClientTask (finished : JoinHandle → Bool) (s : AppStateInner) (id : ClientId)
    (handle : JoinHandle) : AppStateInner :=
  if id ∉ s.clients then s
  else
    { s with
      clientTasks := s.clientTasks.insert id (pushTask finished (s.clientTasks.lookup id) handle) }

def registerClientHandle (s : AppStateInner) (id : ClientId) (handle : ClientHandle) :
    AppStateInner :=
  if id ∉ s.clients then s else { s with clientHandles := s.clientHandles.insert id handle }

def tryConsumeClientLlmCall (s : AppStateInner) (id : ClientId) :
    Option (Except String ℕ × AppStateInner) :=
  let limit := s.clientLlmCallLimit
  if id ∉ s.clients then some (.ok 0, s)
  else
    let used := (s.clientLlmCalls.lookup id).getD 0
    let s := { s with clientLlmCalls := s.clientLlmCalls.insert id used }
    if limit > 0 ∧ used ≥ limit then
      some (.error ("client client-" ++ toString id ++ " exceeded its LLM call budget (" ++
        toString limit ++ " calls). The client's event loop is not converging — it keeps " ++
        "invoking the model instead of terminating. Refusing further LLM calls; stop the " ++
        "client or raise NETGET_CLIENT_LLM_CALL_LIMIT (0 = unlimited)."), s)
    else
      (checkedAdd 32 used 1).map fun used =>
        (.ok used, { s with clientLlmCalls := s.clientLlmCalls.insert id used })

def oldClients (clock : Clock) (maxAgeSecs : ℕ) (s : AppStateInner) : List ClientId :=
  (s.clients.retain fun _ client =>
    decide (client.status = .disconnected) &&
      decide (clock.secsSince client.statusChangedAt ≥ maxAgeSecs)).keys

def cleanupOldClients (clock : Clock) (maxAgeSecs : ℕ) (s : AppStateInner) : AppStateInner :=
  ({ s with clients := s.clients.eraseAll (s.oldClients clock maxAgeSecs) } :
    AppStateInner).settleMode

end AppStateInner

/-! ## Calls as labels -/

/-- A call of `AppState`. The `finished` futures and the `connectionless` protocols are what
the runtime and the registry say at that moment. -/
inductive Op where
  | getNextUnifiedId
  | addTask (task : ScheduledTask)
  | removeTask (id : TaskId)
  | cleanupServerTasks (serverId : ServerId)
  | cleanupConnectionTasks (serverId : ServerId) (connectionId : ConnectionId)
  | cleanupClientTasks (clientId : ClientId)
  | addServer (server : ServerInstance)
  | updateServerStatus (id : ServerId) (status : ServerStatus)
  | removeServer (id : ServerId)
  | cleanupOldServers (maxAgeSecs : ℕ)
  | addPipe (source target : ServerId)
  | removePipe (id : PipeId)
  | registerServerTask (finished : List JoinHandle) (id : ServerId) (handle : JoinHandle)
  | registerServerHandle (id : ServerId) (handle : ServerHandle)
  | registerPeerHandle (serverId : ServerId) (connectionId : ConnectionId)
      (handle : ClientHandle)
  | registerPeerTask (finished : List JoinHandle) (serverId : ServerId)
      (connectionId : ConnectionId) (handle : JoinHandle)
  | removePeerHandle (serverId : ServerId) (connectionId : ConnectionId)
  | addConnectionToServer (serverId : ServerId) (connection : ConnectionState)
  | closeConnectionOnServer (serverId : ServerId) (connectionId : ConnectionId)
  | removeConnectionFromServer (serverId : ServerId) (connectionId : ConnectionId)
  | cleanupOldConnections (connectionless : List String) (maxAgeSecs : ℕ)
  | cleanupClosedConnections (maxAgeSecs : ℕ)
  | addClient (client : ClientInstance)
  | updateClientStatus (id : ClientId) (status : ClientStatus)
  | disconnectClient (id : ClientId)
  | removeClient (id : ClientId)
  | registerClientTask (finished : List JoinHandle) (id : ClientId) (handle : JoinHandle)
  | registerClientHandle (id : ClientId) (handle : ClientHandle)
  | tryConsumeClientLlmCall (id : ClientId)
  | cleanupOldClients (maxAgeSecs : ℕ)

/-- The state after a call made at this time. A call that panics leaves it unchanged. -/
def Op.apply (clock : Clock) (s : AppStateInner) : Op → AppStateInner
  | .getNextUnifiedId => s.getNextUnifiedId.elim s Prod.snd
  | .addTask task => (s.addTask task).elim s Prod.snd
  | .removeTask id => (s.removeTask id).2
  | .cleanupServerTasks serverId => s.cleanupServerTasks serverId
  | .cleanupConnectionTasks serverId connectionId => s.cleanupConnectionTasks serverId connectionId
  | .cleanupClientTasks clientId => s.cleanupClientTasks clientId
  | .addServer server => (s.addServer server).elim s Prod.snd
  | .updateServerStatus id status => s.updateServerStatus clock id status
  | .removeServer id => (s.removeServer id).2
  | .cleanupOldServers maxAgeSecs => s.cleanupOldServers clock maxAgeSecs
  | .addPipe source target => (s.addPipe source target).elim s Prod.snd
  | .removePipe id => (s.removePipe id).2
  | .registerServerTask finished id handle =>
    s.registerServerTask (fun handle => handle ∈ finished) id handle
  | .registerServerHandle id handle => s.registerServerHandle id handle
  | .registerPeerHandle serverId connectionId handle =>
    s.registerPeerHandle serverId connectionId handle
  | .registerPeerTask finished serverId connectionId handle =>
    s.registerPeerTask (fun handle => handle ∈ finished) serverId connectionId handle
  | .removePeerHandle serverId connectionId => s.removePeerHandle serverId connectionId
  | .addConnectionToServer serverId connection => s.addConnectionToServer serverId connection
  | .closeConnectionOnServer serverId connectionId =>
    s.closeConnectionOnServer clock serverId connectionId
  | .removeConnectionFromServer serverId connectionId =>
    s.removeConnectionFromServer serverId connectionId
  | .cleanupOldConnections connectionless maxAgeSecs =>
    s.cleanupOldConnections (fun name => name ∈ connectionless) clock maxAgeSecs
  | .cleanupClosedConnections maxAgeSecs => s.cleanupClosedConnections clock maxAgeSecs
  | .addClient client => (s.addClient client).elim s Prod.snd
  | .updateClientStatus id status => s.updateClientStatus clock id status
  | .disconnectClient id => (s.disconnectClient clock id).2
  | .removeClient id => (s.removeClient id).2
  | .registerClientTask finished id handle =>
    s.registerClientTask (fun handle => handle ∈ finished) id handle
  | .registerClientHandle id handle => s.registerClientHandle id handle
  | .tryConsumeClientLlmCall id => (s.tryConsumeClientLlmCall id).elim s Prod.snd
  | .cleanupOldClients maxAgeSecs => s.cleanupOldClients clock maxAgeSecs

def AppStateInner.step (s : AppStateInner) (call : Clock × Op) : AppStateInner :=
  call.2.apply call.1 s

end NetGet
