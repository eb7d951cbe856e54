import NetGet.Library.Table
import NetGet.Model.Basic
import NetGet.Model.History

/-! # Server and client instances -/

namespace NetGet

open Json
open Library
open History

inductive ServerStatus where
  | starting
  | running
  | stopped
  | error (message : String)
  deriving DecidableEq

inductive ConnectionStatus where
  | active
  | closed
  deriving DecidableEq

structure ConnectionState where
  id : ConnectionId
  lastActivity : Instant
  status : ConnectionStatus
  statusChangedAt : Instant

structure ServerInstance where
  id : ServerId
  protocolName : String
  status : ServerStatus
  connections : Table ConnectionId ConnectionState
  statusChangedAt : Instant
  exchangeHistory : Table ConnectionId ExchangeHistory

namespace ServerInstance

def new (clock : Clock) (id : ServerId) (protocolName : String) : ServerInstance :=
  { id, protocolName
    status := .starting
    connections := ∅
    statusChangedAt := clock.instant
    exchangeHistory := ∅ }

def addConnection (server : ServerInstance) (state : ConnectionState) : ServerInstance :=
  { server with connections := server.connections.insert state.id state }

def removeConnection (server : ServerInstance) (id : ConnectionId) : ServerInstance :=
  { server with
    connections := server.connections.erase id
    exchangeHistory := server.exchangeHistory.erase id }

def removeConnections (server : ServerInstance) (ids : List ConnectionId) : ServerInstance :=
  ids.foldl removeConnection server

/-- The connections `cleanup_old_connections` finds stale. -/
def staleConnections (clock : Clock) (maxAgeSecs : ℕ) (server : ServerInstance) :
    List ConnectionId :=
  (server.connections.values.filter fun state =>
    decide (clock.secsSince state.lastActivity ≥ maxAgeSecs)).map ConnectionState.id

def cleanupOldConnections (clock : Clock) (maxAgeSecs : ℕ) (server : ServerInstance) :
    ServerInstance :=
  server.removeConnections (server.staleConnections clock maxAgeSecs)

def closedConnections (clock : Clock) (maxAgeSecs : ℕ) (server : ServerInstance) :
    List ConnectionId :=
  (server.connections.retain fun _ conn =>
    decide (conn.status = .closed) &&
      decide (clock.secsSince conn.statusChangedAt ≥ maxAgeSecs)).keys

def closeConnection (clock : Clock) (id : ConnectionId) (server : ServerInstance) :
    ServerInstance :=
  { server with
    connections := server.connections.modify id fun conn =>
      { conn with status := .closed, statusChangedAt := clock.instant } }

end ServerInstance

inductive ClientStatus where
  | connecting
  | connected
  | disconnected
  | error (message : String)
  deriving DecidableEq

structure ClientConnectionAttempt where
  remoteAddr : String
  startedUnixMs : ℕ
  endedUnixMs : Option ℕ
  outcome : String
  deriving DecidableEq

def clientConnectionHistoryCapacity : ℕ := 20

structure ClientInstance where
  id : ClientId
  remoteAddr : String
  status : ClientStatus
  statusChangedAt : Instant
  connectionHistory : List ClientConnectionAttempt
  deriving DecidableEq

namespace ClientInstance

def new (clock : Clock) (id : ClientId) (remoteAddr : String) : ClientInstance :=
  { id, remoteAddr
    status := .connecting
    statusChangedAt := clock.instant
    connectionHistory := [] }

def updateLiveTail (history : List ClientConnectionAttempt)
    (change : ClientConnectionAttempt → ClientConnectionAttempt) :
    Option (List ClientConnectionAttempt) :=
  match history.getLast? with
  | none => none
  | some attempt =>
    if attempt.endedUnixMs.isNone then some (history.dropLast ++ [change attempt]) else none

/-- Fold a status transition into the connection history: `connecting` opens an attempt,
`connected` updates the live one, `disconnected` and `error` close it. -/
def recordStatusTransition (clock : Clock) (client : ClientInstance) (status : ClientStatus) :
    ClientInstance :=
  let history := client.connectionHistory
  let attempt (outcome : String) : ClientConnectionAttempt :=
    { remoteAddr := client.remoteAddr, startedUnixMs := clock.nowUnixMs, endedUnixMs := none,
      outcome }
  let finish (outcome : String) (live : ClientConnectionAttempt) : ClientConnectionAttempt :=
    { live with endedUnixMs := some clock.nowUnixMs, outcome }
  match status with
  | .connecting =>
    let history := (updateLiveTail history fun live =>
      { live with endedUnixMs := some clock.nowUnixMs }).getD history
    let history := history ++ [attempt "connecting"]
    { client with
      connectionHistory := history.drop (history.length - clientConnectionHistoryCapacity) }
  | .connected =>
    { client with
      connectionHistory :=
        (updateLiveTail history fun live => { live with outcome := "connected" }).getD
          (history ++ [attempt "connected"]) }
  | .disconnected =>
    { client with
      connectionHistory := (updateLiveTail history (finish "disconnected")).getD history }
  | .error message =>
    { client with
      connectionHistory :=
        (updateLiveTail history (finish ("error: " ++ message))).getD history }

/-- The body of `update_client_status`. -/
def updateStatus (clock : Clock) (status : ClientStatus) (client : ClientInstance) :
    ClientInstance :=
  { client.recordStatusTransition clock status with
    status, statusChangedAt := clock.instant }

end ClientInstance

end NetGet
