import NetGet.Library.Machine
import NetGet.Verification.AppState.Equations

/-! # What a connection leaves behind -/

namespace NetGet.AppStateInner

open Library Option AList
open Machine

inductive ConnectionOp where
  | closeConnectionOnServer (serverId : ServerId) (connectionId : ConnectionId)
  | removeConnectionFromServer (serverId : ServerId) (connectionId : ConnectionId)
  | cleanupClosedConnections (maxAgeSecs : ℕ)
  | cleanupOldConnections (connectionless : String → Bool) (maxAgeSecs : ℕ)

def ConnectionOp.apply (clock : Clock) (s : AppStateInner) : ConnectionOp → AppStateInner
  | .closeConnectionOnServer sid cid => s.closeConnectionOnServer clock sid cid
  | .removeConnectionFromServer sid cid => s.removeConnectionFromServer sid cid
  | .cleanupClosedConnections maxAgeSecs => s.cleanupClosedConnections clock maxAgeSecs
  | .cleanupOldConnections connectionless maxAgeSecs =>
    s.cleanupOldConnections connectionless clock maxAgeSecs

def HasConnection (s : AppStateInner) (sid : ServerId) (cid : ConnectionId) : Prop :=
  ∃ server, s.servers.lookup sid = some server ∧ cid ∈ server.connections

/-- The call is about this connection, or it is a sweep that removes it. -/
def ConnectionOp.Ends (clock : Clock) (s : AppStateInner) (sid : ServerId) (cid : ConnectionId) :
    ConnectionOp → Prop
  | .closeConnectionOnServer sid' cid' => sid = sid' ∧ cid = cid'
  | .removeConnectionFromServer sid' cid' => sid = sid' ∧ cid = cid'
  | op => s.HasConnection sid cid ∧ ¬ (op.apply clock s).HasConnection sid cid

structure ConnectionOwnsNothing (s : AppStateInner) (sid : ServerId) (cid : ConnectionId) :
    Prop where
  tasks : ∀ id task, s.tasks.lookup id = some task → task.scope ≠ .connection sid cid
  peerHandles : (sid, cid) ∉ s.peerHandles
  peerTasks : (sid, cid) ∉ s.peerTasks

def ConnectionOp.SweepsNothingOwned (clock : Clock) (s : AppStateInner) : ConnectionOp → Prop
  | .closeConnectionOnServer _ _ => True
  | .removeConnectionFromServer _ _ => True
  | .cleanupClosedConnections maxAgeSecs =>
    ∀ sid server, s.servers.lookup sid = some server →
      ∀ cid ∈ server.closedConnections clock maxAgeSecs, s.ConnectionOwnsNothing sid cid
  | .cleanupOldConnections connectionless maxAgeSecs =>
    ∀ sid server, s.servers.lookup sid = some server →
      connectionless server.protocolName = true →
      ∀ cid ∈ server.staleConnections clock maxAgeSecs, cid ∈ server.connections →
        s.ConnectionOwnsNothing sid cid

theorem mem_connections_removeConnections (server : ServerInstance)
    (ids : List ConnectionId) (cid : ConnectionId) :
    cid ∈ (server.removeConnections ids).connections ↔
      cid ∉ ids ∧ cid ∈ server.connections := by
  induction ids generalizing server with
  | nil => simp [ServerInstance.removeConnections]
  | cons id ids ih =>
    have hc : server.removeConnections (id :: ids) =
        (server.removeConnection id).removeConnections ids := rfl
    have he : (server.removeConnection id).connections = server.connections.erase id := rfl
    rw [hc, ih, he, mem_erase, List.mem_cons, not_or]
    tauto

variable {cid : ConnectionId} {maxAgeSecs : ℕ} {clock : Clock} {s : AppStateInner} {sid : ServerId}

theorem connectionOwnsNothing_cleanup (s : AppStateInner) (sid : ServerId) (cid : ConnectionId) :
    ((s.removePeerHandle sid cid).cleanupConnectionTasks sid cid).ConnectionOwnsNothing
      sid cid := by
  have hl := lookup_dropTasks (s.removePeerHandle sid cid) (ofConnection sid cid)
  obtain ⟨taskNames, heq⟩ := dropTasks_eq (s.removePeerHandle sid cid) (ofConnection sid cid)
  refine ⟨?_, ?_, ?_⟩
  · intro id task ht hs
    rw [cleanupConnectionTasks, hl, filter_eq_some_iff] at ht
    simp [hs, ofConnection] at ht
  · rw [cleanupConnectionTasks, heq]
    simp [removePeerHandle, removePeer]
  · rw [cleanupConnectionTasks, heq]
    simp [removePeerHandle, removePeer]

theorem hasConnection_mapValues {f : ServerInstance → ServerInstance} :
    ({ s with servers := s.servers.mapValues fun _ server => f server } :
      AppStateInner).HasConnection sid cid ↔
      ∃ server, s.servers.lookup sid = some server ∧ cid ∈ (f server).connections := by
  simp only [HasConnection, lookup_mapValues, map_eq_some_iff]
  constructor
  · rintro ⟨_, ⟨server, hs, rfl⟩, hmem⟩
    exact ⟨server, hs, hmem⟩
  · rintro ⟨server, hs, hmem⟩
    exact ⟨f server, ⟨server, hs, rfl⟩, hmem⟩

theorem ends_cleanupClosedConnections :
    (ConnectionOp.cleanupClosedConnections maxAgeSecs).Ends clock s sid cid ↔
      ∃ server, s.servers.lookup sid = some server ∧
        cid ∈ server.closedConnections clock maxAgeSecs := by
  simp only [ConnectionOp.Ends, ConnectionOp.apply, cleanupClosedConnections,
    hasConnection_mapValues, mem_connections_removeConnections]
  constructor
  · rintro ⟨⟨server, hs, hmem⟩, hg⟩
    refine ⟨server, hs, ?_⟩
    by_contra hk
    exact hg ⟨server, hs, hk, hmem⟩
  rintro ⟨server, hs, hc⟩
  refine ⟨⟨server, hs, mem_of_mem_retain (mem_keys.2 hc)⟩, ?_⟩
  rintro ⟨server', hs', hk, -⟩
  obtain rfl : server = server' := some.inj (hs.symm.trans hs')
  exact hk hc

theorem ends_cleanupOldConnections {connectionless : String → Bool} :
    (ConnectionOp.cleanupOldConnections connectionless maxAgeSecs).Ends clock s sid cid ↔
      ∃ server, s.servers.lookup sid = some server ∧ connectionless server.protocolName = true ∧
        cid ∈ server.staleConnections clock maxAgeSecs ∧ cid ∈ server.connections := by
  simp only [ConnectionOp.Ends, ConnectionOp.apply, cleanupOldConnections,
    hasConnection_mapValues (f := fun server =>
      if connectionless server.protocolName then server.cleanupOldConnections clock maxAgeSecs
      else server)]
  constructor
  · rintro ⟨⟨server, hs, hmem⟩, hg⟩
    have hsw : cid ∉ (if connectionless server.protocolName then
        server.cleanupOldConnections clock maxAgeSecs else server).connections := fun hk =>
      hg ⟨server, hs, hk⟩
    split at hsw
    · rename_i hl
      rw [ServerInstance.cleanupOldConnections, mem_connections_removeConnections] at hsw
      exact ⟨server, hs, hl, by tauto, hmem⟩
    · exact absurd hmem hsw
  · rintro ⟨server, hs, hl, hst, hmem⟩
    refine ⟨⟨server, hs, hmem⟩, ?_⟩
    rintro ⟨server', hs', hk⟩
    obtain rfl : server = server' := some.inj (hs.symm.trans hs')
    rw [if_pos hl, ServerInstance.cleanupOldConnections, mem_connections_removeConnections] at hk
    exact hk.1 hst

/-- A call leaves nothing of the connections it ends exactly when it is one of the two
explicit calls or a sweep that meets only connections that own nothing. -/
theorem connection_ends_clean_iff (clock : Clock) (s : AppStateInner) (op : ConnectionOp) :
    (∀ sid cid, op.Ends clock s sid cid → (op.apply clock s).ConnectionOwnsNothing sid cid) ↔
      op.SweepsNothingOwned clock s := by
  cases op with
  | closeConnectionOnServer | removeConnectionFromServer =>
    refine iff_of_true ?_ trivial
    intro sid cid he
    obtain ⟨rfl, rfl⟩ := he
    exact connectionOwnsNothing_cleanup _ sid cid
  | cleanupClosedConnections maxAgeSecs =>
    constructor
    · intro h sid server hs cid hc
      have hn := h sid cid (ends_cleanupClosedConnections.2 ⟨server, hs, hc⟩)
      exact { hn with }
    intro h sid cid he
    obtain ⟨server, hs, hc⟩ := ends_cleanupClosedConnections.1 he
    have hn := h sid server hs cid hc
    exact { hn with }
  | cleanupOldConnections connectionless maxAgeSecs =>
    constructor
    · intro h sid server hs hl cid hst hmem
      have hn := h sid cid (ends_cleanupOldConnections.2 ⟨server, hs, hl, hst, hmem⟩)
      exact { hn with }
    intro h sid cid he
    obtain ⟨server, hs, hl, hst, hmem⟩ := ends_cleanupOldConnections.1 he
    have hn := h sid server hs hl cid hst hmem
    exact { hn with }

/-- A datagram peer of a connectionless server, with a follow-up scheduled for it. -/
def datagramPeer : AppStateInner :=
  run AppStateInner.step (new 100)
    [(.atSecs 0, .addServer (.new (.atSecs 0) 0 "UDP")),
      (.atSecs 0, .addConnectionToServer 1
        { id := 2, lastActivity := 0, status := .active, statusChangedAt := 0 }),
      (.atSecs 0, .addTask
        { id := 0, name := "follow_up", scope := .connection 1 2, taskType := .oneShot 60,
          status := .scheduled, nextExecution := 60 * nanosPerSec, lastError := none,
          failureCount := 0 })]

/-- Ten idle seconds later the sweep removes the peer and leaves its task scheduled. -/
theorem datagramPeer_not_clean : ¬ ∀ sid cid,
      (ConnectionOp.cleanupOldConnections (· == "UDP") 10).Ends (.atSecs 10) datagramPeer sid cid →
        ((ConnectionOp.cleanupOldConnections (· == "UDP") 10).apply (.atSecs 10)
          datagramPeer).ConnectionOwnsNothing sid cid := by
  intro h
  have he : (ConnectionOp.cleanupOldConnections (· == "UDP") 10).Ends (.atSecs 10)
      datagramPeer 1 2 :=
    ends_cleanupOldConnections.2 ⟨_, rfl, by decide, by decide, by decide⟩
  exact (h 1 2 he).tasks 1 _ rfl rfl

end NetGet.AppStateInner
