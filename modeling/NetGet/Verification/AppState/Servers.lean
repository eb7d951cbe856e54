import NetGet.Library.Machine
import NetGet.Verification.AppState.Equations
import NetGet.Verification.Pipe.Cycle

/-! # Ownership by servers and the pipe graph -/

namespace NetGet

/-- The server a task is scoped to, directly or through one of its connections. -/
def TaskScope.serverId : TaskScope → Option ServerId
  | .server sid => some sid
  | .connection sid _ => some sid
  | _ => none

namespace AppStateInner

open Library Option AList
open Machine
open Reachability

/-- Every server named in a registry, by a task or by a pipe is a server, and no server
forwards to itself over pipes. -/
structure ServersOwned (s : AppStateInner) : Prop where
  serverTasks : ∀ id ∈ s.serverTasks, id ∈ s.servers
  serverHandles : ∀ id ∈ s.serverHandles, id ∈ s.servers
  peerHandles : ∀ peer ∈ s.peerHandles, peer.1 ∈ s.servers
  peerTasks : ∀ peer ∈ s.peerTasks, peer.1 ∈ s.servers
  tasks : ∀ id task sid, s.tasks.lookup id = some task → task.scope.serverId = some sid →
    sid ∈ s.servers
  pipes : ∀ id pipe, s.pipes.lookup id = some pipe →
    pipe.source ∈ s.servers ∧ pipe.target ∈ s.servers
  acyclic : Acyclic (PipeEdge s.pipes.values)

/-- A task may be scoped to a server that exists. -/
def ServerCallOk (s : AppStateInner) : Clock × Op → Prop
  | (_, .addTask task) => ∀ sid, task.scope.serverId = some sid → sid ∈ s.servers
  | _ => True

/-- The server registries other than the tasks are the same; the servers keep their ids. -/
structure SameServers (s s' : AppStateInner) : Prop where
  servers : ∀ id, id ∈ s'.servers ↔ id ∈ s.servers
  serverTasks : s'.serverTasks = s.serverTasks
  serverHandles : s'.serverHandles = s.serverHandles
  peerHandles : s'.peerHandles = s.peerHandles
  peerTasks : s'.peerTasks = s.peerTasks
  pipes : s'.pipes = s.pipes

theorem SameServers.of_eq {s s' : AppStateInner} (hs : s'.servers = s.servers)
    (hst : s'.serverTasks = s.serverTasks) (hsh : s'.serverHandles = s.serverHandles)
    (hph : s'.peerHandles = s.peerHandles) (hpt : s'.peerTasks = s.peerTasks)
    (hp : s'.pipes = s.pipes) : SameServers s s' :=
  ⟨by simp [hs], hst, hsh, hph, hpt, hp⟩

theorem ServersOwned.new (limit : ℕ) : ServersOwned (new limit) where
  serverTasks := by simp [AppStateInner.new]
  serverHandles := by simp [AppStateInner.new]
  peerHandles := by simp [AppStateInner.new]
  peerTasks := by simp [AppStateInner.new]
  tasks := by simp [AppStateInner.new]
  pipes := by simp [AppStateInner.new]
  acyclic := by
    intro x hc
    obtain ⟨y, ⟨pipe, hp, -⟩, -⟩ := Relation.TransGen.head'_iff.1 hc
    simp [AppStateInner.new, values] at hp

theorem ServersOwned.of_same {s s' : AppStateInner} (h : s.ServersOwned) (hsa : SameServers s s')
    (hk : KeepsTasks s s') : s'.ServersOwned where
  serverTasks := by simpa only [hsa.servers, hsa.serverTasks] using h.serverTasks
  serverHandles := by simpa only [hsa.servers, hsa.serverHandles] using h.serverHandles
  peerHandles := by simpa only [hsa.servers, hsa.peerHandles] using h.peerHandles
  peerTasks := by simpa only [hsa.servers, hsa.peerTasks] using h.peerTasks
  tasks := by
    intro id task sid ht hs
    exact (hsa.servers sid).2 (h.tasks id task sid (hk.tasks id task ht) hs)
  pipes := by simpa only [hsa.servers, hsa.pipes] using h.pipes
  acyclic := by simpa only [hsa.pipes] using h.acyclic

variable {s : AppStateInner} {pipes : Table PipeId PipeSpec} {a b : ServerId}

section

variable (h : s.ServersOwned)

include h

theorem ServersOwned.settleMode : s.settleMode.ServersOwned := by
  refine h.of_same ?_ (KeepsTasks.refl s).settleMode
  rw [settleMode_eq]
  exact .of_eq rfl rfl rfl rfl rfl rfl

theorem ServersOwned.dropTasks (p : TaskScope → Bool) : (s.dropTasks p).ServersOwned := by
  refine h.of_same ?_ (s.dropTasks_keepsTasks p)
  obtain ⟨taskNames, heq⟩ := s.dropTasks_eq p
  rw [heq]
  exact .of_eq rfl rfl rfl rfl rfl rfl

theorem ServersOwned.modifyServers {servers : Table ServerId ServerInstance}
    (hs : ∀ id, id ∈ servers ↔ id ∈ s.servers) : ServersOwned { s with servers } :=
  h.of_same ⟨hs, rfl, rfl, rfl, rfl, rfl⟩ (.of_eq rfl rfl rfl)

theorem ServersOwned.removePeer (sid : ServerId) (cid : ConnectionId) :
    (s.removePeer sid cid).ServersOwned :=
  { h with
    peerHandles := fun peer hp => h.peerHandles peer (mem_erase.1 hp).2
    peerTasks := fun peer hp => h.peerTasks peer (mem_erase.1 hp).2 }

theorem ServersOwned.addTask (clock : Clock) {task : ScheduledTask}
    (hs : ∀ sid, task.scope.serverId = some sid → sid ∈ s.servers) :
    ((Op.addTask task).apply clock s).ServersOwned := by
  rcases Op.apply_addTask clock s task with hadd | hadd
  · rwa [hadd]
  rw [hadd]
  refine { h with tasks := ?_ }
  intro id t sid ht
  revert id t
  exact forall_insert (fun id t ht => h.tasks id t sid ht) (hs sid)

theorem ServersOwned.addServer (clock : Clock) (server : ServerInstance) :
    ((Op.addServer server).apply clock s).ServersOwned := by
  rcases Op.apply_addServer clock s server with hadd | hadd
  · rwa [hadd]
  rw [hadd]
  have hin : ∀ id, id ∈ s.servers → id ∈ s.servers.insert s.nextUnifiedId
      { server with id := s.nextUnifiedId } := by
    intro id hid
    exact (mem_insert _).2 (Or.inr hid)
  exact
    { serverTasks := fun id hid => hin id (h.serverTasks id hid)
      serverHandles := fun id hid => hin id (h.serverHandles id hid)
      peerHandles := fun peer hp => hin _ (h.peerHandles peer hp)
      peerTasks := fun peer hp => hin _ (h.peerTasks peer hp)
      tasks := fun id task sid ht hs => hin sid (h.tasks id task sid ht hs)
      pipes := fun id pipe hpi => ⟨hin _ (h.pipes id pipe hpi).1, hin _ (h.pipes id pipe hpi).2⟩
      acyclic := h.acyclic }

end

theorem pipeEdge_mono {pipes' : Table PipeId PipeSpec}
    (hsub : ∀ id pipe, pipes'.lookup id = some pipe → pipes.lookup id = some pipe)
    (he : PipeEdge pipes'.values a b) : PipeEdge pipes.values a b := by
  obtain ⟨p, hp, hs, ht⟩ := he
  obtain ⟨k, hk⟩ := mem_values_iff.1 hp
  exact ⟨p, mem_values_iff.2 ⟨k, hsub k p hk⟩, hs, ht⟩

theorem ServersOwned.addPipe (h : s.ServersOwned) (clock : Clock) (source target : ServerId) :
    ((Op.addPipe source target).apply clock s).ServersOwned := by
  rcases Op.apply_addPipe clock s source target with
    hadd | ⟨hs, ht, hc, hadd⟩
  · rwa [hadd]
  rw [hadd]
  have hb : ¬ Relation.ReflTransGen (PipeEdge s.pipes.values) target source := by
    rw [← wouldCreateCycle_iff, hc]
    simp
  refine { h with pipes := ?_, acyclic := ?_ }
  · exact forall_insert h.pipes ⟨hs, ht⟩
  · refine h.acyclic.insert (fun _ _ he => ?_) hb
    obtain ⟨p, hp, rfl, rfl⟩ := he
    obtain ⟨k, hk⟩ := mem_values_iff.1 hp
    rw [lookup_insert_ite] at hk
    split at hk
    · cases hk
      exact Or.inr ⟨rfl, rfl⟩
    · exact Or.inl ⟨p, mem_values_iff.2 ⟨k, hk⟩, rfl, rfl⟩

/-- Forgetting a server removes it from every registry, every task scope and every pipe. -/
theorem ServersOwned.forgetServer (h : s.ServersOwned) (id : ServerId) :
    (s.forgetServer id).ServersOwned := by
  obtain ⟨taskNames, heq⟩ := s.forgetServer_eq id
  rw [heq]
  have hp : ∀ pid pipe, (s.pipes.eraseAll
        (s.pipes.retain fun _ p => p.source = id ∨ p.target = id).keys).lookup pid = some pipe →
      s.pipes.lookup pid = some pipe ∧ pipe.source ≠ id ∧ pipe.target ≠ id := by
    intro pid pipe hpi
    rw [lookup_eraseAll] at hpi
    split at hpi
    · simp at hpi
    rename_i hk
    have hne : ¬ (pipe.source = id ∨ pipe.target = id) := fun hor =>
      hk (mem_keys.1 (mem_retain.2 ⟨pipe, hpi, by simpa using hor⟩))
    exact ⟨hpi, not_or.1 hne⟩
  exact
    { serverTasks := fun x hx =>
        mem_erase.2 ⟨(mem_erase.1 hx).1, h.serverTasks x (mem_erase.1 hx).2⟩
      serverHandles := fun x hx => mem_erase.2
          ⟨(mem_erase.1 hx).1, h.serverHandles x (mem_erase.1 hx).2⟩
      peerHandles := by
        intro peer hpe
        obtain ⟨handle, hl, hne⟩ := mem_retain.1 hpe
        exact mem_erase.2 ⟨by simpa using hne, h.peerHandles peer (mem_of_mem_retain hpe)⟩
      peerTasks := by
        intro peer hpe
        obtain ⟨handles, hl, hne⟩ := mem_retain.1 hpe
        exact mem_erase.2 ⟨by simpa using hne, h.peerTasks peer (mem_of_mem_retain hpe)⟩
      tasks := by
        intro tid task sid hta hs
        rw [lookup_eraseAll] at hta
        split at hta
        · simp at hta
        rename_i hk
        have hne : sid ≠ id := by
          intro heq
          refine hk (mem_taskIds.2 ⟨task, hta, ?_⟩)
          rw [← heq]
          cases hsc : task.scope <;> simp_all [ofServer, TaskScope.serverId]
        exact mem_erase.2 ⟨hne, h.tasks tid task sid hta hs⟩
      pipes := by
        intro pid pipe hpi
        obtain ⟨hl, hso, ht⟩ := hp pid pipe hpi
        have he := h.pipes pid pipe hl
        exact ⟨mem_erase.2 ⟨hso, he.1⟩, mem_erase.2 ⟨ht, he.2⟩⟩
      acyclic := h.acyclic.mono fun _ _ hed =>
        pipeEdge_mono (fun pid pipe hpi => (hp pid pipe hpi).1) hed }

theorem ServersOwned.step (h : s.ServersOwned) (call : Clock × Op) (hok : s.ServerCallOk call) :
    (s.step call).ServersOwned := by
  obtain ⟨clock, op⟩ := call
  change (op.apply clock s).ServersOwned
  cases op with
  | addTask task => exact h.addTask clock hok
  | addServer server => exact h.addServer clock server
  | addPipe source target => exact h.addPipe clock source target
  | removePipe id =>
    exact
      { h with
        pipes := fun id pipe hp => h.pipes id pipe (lookup_of_erase hp)
        acyclic := h.acyclic.mono fun _ _ he => pipeEdge_mono (fun _ _ => lookup_of_erase) he }
  | removeServer id => exact (h.forgetServer id).settleMode
  | cleanupOldServers maxAgeSecs => 
    exact ServersOwned.settleMode (List.foldlRecOn _ _ h fun _ h id _ => h.forgetServer id)
  | removePeerHandle sid cid => exact h.removePeer sid cid
  | updateServerStatus | addConnectionToServer => exact h.modifyServers fun _ => mem_modify
  | cleanupOldConnections | cleanupClosedConnections =>
    exact h.modifyServers fun _ => mem_mapValues
  | closeConnectionOnServer | removeConnectionFromServer =>
    apply ServersOwned.dropTasks
    apply ServersOwned.removePeer
    exact h.modifyServers fun _ => mem_modify
  | registerServerTask finished id handle =>
    simp only [Op.apply, AppStateInner.registerServerTask]
    split
    · exact h
    rename_i hid
    exact { h with serverTasks := forall_mem_insert h.serverTasks (not_not.1 hid) _ }
  | registerServerHandle id handle =>
    simp only [Op.apply, AppStateInner.registerServerHandle]
    split
    · exact h
    rename_i hid
    exact { h with serverHandles := forall_mem_insert h.serverHandles (not_not.1 hid) _ }
  | registerPeerHandle sid cid handle =>
    simp only [Op.apply, AppStateInner.registerPeerHandle]
    split
    · exact h
    · rename_i hid
      have hsid : (sid, cid).1 ∈ s.servers := not_not.1 hid
      exact { h with peerHandles := forall_mem_insert h.peerHandles hsid _ }
  | registerPeerTask finished sid cid handle =>
    simp only [Op.apply, AppStateInner.registerPeerTask]
    split_ifs with hid
    · exact h
    · have hsid : (sid, cid).1 ∈ s.servers := not_not.1 (not_or.1 hid).1
      exact { h with peerTasks := forall_mem_insert h.peerTasks hsid _ }
  | removeTask id =>
    refine h.of_same ?_ (Op.keepsTasks clock s (by simp))
    simp only [Op.apply, AppStateInner.removeTask]
    rw [removeScheduledTask_snd]
    exact .of_eq rfl rfl rfl rfl rfl rfl
  | cleanupServerTasks sid => exact h.dropTasks (ofServer sid)
  | cleanupConnectionTasks sid cid => exact h.dropTasks (ofConnection sid cid)
  | cleanupClientTasks cid => exact h.dropTasks (ofClient cid)
  | removeClient id =>
    apply ServersOwned.settleMode
    apply ServersOwned.dropTasks
    exact { h with }
  | cleanupOldClients maxAgeSecs =>
    apply ServersOwned.settleMode
    exact { h with }
  | addClient client =>
    rcases Op.apply_addClient clock s client with hadd | hadd <;> rw [hadd] <;> exact { h with }
  | getNextUnifiedId =>
    rcases s.getNextUnifiedId_cases with hn | hn <;> simp only [Op.apply, hn] <;> exact { h with }
  | disconnectClient | registerClientTask | registerClientHandle =>
    simp only [Op.apply, disconnectClient, registerClientTask, registerClientHandle]
    split <;> exact { h with }
  | tryConsumeClientLlmCall id =>
    simp only [Op.apply, AppStateInner.tryConsumeClientLlmCall]
    split
    · exact h
    · split
      · exact { h with }
      · cases checkedAdd 32 ((s.clientLlmCalls.lookup id).getD 0) 1 <;> exact { h with }
  | updateClientStatus id status => exact { h with }

theorem addPipe_error {s' : AppStateInner} {source target : ServerId} {message : String}
    (he : s.addPipe source target = some (.error message, s')) : s' = s := by
  unfold addPipe at he
  split at he
  · exact (Prod.mk.inj (some.inj he)).2.symm
  split at he
  · exact (Prod.mk.inj (some.inj he)).2.symm
  · split at he
    · exact (Prod.mk.inj (some.inj he)).2.symm
    · rcases s.getNextUnifiedId_cases with hn | hn <;> simp [hn] at he

/-- After every run in which tasks are scoped to servers that exist, every owner is a server,
pipes join servers and form no cycle, and a refused pipe changes nothing. -/
theorem servers_owned (limit : ℕ) (calls : List (Clock × Op))
    (hok : Meets AppStateInner.step ServerCallOk (new limit) calls) :
    let s := run AppStateInner.step (new limit) calls
    s.ServersOwned ∧ ∀ source target message s',
        s.addPipe source target = some (.error message, s') → s' = s := by
  refine ⟨?_, fun _ _ _ _ => addPipe_error⟩
  exact run_invariant_of_meets (.new limit) (fun _ call h hc => h.step call hc) calls hok

/-- Two servers with a pipe between them, a task and a peer; the pipe back is refused and the
first server is stopped and swept. -/
def relayCalls : List (Clock × Op) :=
  [(.atSecs 0, .addServer (.new (.atSecs 0) 0 "HTTP")),
    (.atSecs 0, .addServer (.new (.atSecs 0) 0 "TCP")),
    (.atSecs 1, .addPipe 1 2), (.atSecs 1, .addPipe 2 1),
    (.atSecs 1, .addTask
      { id := 0, name := "heartbeat", scope := .connection 1 9, taskType := .recurring 5 none 0,
        status := .scheduled, nextExecution := 5 * nanosPerSec, lastError := none,
        failureCount := 0 }),
    (.atSecs 1, .registerPeerHandle 1 9 4),
    (.atSecs 2, .updateServerStatus 1 .stopped),
    (.atSecs 20, .cleanupOldServers 10)]

theorem relayCalls_ok : Meets AppStateInner.step ServerCallOk (new 100) relayCalls := by
  refine .cons trivial (.cons trivial (.cons trivial (.cons trivial (.cons ?_ (.cons trivial
    (.cons trivial (.cons trivial meets_nil)))))))
  intro sid hsid
  obtain rfl : 1 = sid := some.inj hsid
  decide

theorem servers_owned_relay :
    let s := run AppStateInner.step (new 100) relayCalls
    s.ServersOwned ∧ ∀ source target message s',
        s.addPipe source target = some (.error message, s') → s' = s :=
  servers_owned 100 relayCalls relayCalls_ok

end AppStateInner

end NetGet
