import NetGet.Model.AppState

/-! # What the removals of the application state change -/

namespace NetGet.AppStateInner

open Library AList

theorem removeScheduledTask_snd (s : AppStateInner) (id : TaskId) :
    (s.removeScheduledTask id).2 =
      { s with
        tasks := s.tasks.erase id
        scheduledExecutions := s.scheduledExecutions.erase id
        taskNames := (s.removeScheduledTask id).2.taskNames } := by
  unfold removeScheduledTask
  dsimp only
  cases ht : s.tasks.lookup id with
  | none =>
    have hnm : id ∉ s.tasks := lookup_eq_none.1 ht
    rw [erase_of_notMem hnm]
  | some task =>
    dsimp only
    split <;> rfl

theorem mem_taskIds {s : AppStateInner} {p : TaskScope → Bool} {id : TaskId} :
    id ∈ s.taskIds p ↔ ∃ task, s.tasks.lookup id = some task ∧ p task.scope = true := by
  rw [taskIds, ← mem_keys, mem_retain]

theorem foldl_removeScheduledTask (ids : List TaskId) (s : AppStateInner) :
    ∃ taskNames, ids.foldl (fun s id => (s.removeScheduledTask id).2) s =
      { s with
        tasks := s.tasks.eraseAll ids
        scheduledExecutions := s.scheduledExecutions.eraseAll ids
        taskNames } := by
  induction ids generalizing s with
  | nil => exact ⟨s.taskNames, rfl⟩
  | cons id ids ih =>
    obtain ⟨taskNames, ht⟩ := ih (s.removeScheduledTask id).2
    refine ⟨taskNames, ?_⟩
    rw [List.foldl_cons, ht, removeScheduledTask_snd]
    rfl

theorem dropTasks_eq (s : AppStateInner) (p : TaskScope → Bool) :
    ∃ taskNames, s.dropTasks p =
      { s with
        tasks := s.tasks.eraseAll (s.taskIds p)
        scheduledExecutions := s.scheduledExecutions.eraseAll (s.taskIds p)
        taskNames } :=
  foldl_removeScheduledTask (s.taskIds p) s

theorem lookup_dropTasks (s : AppStateInner) (p : TaskScope → Bool) (id : TaskId) :
    (s.dropTasks p).tasks.lookup id = (s.tasks.lookup id).filter fun task => !p task.scope := by
  obtain ⟨taskNames, heq⟩ := s.dropTasks_eq p
  rw [heq, lookup_eraseAll]
  cases ht : s.tasks.lookup id with
  | none => simp
  | some task =>
    by_cases hp : p task.scope = true <;> simp [mem_taskIds, ht, hp, Option.filter]

/-- Every task of the second state is in the first one, and so is its execution. -/
structure KeepsTasks (s s' : AppStateInner) : Prop where
  nextTaskId : s'.nextTaskId = s.nextTaskId
  tasks : ∀ id task, s'.tasks.lookup id = some task → s.tasks.lookup id = some task
  executions : ∀ id, id ∈ s'.tasks →
    s'.scheduledExecutions.lookup id = s.scheduledExecutions.lookup id

variable {s s' : AppStateInner}

theorem KeepsTasks.of_eq (hn : s'.nextTaskId = s.nextTaskId) (ht : s'.tasks = s.tasks)
    (he : s'.scheduledExecutions = s.scheduledExecutions) : KeepsTasks s s' where
  nextTaskId := hn
  tasks := by simp [ht]
  executions := by simp [he]

theorem KeepsTasks.refl (s : AppStateInner) : KeepsTasks s s := .of_eq rfl rfl rfl

theorem KeepsTasks.trans {s'' : AppStateInner} (h : KeepsTasks s s')
    (h' : KeepsTasks s' s'') : KeepsTasks s s'' where
  nextTaskId := h'.nextTaskId.trans h.nextTaskId
  tasks := fun id task ht => h.tasks id task (h'.tasks id task ht)
  executions := by
    intro id hmem
    obtain ⟨task, ht⟩ := mem_iff_lookup.1 hmem
    have hmem' : id ∈ s'.tasks := mem_iff_lookup.2 ⟨task, h'.tasks id task ht⟩
    exact (h'.executions id hmem).trans (h.executions id hmem')

theorem keepsTasks_eraseAll (ids : List TaskId) (hn : s'.nextTaskId = s.nextTaskId)
    (ht : s'.tasks = s.tasks.eraseAll ids)
    (he : s'.scheduledExecutions = s.scheduledExecutions.eraseAll ids) :
    KeepsTasks s s' where
  nextTaskId := hn
  tasks := by
    intro id task hta
    rw [ht, lookup_eraseAll] at hta
    split at hta
    · simp at hta
    · exact hta
  executions := by
    intro id hmem
    rw [ht, mem_eraseAll] at hmem
    rw [he, lookup_eraseAll, if_neg hmem.1]

theorem removeScheduledTask_keepsTasks (s : AppStateInner) (id : TaskId) :
    KeepsTasks s (s.removeScheduledTask id).2 := by
  rw [removeScheduledTask_snd]
  exact keepsTasks_eraseAll [id] rfl rfl rfl

theorem dropTasks_keepsTasks (s : AppStateInner) (p : TaskScope → Bool) :
    KeepsTasks s (s.dropTasks p) := by
  obtain ⟨taskNames, heq⟩ := s.dropTasks_eq p
  rw [heq]
  exact keepsTasks_eraseAll (s.taskIds p) rfl rfl rfl

theorem KeepsTasks.dropTasks (h : KeepsTasks s s') (p : TaskScope → Bool) :
    KeepsTasks s (s'.dropTasks p) :=
  h.trans (s'.dropTasks_keepsTasks p)

theorem forgetServer_eq (s : AppStateInner) (id : ServerId) :
    ∃ taskNames, s.forgetServer id =
      { s with
        servers := s.servers.erase id
        serverTasks := s.serverTasks.erase id
        serverHandles := s.serverHandles.erase id
        peerHandles := s.peerHandles.retain fun peer _ => peer.1 ≠ id
        peerTasks := s.peerTasks.retain fun peer _ => peer.1 ≠ id
        tasks := s.tasks.eraseAll (s.taskIds (ofServer id))
        scheduledExecutions := s.scheduledExecutions.eraseAll (s.taskIds (ofServer id))
        taskNames
        pipes := s.pipes.eraseAll
          (s.pipes.retain fun _ p => p.source = id ∨ p.target = id).keys } := by
  unfold forgetServer teardownServer dropTasksForServer
  dsimp only
  obtain ⟨taskNames, heq⟩ := dropTasks_eq
    { s with
      servers := s.servers.erase id
      serverTasks := s.serverTasks.erase id
      serverHandles := s.serverHandles.erase id
      peerHandles := s.peerHandles.retain fun peer _ => peer.1 ≠ id
      peerTasks := s.peerTasks.retain fun peer _ => peer.1 ≠ id } (ofServer id)
  refine ⟨taskNames, ?_⟩
  rw [heq]
  rfl

theorem forgetServer_keepsTasks (s : AppStateInner) (id : ServerId) :
    KeepsTasks s (s.forgetServer id) := by
  obtain ⟨taskNames, heq⟩ := s.forgetServer_eq id
  rw [heq]
  exact keepsTasks_eraseAll (s.taskIds (ofServer id)) rfl rfl rfl

theorem foldl_forgetServer_keepsTasks (ids : List ServerId) (s : AppStateInner) :
    KeepsTasks s (ids.foldl forgetServer s) :=
  ids.foldlRecOn forgetServer (.refl s) fun t h id _ => h.trans (t.forgetServer_keepsTasks id)

theorem settleMode_eq (s : AppStateInner) :
    s.settleMode = { s with mode := s.settleMode.mode } := by
  unfold settleMode
  split <;> rfl

theorem KeepsTasks.settleMode (h : KeepsTasks s s') : KeepsTasks s s'.settleMode := by
  rw [settleMode_eq]
  exact h.trans (.of_eq rfl rfl rfl)

theorem getNextUnifiedId_cases (s : AppStateInner) : s.getNextUnifiedId = none ∨
      s.getNextUnifiedId =
        some (s.nextUnifiedId, { s with nextUnifiedId := s.nextUnifiedId + 1 }) := by
  unfold getNextUnifiedId
  cases hn : checkedAdd 32 s.nextUnifiedId 1 with
  | none => exact Or.inl rfl
  | some next =>
    obtain ⟨rfl, -⟩ := checkedAdd_eq_some.1 hn
    exact Or.inr rfl

end NetGet.AppStateInner

namespace NetGet

open Library
open AppStateInner

theorem Op.apply_addTask (clock : Clock) (s : AppStateInner) (task : ScheduledTask) :
    (Op.addTask task).apply clock s = s ∨
      (Op.addTask task).apply clock s =
        { s with
          nextTaskId := s.nextTaskId + 1
          taskNames := s.taskNames.insert task.name s.nextTaskId
          tasks := s.tasks.insert s.nextTaskId { task with id := s.nextTaskId } } := by
  simp only [Op.apply, AppStateInner.addTask]
  cases hn : checkedAdd 64 s.nextTaskId 1 with
  | none => exact Or.inl rfl
  | some next =>
    obtain ⟨rfl, -⟩ := checkedAdd_eq_some.1 hn
    exact Or.inr rfl

theorem Op.apply_addServer (clock : Clock) (s : AppStateInner) (server : ServerInstance) :
    (Op.addServer server).apply clock s = s ∨
      (Op.addServer server).apply clock s =
        { s with
          nextUnifiedId := s.nextUnifiedId + 1
          servers := s.servers.insert s.nextUnifiedId { server with id := s.nextUnifiedId }
          mode := if s.mode = .idle then .server else s.mode } := by
  simp only [Op.apply, AppStateInner.addServer]
  rcases s.getNextUnifiedId_cases with hn | hn
  · exact Or.inl (by rw [hn]; rfl)
  · exact Or.inr (by rw [hn]; rfl)

theorem Op.apply_addClient (clock : Clock) (s : AppStateInner) (client : ClientInstance) :
    (Op.addClient client).apply clock s = s ∨
      (Op.addClient client).apply clock s =
        { s with
          nextUnifiedId := s.nextUnifiedId + 1
          clients := s.clients.insert s.nextUnifiedId { client with id := s.nextUnifiedId }
          mode := if s.mode = .idle then .client else s.mode } := by
  simp only [Op.apply, AppStateInner.addClient]
  rcases s.getNextUnifiedId_cases with hn | hn
  · exact Or.inl (by rw [hn]; rfl)
  · exact Or.inr (by rw [hn]; rfl)

/-- A pipe is added between two servers that exist, when it closes no cycle; otherwise
nothing changes. -/
theorem Op.apply_addPipe (clock : Clock) (s : AppStateInner) (source target : ServerId) :
    (Op.addPipe source target).apply clock s = s ∨
      source ∈ s.servers ∧ target ∈ s.servers ∧
        wouldCreateCycle s.pipes.values source target = false ∧
        (Op.addPipe source target).apply clock s =
          { s with
            nextUnifiedId := s.nextUnifiedId + 1
            pipes := s.pipes.insert s.nextUnifiedId
              { id := s.nextUnifiedId, source, target } } := by
  simp only [Op.apply, AppStateInner.addPipe]
  split
  · exact Or.inl rfl
  rename_i hs
  split
  · exact Or.inl rfl
  rename_i ht
  split
  · exact Or.inl rfl
  rename_i hc
  rcases s.getNextUnifiedId_cases with hn | hn
  · exact Or.inl (by rw [hn]; rfl)
  · refine Or.inr ⟨not_not.1 hs, not_not.1 ht, by simpa using hc, ?_⟩
    rw [hn]
    rfl

theorem Op.keepsTasks (clock : Clock) (s : AppStateInner) {op : Op}
    (hop : ∀ task, op ≠ .addTask task) : KeepsTasks s (op.apply clock s) := by
  cases op with
  | addTask task => exact absurd rfl (hop task)
  | removeTask id => exact s.removeScheduledTask_keepsTasks id
  | cleanupServerTasks serverId => exact s.dropTasks_keepsTasks (ofServer serverId)
  | cleanupConnectionTasks serverId connectionId =>
    exact s.dropTasks_keepsTasks (ofConnection serverId connectionId)
  | cleanupClientTasks clientId => exact s.dropTasks_keepsTasks (ofClient clientId)
  | removeServer id => exact (s.forgetServer_keepsTasks id).settleMode
  | cleanupOldServers maxAgeSecs => exact (foldl_forgetServer_keepsTasks _ s).settleMode
  | closeConnectionOnServer serverId connectionId =>
    simp only [Op.apply, AppStateInner.closeConnectionOnServer,
      AppStateInner.cleanupConnectionTasks]
    apply KeepsTasks.dropTasks
    exact .of_eq rfl rfl rfl
  | removeConnectionFromServer serverId connectionId =>
    simp only [Op.apply, AppStateInner.removeConnectionFromServer,
      AppStateInner.cleanupConnectionTasks]
    apply KeepsTasks.dropTasks
    exact .of_eq rfl rfl rfl
  | removeClient id =>
    simp only [Op.apply, AppStateInner.removeClient]
    apply KeepsTasks.settleMode
    apply KeepsTasks.dropTasks
    exact .of_eq rfl rfl rfl
  | cleanupOldClients maxAgeSecs =>
    simp only [Op.apply, AppStateInner.cleanupOldClients]
    apply KeepsTasks.settleMode
    exact .of_eq rfl rfl rfl
  | getNextUnifiedId =>
    rcases s.getNextUnifiedId_cases with h | h <;> simp only [Op.apply, h] <;>
      exact .of_eq rfl rfl rfl
  | addServer server =>
    rcases Op.apply_addServer clock s server with h | h <;> rw [h] <;> exact .of_eq rfl rfl rfl
  | addClient client =>
    rcases Op.apply_addClient clock s client with h | h <;> rw [h] <;> exact .of_eq rfl rfl rfl
  | addPipe source target =>
    rcases Op.apply_addPipe clock s source target with h | ⟨-, -, -, h⟩ <;>
      rw [h] <;> exact .of_eq rfl rfl rfl
  | tryConsumeClientLlmCall id =>
    simp only [Op.apply, AppStateInner.tryConsumeClientLlmCall]
    split
    · exact .refl s
    split
    · exact .of_eq rfl rfl rfl
    · cases checkedAdd 32 ((s.clientLlmCalls.lookup id).getD 0) 1 <;> exact .of_eq rfl rfl rfl
  | registerServerTask | registerServerHandle | registerPeerHandle | registerPeerTask
  | registerClientTask | registerClientHandle | disconnectClient =>
    simp only [Op.apply, AppStateInner.registerServerTask, AppStateInner.registerServerHandle,
      AppStateInner.registerPeerHandle, AppStateInner.registerPeerTask,
      AppStateInner.registerClientTask, AppStateInner.registerClientHandle,
      AppStateInner.disconnectClient]
    split <;> exact .of_eq rfl rfl rfl
  | _ => exact .of_eq rfl rfl rfl

end NetGet
