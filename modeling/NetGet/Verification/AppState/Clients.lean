import NetGet.Library.Machine
import NetGet.Verification.AppState.Equations

/-! # Ownership by clients -/

namespace NetGet.AppStateInner

open Library AList
open Machine

/-- Every key of a client registry and every client a task is scoped to is a client. -/
structure ClientsOwned (s : AppStateInner) : Prop where
  clientTasks : ∀ id ∈ s.clientTasks, id ∈ s.clients
  clientHandles : ∀ id ∈ s.clientHandles, id ∈ s.clients
  clientLlmCalls : ∀ id ∈ s.clientLlmCalls, id ∈ s.clients
  tasks : ∀ id task cid, s.tasks.lookup id = some task → task.scope = .client cid →
    cid ∈ s.clients

/-- The client has no entry in any registry and no task is scoped to it. -/
structure ClientOwnsNothing (s : AppStateInner) (cid : ClientId) : Prop where
  clientTasks : cid ∉ s.clientTasks
  clientHandles : cid ∉ s.clientHandles
  clientLlmCalls : cid ∉ s.clientLlmCalls
  tasks : ∀ id task, s.tasks.lookup id = some task → task.scope ≠ .client cid

/-- A task may be scoped to a client that exists, and the sweep of disconnected clients may
meet clients that own nothing. -/
def ClientCallOk (s : AppStateInner) : Clock × Op → Prop
  | (_, .addTask task) => ∀ cid, task.scope = .client cid → cid ∈ s.clients
  | (clock, .cleanupOldClients maxAgeSecs) =>
    ∀ cid ∈ s.oldClients clock maxAgeSecs, s.ClientOwnsNothing cid
  | _ => True

structure SameClients (s s' : AppStateInner) : Prop where
  clients : s'.clients = s.clients
  clientTasks : s'.clientTasks = s.clientTasks
  clientHandles : s'.clientHandles = s.clientHandles
  clientLlmCalls : s'.clientLlmCalls = s.clientLlmCalls

theorem SameClients.refl (s : AppStateInner) : SameClients s s := ⟨rfl, rfl, rfl, rfl⟩

theorem SameClients.trans {s s' s'' : AppStateInner} (h : SameClients s s')
    (h' : SameClients s' s'') : SameClients s s'' :=
  ⟨h'.clients.trans h.clients, h'.clientTasks.trans h.clientTasks,
    h'.clientHandles.trans h.clientHandles, h'.clientLlmCalls.trans h.clientLlmCalls⟩

theorem settleMode_sameClients (s : AppStateInner) : SameClients s s.settleMode := by
  rw [settleMode_eq]
  exact ⟨rfl, rfl, rfl, rfl⟩

theorem forgetServer_sameClients (s : AppStateInner) (id : ServerId) :
    SameClients s (s.forgetServer id) := by
  obtain ⟨taskNames, heq⟩ := s.forgetServer_eq id
  rw [heq]
  exact ⟨rfl, rfl, rfl, rfl⟩

theorem ClientsOwned.new (limit : ℕ) : ClientsOwned (new limit) where
  clientTasks := by simp [AppStateInner.new]
  clientHandles := by simp [AppStateInner.new]
  clientLlmCalls := by simp [AppStateInner.new]
  tasks := by simp [AppStateInner.new]

theorem ClientsOwned.of_same {s s' : AppStateInner} (h : s.ClientsOwned) (hsa : SameClients s s')
    (hk : KeepsTasks s s') : s'.ClientsOwned where
  clientTasks := by simpa only [hsa.clients, hsa.clientTasks] using h.clientTasks
  clientHandles := by simpa only [hsa.clients, hsa.clientHandles] using h.clientHandles
  clientLlmCalls := by simpa only [hsa.clients, hsa.clientLlmCalls] using h.clientLlmCalls
  tasks := by
    intro id task cid ht hs
    rw [hsa.clients]
    exact h.tasks id task cid (hk.tasks id task ht) hs

variable {s : AppStateInner}

section

variable (h : s.ClientsOwned)

include h

theorem ClientsOwned.settleMode : s.settleMode.ClientsOwned :=
  h.of_same s.settleMode_sameClients (KeepsTasks.refl s).settleMode

theorem ClientsOwned.dropTasks (p : TaskScope → Bool) : (s.dropTasks p).ClientsOwned := by
  obtain ⟨taskNames, heq⟩ := s.dropTasks_eq p
  exact h.of_same (by rw [heq]; exact ⟨rfl, rfl, rfl, rfl⟩) (s.dropTasks_keepsTasks p)

theorem ClientsOwned.modifyClients {clients : Table ClientId ClientInstance}
    (hc : ∀ id, id ∈ s.clients → id ∈ clients) : ClientsOwned { s with clients } where
  clientTasks := fun id hid => hc id (h.clientTasks id hid)
  clientHandles := fun id hid => hc id (h.clientHandles id hid)
  clientLlmCalls := fun id hid => hc id (h.clientLlmCalls id hid)
  tasks := fun id task cid ht hs => hc cid (h.tasks id task cid ht hs)

theorem ClientsOwned.addTask (clock : Clock) {task : ScheduledTask}
    (hs : ∀ cid, task.scope = .client cid → cid ∈ s.clients) :
    ((Op.addTask task).apply clock s).ClientsOwned := by
  rcases Op.apply_addTask clock s task with hadd | hadd
  · rwa [hadd]
  rw [hadd]
  refine { h with tasks := ?_ }
  intro id t cid ht
  revert id t
  exact forall_insert (fun id t ht => h.tasks id t cid ht) (hs cid)

theorem ClientsOwned.addClient (clock : Clock) (client : ClientInstance) :
    ((Op.addClient client).apply clock s).ClientsOwned := by
  rcases Op.apply_addClient clock s client with hadd | hadd
  · rwa [hadd]
  rw [hadd]
  have hc : ∀ id, id ∈ s.clients → id ∈ s.clients.insert s.nextUnifiedId
      { client with id := s.nextUnifiedId } := by
    intro id hid
    exact (mem_insert _).2 (Or.inr hid)
  exact { h.modifyClients hc with }

theorem ClientsOwned.disconnectClient (clock : Clock) (id : ClientId) :
    ((Op.disconnectClient id).apply clock s).ClientsOwned := by
  simp only [Op.apply, AppStateInner.disconnectClient]
  split
  · exact h
  have he : ClientsOwned
      { s with
        clientTasks := s.clientTasks.erase id
        clientHandles := s.clientHandles.erase id } :=
    { h with
      clientTasks := fun x hx => h.clientTasks x (mem_erase.1 hx).2
      clientHandles := fun x hx => h.clientHandles x (mem_erase.1 hx).2 }
  exact he.modifyClients fun x hx => mem_modify.2 hx

theorem ClientsOwned.removeClient (clock : Clock) (id : ClientId) :
    ((Op.removeClient id).apply clock s).ClientsOwned := by
  simp only [Op.apply, AppStateInner.removeClient]
  apply ClientsOwned.settleMode
  generalize hs' : AppStateInner.mk .. = s'
  have hl := s'.lookup_dropTasks (ofClient id)
  obtain ⟨taskNames, heq⟩ := s'.dropTasks_eq (ofClient id)
  subst hs'
  rw [heq] at hl ⊢
  exact
    { clientTasks := fun x hx =>
        mem_erase.2 ⟨(mem_erase.1 hx).1, h.clientTasks x (mem_erase.1 hx).2⟩
      clientHandles := fun x hx => mem_erase.2
          ⟨(mem_erase.1 hx).1, h.clientHandles x (mem_erase.1 hx).2⟩
      clientLlmCalls := fun x hx => mem_erase.2
          ⟨(mem_erase.1 hx).1, h.clientLlmCalls x (mem_erase.1 hx).2⟩
      tasks := by
        intro tid task cid ht hs
        rw [hl, Option.filter_eq_some_iff] at ht
        obtain ⟨ht, hk⟩ := ht
        have hne : cid ≠ id := by simpa [hs, ofClient] using hk
        exact mem_erase.2 ⟨hne, h.tasks tid task cid ht hs⟩ }

theorem ClientsOwned.cleanupOldClients (clock : Clock) (maxAgeSecs : ℕ)
    (hold : ∀ cid ∈ s.oldClients clock maxAgeSecs, s.ClientOwnsNothing cid) :
    ((Op.cleanupOldClients maxAgeSecs).apply clock s).ClientsOwned := by
  simp only [Op.apply, AppStateInner.cleanupOldClients]
  apply ClientsOwned.settleMode
  exact
    { clientTasks := fun x hx =>
        mem_eraseAll.2 ⟨fun hmem => (hold x hmem).clientTasks hx, h.clientTasks x hx⟩
      clientHandles := fun x hx =>
        mem_eraseAll.2 ⟨fun hmem => (hold x hmem).clientHandles hx, h.clientHandles x hx⟩
      clientLlmCalls := fun x hx => mem_eraseAll.2
          ⟨fun hmem => (hold x hmem).clientLlmCalls hx, h.clientLlmCalls x hx⟩
      tasks := fun id task cid ht hs => mem_eraseAll.2
          ⟨fun hmem => (hold cid hmem).tasks id task ht hs,
            h.tasks id task cid ht hs⟩ }

end

theorem ClientsOwned.tryConsume (h : s.ClientsOwned) (clock : Clock) (id : ClientId) :
    ((Op.tryConsumeClientLlmCall id).apply clock s).ClientsOwned := by
  simp only [Op.apply, AppStateInner.tryConsumeClientLlmCall]
  split
  · exact h
  rename_i hid
  have hmem : id ∈ s.clients := not_not.1 hid
  have hu := forall_mem_insert h.clientLlmCalls hmem ((s.clientLlmCalls.lookup id).getD 0)
  split
  · exact { h with clientLlmCalls := hu }
  cases checkedAdd 32 ((s.clientLlmCalls.lookup id).getD 0) 1 with
  | none => exact h
  | some used =>
    exact { h with clientLlmCalls := forall_mem_insert hu hmem used }

theorem ClientsOwned.step (h : s.ClientsOwned) (call : Clock × Op) (hok : s.ClientCallOk call) :
    (s.step call).ClientsOwned := by
  obtain ⟨clock, op⟩ := call
  change (op.apply clock s).ClientsOwned
  cases op with
  | addTask task => exact h.addTask clock hok
  | addClient client => exact h.addClient clock client
  | disconnectClient id => exact h.disconnectClient clock id
  | removeClient id => exact h.removeClient clock id
  | cleanupOldClients maxAgeSecs => exact h.cleanupOldClients clock maxAgeSecs hok
  | tryConsumeClientLlmCall id => exact h.tryConsume clock id
  | updateClientStatus id status => exact h.modifyClients fun x hx => mem_modify.2 hx
  | registerClientTask finished id handle =>
    simp only [Op.apply, AppStateInner.registerClientTask]
    split
    · exact h
    · rename_i hid
      exact { h with clientTasks := forall_mem_insert h.clientTasks (not_not.1 hid) _ }
  | registerClientHandle id handle =>
    simp only [Op.apply, AppStateInner.registerClientHandle]
    split
    · exact h
    · rename_i hid
      exact { h with clientHandles := forall_mem_insert h.clientHandles (not_not.1 hid) _ }
  | removeTask id =>
    refine h.of_same ?_ (Op.keepsTasks clock s (by simp))
    simp only [Op.apply, AppStateInner.removeTask]
    rw [removeScheduledTask_snd]
    exact ⟨rfl, rfl, rfl, rfl⟩
  | cleanupServerTasks serverId => exact h.dropTasks (ofServer serverId)
  | cleanupConnectionTasks serverId connectionId =>
    exact h.dropTasks (ofConnection serverId connectionId)
  | cleanupClientTasks clientId => exact h.dropTasks (ofClient clientId)
  | removeServer id =>
    exact ClientsOwned.settleMode
      (h.of_same (s.forgetServer_sameClients id) (s.forgetServer_keepsTasks id))
  | cleanupOldServers maxAgeSecs =>
    refine ClientsOwned.settleMode (h.of_same ?_ (foldl_forgetServer_keepsTasks _ s))
    exact List.foldlRecOn _ _ (.refl s) fun t h id _ => h.trans (t.forgetServer_sameClients id)
  | closeConnectionOnServer | removeConnectionFromServer =>
    apply ClientsOwned.dropTasks
    exact { h with }
  | addServer server =>
    rcases Op.apply_addServer clock s server with hadd | hadd <;> rw [hadd] <;> exact { h with }
  | addPipe source target =>
    rcases Op.apply_addPipe clock s source target with hadd | ⟨-, -, -, hadd⟩ <;>
      rw [hadd] <;> exact { h with }
  | getNextUnifiedId =>
    rcases s.getNextUnifiedId_cases with hn | hn <;> simp only [Op.apply, hn] <;> exact { h with }
  | registerServerTask | registerServerHandle | registerPeerHandle | registerPeerTask =>
    simp only [Op.apply, registerServerTask, registerServerHandle, registerPeerHandle,
      registerPeerTask]
    split <;> exact { h with }
  | _ => exact { h with }

/-- After every run in which tasks are scoped to clients that exist and the sweep of
disconnected clients only meets clients that own nothing, every owner is a client. -/
theorem clients_owned (limit : ℕ) (calls : List (Clock × Op))
    (hok : Meets AppStateInner.step ClientCallOk (new limit) calls) :
    (run AppStateInner.step (new limit) calls).ClientsOwned :=
  run_invariant_of_meets (.new limit) (fun _ call h hc => h.step call hc) calls hok

/-- A client with a running task hangs up and is swept ten seconds later. -/
def hangUp : List (Clock × Op) :=
  [(.atSecs 0, .addClient (.new (.atSecs 0) 0 "example.com:6379")),
    (.atSecs 0, .registerClientTask [] 1 7),
    (.atSecs 5, .disconnectClient 1),
    (.atSecs 15, .cleanupOldClients 10)]

theorem hangUp_ok : Meets AppStateInner.step ClientCallOk (new 100) hangUp := by
  refine .cons trivial (.cons trivial (.cons trivial (.cons ?_ meets_nil)))
  intro cid hcid
  have hold : cid = 1 := by
    have hl : (run AppStateInner.step (new 100) (hangUp.take 3)).oldClients (.atSecs 15) 10 =
        [1] := by decide
    exact List.mem_singleton.1 (hl ▸ hcid)
  subst hold
  exact ⟨by decide, by decide, by decide, fun id task ht => nomatch ht⟩

theorem clients_owned_hangUp : Meets AppStateInner.step ClientCallOk (new 100) hangUp ∧
      (run AppStateInner.step (new 100) hangUp).ClientsOwned :=
  ⟨hangUp_ok, clients_owned 100 hangUp hangUp_ok⟩

/-- The same client with a heartbeat scheduled and one LLM call made: the sweep removes the
client and leaves both behind. -/
def hangUpBusy : List (Clock × Op) :=
  [(.atSecs 0, .addClient (.new (.atSecs 0) 0 "example.com:6379")),
    (.atSecs 0, .addTask
      { id := 0, name := "heartbeat", scope := .client 1, taskType := .recurring 5 none 0,
        status := .scheduled, nextExecution := 5 * nanosPerSec, lastError := none,
        failureCount := 0 }),
    (.atSecs 1, .tryConsumeClientLlmCall 1),
    (.atSecs 5, .disconnectClient 1),
    (.atSecs 15, .cleanupOldClients 10)]

theorem not_clientsOwned_hangUpBusy :
    ¬ (run AppStateInner.step (new 100) hangUpBusy).ClientsOwned := by
  intro h
  have hc : 1 ∈ (run AppStateInner.step (new 100) hangUpBusy).clientLlmCalls := by decide
  have hg : 1 ∉ (run AppStateInner.step (new 100) hangUpBusy).clients := by decide
  exact hg (h.clientLlmCalls 1 hc)

end NetGet.AppStateInner
