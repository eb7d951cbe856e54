import NetGet.Library.Fallible
import NetGet.Verification.TaskRunner.Exclusivity

/-! # The cap on executions -/

namespace NetGet.TaskRunner

open Library List Option AList
open Machine
open AppStateInner ScheduledTask

def Within : TaskType → Prop
  | .oneShot _ => True
  | .recurring _ maxExecutions executionsCount =>
    ∀ max ∈ maxExecutions, 0 < max → executionsCount ≤ max

def Below : TaskType → Prop
  | .oneShot _ => True
  | .recurring _ maxExecutions executionsCount =>
    ∀ max ∈ maxExecutions, 0 < max → executionsCount < max

instance (taskType : TaskType) : Decidable (Below taskType) := by
  cases taskType <;> unfold Below <;> infer_instance

theorem Below.within {taskType : TaskType} (h : Below taskType) : Within taskType := by
  cases taskType with
  | oneShot delaySecs => trivial
  | recurring intervalSecs maxExecutions executionsCount =>
    exact fun max hmax hpos => Nat.le_of_lt (h max hmax hpos)

theorem Below.countExecution {taskType : TaskType} (h : Below taskType) :
    Within (countExecution taskType) := by
  cases taskType with
  | oneShot delaySecs => trivial
  | recurring intervalSecs maxExecutions executionsCount =>
    intro max hmax hpos
    have hlt := h max hmax hpos
    simp only [saturatingAdd]
    omega

theorem within_iff (task : ScheduledTask) : Within task.taskType ↔
      ∀ max, task.maxExecutions = some max → 0 < max → task.executionsCount ≤ max := by
  unfold Within ScheduledTask.maxExecutions ScheduledTask.executionsCount
  cases task.taskType <;> simp

variable {task : ScheduledTask} {clockRange : Instant} {clock : Clock} {id : TaskId}
  {e : Execution} {w : World} {s : AppStateInner} {handle : JoinHandle} {phase : Phase}

theorem below_of_executionsCount (h : task.executionsCount = 0) : Below task.taskType := by
  unfold ScheduledTask.executionsCount at h
  cases ht : task.taskType with
  | oneShot delaySecs => trivial
  | recurring intervalSecs maxExecutions executionsCount =>
    rw [ht] at h
    obtain rfl : executionsCount = 0 := h
    exact fun _ _ hpos => hpos

theorem Below.not_reached (h : Below task.taskType) (hmax : task.maxExecutions ≠ some 0) :
    task.isMaxExecutionsReached = false := by
  unfold ScheduledTask.maxExecutions at hmax
  unfold ScheduledTask.isMaxExecutionsReached
  split
  · rename_i intervalSecs max executionsCount ht
    rw [ht] at h hmax
    have hpos : 0 < max := Nat.pos_of_ne_zero fun hz => hmax (by rw [hz])
    exact decide_eq_false (Nat.not_le.2 (h max rfl hpos))
  · rfl

/-- A stored task keeps its cap, and has a run left while it is scheduled. -/
structure Fine (task : ScheduledTask) : Prop where
  within : Within task.taskType
  below : task.status = .scheduled → Below task.taskType

theorem Fine.of_below (h : Below task.taskType) : Fine task :=
  ⟨h.within, fun _ => h⟩

theorem Fine.of_status (h : Within task.taskType) (hst : task.status ≠ .scheduled) : Fine task :=
  ⟨h, fun hs => absurd hs hst⟩

def Call.applyTo (task : ScheduledTask) : Call → Option ScheduledTask
  | .recordTaskExecution result => some (recordResult result task)
  | .updateTaskStatus status => some { task with status }
  | .updateTaskNextExecution next => some { task with nextExecution := next }
  | .removeTask => none

theorem Call.lookup_apply (id id' : TaskId) (s : AppStateInner) (call : Call) :
    (call.apply id s).tasks.lookup id' =
      if id' = id then (s.tasks.lookup id').bind fun task => call.applyTo task
      else s.tasks.lookup id' := by
  cases call with
  | recordTaskExecution result =>
    rw [Call.apply, AppStateInner.recordTaskExecution, lookup_modify, map_eq_bind]
    rfl
  | updateTaskStatus status =>
    rw [Call.apply, AppStateInner.updateTaskStatus, lookup_modify, map_eq_bind]
    rfl
  | updateTaskNextExecution next =>
    rw [Call.apply, AppStateInner.updateTaskNextExecution, lookup_modify, map_eq_bind]
    rfl
  | removeTask =>
    rw [Call.apply, AppStateInner.removeTask, removeScheduledTask_snd]
    simp [lookup_erase_ite, Call.applyTo]

def FineAfter : List Call → ScheduledTask → Prop
  | [], task => Fine task
  | call :: calls, task =>
    Fine task ∧ ∀ task', call.applyTo task = some task' → FineAfter calls task'

@[simp] theorem recordResult_status (result : TaskExecutionResult) (task : ScheduledTask) :
    (recordResult result task).status = task.status := by
  cases hs : result.success <;> simp [recordResult, hs]

@[simp] theorem recordResult_taskType (result : TaskExecutionResult) (task : ScheduledTask) :
    (recordResult result task).taskType = countExecution task.taskType := by
  cases hs : result.success <;> simp [recordResult, hs]

theorem fineAfter_fail (h : Fine task) (error : String) :
    FineAfter [.updateTaskStatus (.failed error)] task := by
  refine ⟨h, ?_⟩
  intro task' ht'
  cases ht'
  exact .of_status h.within (by simp)

theorem fineAfter_giveUp (h : Fine task) {status : TaskStatus} (hs : status ≠ .scheduled) :
    FineAfter [.updateTaskStatus status, .removeTask] task := by
  refine ⟨h, ?_⟩
  intro task' ht'
  cases ht'
  refine ⟨.of_status h.within hs, ?_⟩
  intro task'' hr
  cases hr

theorem fineAfter_reschedule (h : Below task.taskType) (next : Instant) :
    FineAfter [.updateTaskNextExecution next, .updateTaskStatus .scheduled] task := by
  refine ⟨.of_below h, ?_⟩
  intro task' ht'
  cases ht'
  refine ⟨.of_below h, ?_⟩
  intro task'' ht''
  obtain rfl := some.inj ht''
  exact .of_below h

/-- A failed run of the task is not its last allowed one, or the task is given up for its
failures anyway. -/
def MayFail (task : ScheduledTask) : Prop :=
  Below (countExecution task.taskType) ∨ maxFailures ≤ saturatingAdd 64 task.failureCount 1

instance (task : ScheduledTask) : Decidable (MayFail task) := by
  unfold MayFail
  infer_instance

/-- The stored task is the one that was claimed, and had a run left then. -/
structure Held (snapshot task : ScheduledTask) : Prop where
  status : task.status ≠ .scheduled
  taskType : task.taskType = snapshot.taskType
  below : Below snapshot.taskType

theorem Held.fine {snapshot : ScheduledTask} (h : Held snapshot task) : Fine task :=
  .of_status (h.taskType ▸ h.below.within) h.status

/-- What an execution in this phase knows of its stored task. -/
def Stage (snapshot task : ScheduledTask) : Phase → Prop
  | .running => Held snapshot task
  | .recording result => Held snapshot task ∧ (result.success = false → MayFail snapshot)
  | .deciding result =>
    task.status ≠ .scheduled ∧ task.taskType = countExecution snapshot.taskType ∧
      (result.success = false → MayFail snapshot)
  | .calling calls => FineAfter calls task
  | .finished => True

theorem stage_of_isFinished (h : e.isFinished = true) (task : ScheduledTask) :
    Stage e.task task e.phase := by
  have hp : e.phase = .finished := of_decide_eq_true h
  rw [hp]
  trivial

structure World.Capped (w : World) : Prop where
  fine : ∀ id task, w.state.tasks.lookup id = some task → Fine task
  claim_nodup : (w.claims.map ScheduledTask.id).Nodup
  claim_lt : ∀ claim ∈ w.claims, claim.id < w.state.nextTaskId
  claim_held : ∀ claim ∈ w.claims, ∀ task, w.state.tasks.lookup claim.id = some task →
    Held claim task
  claim_idle : ∀ claim ∈ w.claims, claim.id ∈ w.state.tasks →
    ∀ (handle : ℕ) e, w.executions[handle]? = some e → e.task.id = claim.id →
      e.isFinished = true
  stage : ∀ (handle : ℕ) e, w.executions[handle]? = some e → ∀ task,
    w.state.tasks.lookup e.task.id = some task → Stage e.task task e.phase

theorem World.Capped.init (limit : ℕ) (clock : Clock) : (World.init limit clock).Capped where
  fine := by simp [World.init, AppStateInner.new]
  claim_nodup := by simp [World.init]
  claim_lt := by simp [World.init]
  claim_held := by simp [World.init]
  claim_idle := by simp [World.init]
  stage := by simp [World.init]

theorem World.Capped.of_keepsTasks (h : w.Capped) (hk : KeepsTasks w.state s) :
    World.Capped { w with state := s } where
  fine := fun id task ht => h.fine id task (hk.tasks id task ht)
  claim_nodup := h.claim_nodup
  claim_lt := by
    intro claim hc
    rw [hk.nextTaskId]
    exact h.claim_lt claim hc
  claim_held := fun claim hc task ht => h.claim_held claim hc task (hk.tasks _ task ht)
  claim_idle := fun claim hc hmem => h.claim_idle claim hc ((keepsIds_of_keepsTasks hk).mem hmem)
  stage := fun handle e he task ht => h.stage handle e he task (hk.tasks _ task ht)

theorem World.Capped.addTask (hex : w.Exclusive) (h : w.Capped) (hf : task.executionsCount = 0) :
    World.Capped { w with state := (Op.addTask task).apply w.clock w.state } := by
  rcases Op.apply_addTask w.clock w.state task with hadd | hadd
  · rw [hadd]
    exact h
  rw [hadd]
  have hb : Below task.taskType := below_of_executionsCount hf
  exact
    { fine := forall_insert h.fine (.of_below hb)
      claim_nodup := h.claim_nodup
      claim_lt := fun claim hc => Nat.lt_succ_of_lt (h.claim_lt claim hc)
      claim_held := by
        intro claim hc t ht
        rw [lookup_insert_ne (Nat.ne_of_lt (h.claim_lt claim hc))] at ht
        exact h.claim_held claim hc t ht
      claim_idle := by
        intro claim hc hmem
        rcases (mem_insert _).1 hmem with heq | hmem
        · exact absurd (h.claim_lt claim hc) (by simp [heq])
        · exact h.claim_idle claim hc hmem
      stage := by
        intro handle e he t ht
        rw [lookup_insert_ne (Nat.ne_of_lt (hex.execution_lt handle e he))] at ht
        exact h.stage handle e he t ht }

theorem lookup_claimDueTasks_of_not_isDue {finished : JoinHandle → Bool} {task' : ScheduledTask}
    (h : (s.claimDueTasks clock finished).2.tasks.lookup id = some task')
    (hnot : ∀ task, s.tasks.lookup id = some task →
      isDue clock (s.activeTasks finished) task ≠ true) : s.tasks.lookup id = some task' := by
  rw [lookup_claimDueTasks] at h
  obtain ⟨task, ht, rfl⟩ := Option.map_eq_some_iff.1 h
  rw [if_neg (hnot task ht)]
  exact ht

theorem World.Capped.claimDueTasks (hex : w.Exclusive) (h : w.Capped) (clockRange : Instant) :
    (w.step clockRange .claimDueTasks).Capped where
  fine := by
    intro id task' ht'
    simp only [World.step, lookup_claimDueTasks] at ht'
    obtain ⟨task, ht, rfl⟩ := Option.map_eq_some_iff.1 ht'
    have hf := h.fine id task ht
    split
    · exact .of_status hf.within (by simp)
    · exact hf
  claim_nodup := by
    simp only [World.step, map_append]
    refine List.Nodup.append h.claim_nodup ?_ ?_
    · have hk := AList.map_values_eq_keys fun id task ht => (hex.task_id id task ht).1
      rw [AppStateInner.claimDueTasks, List.map_map]
      refine List.Nodup.sublist (List.filter_sublist.map _) ?_
      exact hk ▸ w.state.tasks.keys_nodup
    · intro id hold hnew
      obtain ⟨claim, hc, rfl⟩ := List.mem_map.1 hold
      obtain ⟨claimed, hcl, hid⟩ := List.mem_map.1 hnew
      obtain ⟨task, ht, hs, -⟩ := hex.claimed hcl
      exact (h.claim_held claim hc task (hid ▸ ht)).status hs
  claim_lt := by
    intro claim hc
    rcases List.mem_append.1 hc with hold | hnew
    · exact h.claim_lt claim hold
    · obtain ⟨task, ht, -⟩ := hex.claimed hnew
      exact (hex.task_id _ task ht).2
  claim_held := by
    intro claim hc task' ht'
    simp only [World.step] at ht'
    rcases List.mem_append.1 hc with hold | hnew
    · refine h.claim_held claim hold task' (lookup_claimDueTasks_of_not_isDue ht' ?_)
      intro task ht hdue
      exact (h.claim_held claim hold task ht).status (isDue_iff.1 hdue).1
    obtain ⟨id, task, ht, rfl, hdue⟩ := mem_claimDueTasks hnew
    obtain rfl := (hex.task_id id task ht).1
    rw [lookup_claimDueTasks, ht, map_some, if_pos hdue] at ht'
    cases ht'
    exact
      { status := by simp
        taskType := rfl
        below := (h.fine _ task ht).below (isDue_iff.1 hdue).1 }
  claim_idle := by
    intro claim hc hmem
    rcases List.mem_append.1 hc with hold | hnew
    · exact h.claim_idle claim hold (AList.mem_mapValues.1 hmem)
    · obtain ⟨task, -, -, -, -, hi⟩ := hex.claimed hnew
      exact hi
  stage := by
    intro handle e he task' ht'
    simp only [World.step] at he ht'
    cases hu : e.isFinished with
    | true => exact stage_of_isFinished hu task'
    | false =>
      refine h.stage handle e he task' (lookup_claimDueTasks_of_not_isDue ht' ?_)
      intro task ht hdue
      obtain ⟨-, -, hi⟩ := isDue_iff.1 hdue
      rw [(hex.task_id _ task ht).1] at hi
      simp [hex.idle (mem_iff_lookup.2 ⟨task, ht⟩) hi he rfl] at hu

theorem World.Capped.dropClaim (h : w.Capped) (claim : ℕ) :
    World.Capped { w with claims := w.claims.eraseIdx claim } :=
  { h with
    claim_nodup := h.claim_nodup.sublist ((eraseIdx_sublist w.claims claim).map _)
    claim_lt := fun task hmem => h.claim_lt task (mem_of_mem_eraseIdx hmem)
    claim_held := fun task hmem => h.claim_held task (mem_of_mem_eraseIdx hmem)
    claim_idle := fun task hmem => h.claim_idle task (mem_of_mem_eraseIdx hmem) }

theorem World.Capped.spawn (h : w.Capped) (clockRange : Instant) (claim : ℕ) :
    (w.step clockRange (.spawnScheduledTask claim)).Capped := by
  rcases w.step_spawn_cases clockRange claim with hsk | ⟨task, hc, -, -, hsp⟩
  · rw [hsk]
    exact h.dropClaim claim
  rw [hsp]
  have hne : ∀ other ∈ w.claims.eraseIdx claim, task.id ≠ other.id := by
    intro other ho hid
    obtain ⟨hlt, rfl⟩ := List.getElem?_eq_some_iff.1 hc
    have hn := ((getElem_cons_eraseIdx_perm hlt).map ScheduledTask.id).nodup_iff.2 h.claim_nodup
    rw [map_cons, nodup_cons] at hn
    exact hn.1 (hid ▸ mem_map_of_mem ho)
  exact
    { h.dropClaim claim with
      claim_idle := fun other ho hmem =>
        forall_getElem?_concat ((h.dropClaim claim).claim_idle other ho hmem)
          fun hid => absurd hid (hne other ho)
      stage := forall_getElem?_concat h.stage (h.claim_held task (mem_of_getElem? hc)) }

theorem World.Capped.move (hex : w.Exclusive) (h : w.Capped) (he : w.executions[handle]? = some e)
    (hu : e.isFinished = false) (hk : KeepsIds w.state s)
    (ho : ∀ id, id ≠ e.task.id → s.tasks.lookup id = w.state.tasks.lookup id)
    (hown : ∀ task, s.tasks.lookup e.task.id = some task → Fine task ∧ Stage e.task task phase) :
    (World.setPhase { w with state := s } handle e phase).Capped := by
  have hc : ∀ claim ∈ w.claims, claim.id ∈ s.tasks → claim.id ≠ e.task.id := by
    intro claim hc hmem hid
    have hf := h.claim_idle claim hc (hk.mem hmem) handle e he hid.symm
    simp [hu] at hf
  exact
    { fine := by
        intro id task ht
        by_cases hid : id = e.task.id
        · exact (hown task (hid ▸ ht)).1
        · exact h.fine id task (ho id hid ▸ ht)
      claim_nodup := h.claim_nodup
      claim_lt := by
        intro claim hmem
        exact hk.nextTaskId ▸ h.claim_lt claim hmem
      claim_held := by
        intro claim hmem task ht
        have hne := hc claim hmem (mem_iff_lookup.2 ⟨task, ht⟩)
        exact h.claim_held claim hmem task (ho _ hne ▸ ht)
      claim_idle := fun claim hmem hs =>
        forall_getElem?_set (fun handle' e' _ => h.claim_idle claim hmem (hk.mem hs) handle' e')
          fun hid => absurd hid.symm (hc claim hmem hs)
      stage := by
        refine forall_getElem?_set (fun handle' e' hne hold task ht => ?_) fun task ht =>
          (hown task ht).2
        cases hu' : e'.isFinished with
        | true => exact stage_of_isFinished hu' task
        | false =>
          have hid : e'.task.id ≠ e.task.id := fun heq =>
            hne (hex.unique handle' handle e' e hold he hu' hu heq)
          exact h.stage handle' e' hold task (ho _ hid ▸ ht) }

theorem World.Capped.setPhase (hex : w.Exclusive) (h : w.Capped)
    (he : w.executions[handle]? = some e) (hu : e.isFinished = false)
    (hown : ∀ task, w.state.tasks.lookup e.task.id = some task → Stage e.task task phase) :
    (w.setPhase handle e phase).Capped :=
  h.move hex he hu (keepsIds_of_keepsTasks (.refl w.state)) (fun _ _ => rfl)
    fun task ht => ⟨h.fine _ task ht, hown task ht⟩

theorem World.Capped.call (hex : w.Exclusive) (h : w.Capped) (he : w.executions[handle]? = some e)
    (hu : e.isFinished = false) (call : Call)
    (hown : ∀ task task', w.state.tasks.lookup e.task.id = some task →
      call.applyTo task = some task' → Fine task' ∧ Stage e.task task' phase) :
    (World.setPhase { w with state := call.apply e.task.id w.state } handle e phase).Capped := by
  refine h.move hex he hu (call.keepsIds e.task.id w.state) ?_ ?_
  · intro id hne
    rw [call.lookup_apply, if_neg hne]
  intro task' ht'
  rw [call.lookup_apply, if_pos rfl] at ht'
  obtain ⟨task, ht, ha⟩ := Option.bind_eq_some_iff.1 ht'
  exact hown task task' ht ha

theorem FineAfter.fine {calls : List Call} (h : FineAfter calls task) : Fine task := by
  cases calls with
  | nil => exact h
  | cons call calls => exact h.1

theorem World.Capped.advance (hex : w.Exclusive) (h : w.Capped) (clockRange : Instant)
    (he : w.executions[handle]? = some e) : (w.advance clockRange handle e).Capped := by
  have hs := h.stage handle e he
  unfold World.advance
  split
  · exact h
  · rename_i result hp
    refine h.call hex he (by simp [Execution.isFinished, hp]) (.recordTaskExecution result) ?_
    intro task task' ht ha
    cases ha
    rw [hp] at hs
    obtain ⟨hh, hmay⟩ := hs task ht
    have hw : Within (recordResult result task).taskType := by
      rw [recordResult_taskType, hh.taskType]
      exact hh.below.countExecution
    have hst : (recordResult result task).status ≠ .scheduled := by
      rw [recordResult_status]
      exact hh.status
    exact ⟨.of_status hw hst, hst, by rw [recordResult_taskType, hh.taskType], hmay⟩
  · rename_i result hp
    refine h.setPhase hex he (by simp [Execution.isFinished, hp]) ?_
    intro task ht
    rw [hp] at hs
    obtain ⟨-, hty, hmay⟩ := hs task ht
    have hf := h.fine _ task ht
    by_cases hsu : result.success = true
    · rw [if_pos hsu]
      unfold handleTaskSuccess
      split
      · exact fineAfter_giveUp hf (by simp)
      rename_i intervalSecs maxExecutions executionsCount hsn
      split_ifs with hcap
      · exact fineAfter_giveUp hf (by simp)
      have hb : Below task.taskType := by
        rw [hty, hsn]
        intro max hmax hpos
        by_contra hge
        rw [mem_def] at hmax
        exact hcap (by simpa [hmax] using hge)
      split
      · exact fineAfter_reschedule hb _
      · exact fineAfter_fail hf _
    · rw [if_neg hsu]
      have hmay := hmay (Bool.eq_false_of_not_eq_true hsu)
      unfold handleTaskFailure
      simp only
      split_ifs with hr
      · exact fineAfter_giveUp hf (by simp)
      have hb : Below task.taskType := by
        rw [hty]
        exact hmay.resolve_right hr
      split
      · exact fineAfter_reschedule hb _
      · exact fineAfter_fail hf _
  · rename_i hp
    exact h.setPhase hex he (by simp [Execution.isFinished, hp]) fun _ _ => trivial
  · rename_i call calls hp
    refine h.call hex he (by simp [Execution.isFinished, hp]) call ?_
    intro task task' ht ha
    rw [hp] at hs
    have haf := (hs task ht).2 task' ha
    exact ⟨haf.fine, haf⟩
  · exact h

theorem World.setPhase_finished (he : w.executions[handle]? = some e)
    (hf : e.isFinished = true) : w.setPhase handle e .finished = w := by
  obtain ⟨hlt, heq⟩ := List.getElem?_eq_some_iff.1 he
  have hp : e.phase = .finished := of_decide_eq_true hf
  have hset : w.executions.set handle e = w.executions := by
    rw [← heq]
    exact set_getElem_self hlt
  rw [World.setPhase, ← hp]
  exact congrArg (fun executions => { w with executions }) hset

/-- The outcomes that `handle_task_failure` takes up. -/
def Outcome.isRetried : Outcome → Bool
  | .llmFailed _ => true
  | .actionsFailed _ => true
  | _ => false

/-- A task is added with no run counted, and a failing run is not the last allowed one
unless the task is given up with it. -/
def CapStepOk (w : World) : Label → Prop
  | .call (.addTask task) => task.executionsCount = 0
  | .settle handle outcome =>
    outcome.isRetried = true → ∀ e ∈ w.executions[handle]?, MayFail e.task
  | _ => True

instance (w : World) (label : Label) : Decidable (CapStepOk w label) := by
  unfold CapStepOk
  split <;> infer_instance

theorem stage_settle {snapshot : ScheduledTask} (h : Held snapshot task) {outcome : Outcome}
    (hmay : outcome.isRetried = true → MayFail snapshot) : Stage snapshot task outcome.phase := by
  cases outcome with
  | noModel error =>
    refine ⟨h.fine, ?_⟩
    intro task' ht'
    cases ht'
    refine ⟨.of_status h.fine.within (by simp), ?_⟩
    intro task'' ht''
    obtain rfl := some.inj ht''
    refine .of_status ?_ (by simp)
    rw [recordResult_taskType]
    exact (h.taskType ▸ h.below).countExecution
  | llmFailed | actionsFailed => exact ⟨h, fun _ => hmay rfl⟩
  | succeeded => exact ⟨h, fun hf => by cases hf⟩

theorem World.Capped.step (hex : w.Exclusive) (h : w.Capped) (clockRange : Instant) {label : Label}
    (hok : CapStepOk w label) : (w.step clockRange label).Capped := by
  cases label with
  | call op =>
    cases op with
    | addTask task => exact h.addTask hex hok
    | _ => exact h.of_keepsTasks (Op.keepsTasks w.clock w.state (by simp))
  | claimDueTasks => exact h.claimDueTasks hex clockRange
  | spawnScheduledTask claim => exact h.spawn clockRange claim
  | dropClaim claim => exact h.dropClaim claim
  | settle handle outcome =>
    simp only [World.step]
    split
    · rename_i e he
      split_ifs with hr
      · refine h.setPhase hex he (by simp [Execution.isFinished, hr]) ?_
        intro task ht
        have hh := h.stage handle e he task ht
        rw [hr] at hh
        exact stage_settle hh fun hre => hok hre e he
      · exact h
    · exact h
  | advance handle =>
    simp only [World.step]
    split
    · rename_i e he
      exact h.advance hex clockRange he
    · exact h
  | cancel handle =>
    simp only [World.step]
    split
    · rename_i e he
      split_ifs with hu
      · exact h
      refine h.setPhase hex he (by simpa using hu) ?_
      intro task ht
      exact fineAfter_fail (h.fine _ task ht) _
    · exact h
  | stop handle =>
    simp only [World.step]
    split
    · rename_i e he
      cases hu : e.isFinished with
      | true => rwa [World.setPhase_finished he hu]
      | false => exact h.setPhase hex he hu fun _ _ => trivial
    · exact h
  | tick nanos system => exact { h with }

/-- No stored task has run more often than its cap allows, and no task at its cap is
claimed. -/
structure World.CapRespected (w : World) : Prop where
  stored : ∀ id task, w.state.tasks.lookup id = some task →
    ∀ max, task.maxExecutions = some max → 0 < max → task.executionsCount ≤ max
  claimed : ∀ task ∈ (w.state.claimDueTasks w.clock w.finished).1,
    task.maxExecutions ≠ some 0 → task.isMaxExecutionsReached = false

theorem World.Capped.capRespected (h : w.Capped) : w.CapRespected where
  stored := fun id task ht => (within_iff task).1 (h.fine id task ht).within
  claimed := by
    intro claimed hc
    obtain ⟨id, task, ht, rfl, hdue⟩ := mem_claimDueTasks hc
    exact ((h.fine id task ht).below (isDue_iff.1 hdue).1).not_reached

/-- The cap holds in every state of a run in which no task fails in its last allowed run. -/
theorem cap_respected (clockRange : Instant) (limit : ℕ) (clock : Clock) (labels : List Label)
    (h : Meets (World.step clockRange) CapStepOk (World.init limit clock) labels) :
    (run (World.step clockRange) (World.init limit clock) labels).CapRespected := by
  have hk : ∀ w label, World.Exclusive w ∧ World.Capped w → CapStepOk w label →
      (w.step clockRange label).Exclusive ∧ (w.step clockRange label).Capped := by
    intro w label hw hok
    exact ⟨hw.1.step clockRange label, hw.2.step hw.1 clockRange hok⟩
  have hc := (run_invariant_of_meets ⟨.init limit clock, .init limit clock⟩ hk labels h).2
  exact hc.capRespected

def pollTask (maxExecutions : ℕ) : ScheduledTask :=
  { id := 0, name := "poll", scope := .global, taskType := .recurring 1 (some maxExecutions) 0,
    status := .scheduled, nextExecution := 1 * nanosPerSec, lastError := none, failureCount := 0 }

/-- The task is claimed and started as execution `handle`, which ends this way. -/
def poll (waitSecs : ℕ) (handle : JoinHandle) (outcome : Outcome) : List Label :=
  [.tick (waitSecs * nanosPerSec) 0, .claimDueTasks, .spawnScheduledTask 0,
    .settle handle outcome]

/-- The first run fails and is retried a minute later; the second run succeeds. -/
def secondTry : List Label :=
  .call (.addTask (pollTask 2)) :: poll 1 0 (.llmFailed "timeout") ++
    List.replicate 5 (.advance 0) ++ poll 60 1 .succeeded ++ [.advance 1]

theorem cap_respected_secondTry :
    let w := run (World.step (1000 * nanosPerSec)) (World.init 100 (.atSecs 0)) secondTry
    Meets (World.step (1000 * nanosPerSec)) CapStepOk (World.init 100 (.atSecs 0)) secondTry ∧
      (w.state.tasks.lookup 1).map ScheduledTask.executionsCount = some 2 ∧ w.CapRespected :=
  have hok : Meets (World.step (1000 * nanosPerSec)) CapStepOk (World.init 100 (.atSecs 0))
      secondTry := by decide
  ⟨hok, by decide, cap_respected _ _ _ _ hok⟩

/-- The only allowed run fails: the task is retried, claimed and counted once more. -/
def lastTryFails : List Label :=
  .call (.addTask (pollTask 1)) :: poll 1 0 (.llmFailed "timeout") ++
    List.replicate 5 (.advance 0) ++ poll 60 1 (.llmFailed "timeout") ++ [.advance 1]

theorem not_capRespected_lastTryFails :
    ¬ (run (World.step (1000 * nanosPerSec)) (World.init 100 (.atSecs 0))
      lastTryFails).CapRespected := by
  intro h
  have hrun : ((run (World.step (1000 * nanosPerSec)) (World.init 100 (.atSecs 0))
      lastTryFails).state.tasks.lookup 1).map
        (fun task => (task.executionsCount, task.maxExecutions)) = some (2, some 1) := by decide
  obtain ⟨task, ht, heq⟩ := Option.map_eq_some_iff.1 hrun
  obtain ⟨hc, hmax⟩ := Prod.mk.inj heq
  have hle := h.stored 1 task ht 1 hmax Nat.one_pos
  omega

end NetGet.TaskRunner
