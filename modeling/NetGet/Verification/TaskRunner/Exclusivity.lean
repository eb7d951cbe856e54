import NetGet.Library.Focus
import NetGet.Model.TaskRunner
import NetGet.Verification.AppState.Equations

/-! # At most one execution of a task -/

namespace NetGet.TaskRunner

open Library List Option AList
open Machine
open AppStateInner

/-- Every task of the second state was there under the same id, and so was its execution. -/
structure KeepsIds (s s' : AppStateInner) : Prop where
  nextTaskId : s'.nextTaskId = s.nextTaskId
  tasks : ∀ id task', s'.tasks.lookup id = some task' →
    ∃ task, s.tasks.lookup id = some task ∧ task'.id = task.id
  executions : ∀ id, id ∈ s'.tasks →
    s'.scheduledExecutions.lookup id = s.scheduledExecutions.lookup id

variable {id : TaskId} {w : World} {s : AppStateInner} {executions : List Execution} {phase : Phase}
  {handle : JoinHandle} {e : Execution} {finished : JoinHandle → Bool} {clock : Clock}

theorem KeepsIds.mem {s' : AppStateInner} (h : KeepsIds s s') (hmem : id ∈ s'.tasks) :
    id ∈ s.tasks := by
  obtain ⟨task', ht'⟩ := AList.mem_iff_lookup.1 hmem
  obtain ⟨task, ht, -⟩ := h.tasks id task' ht'
  exact mem_iff_lookup.2 ⟨task, ht⟩

theorem keepsIds_of_keepsTasks {s' : AppStateInner} (h : KeepsTasks s s') : KeepsIds s s' where
  nextTaskId := h.nextTaskId
  tasks := fun id task ht => ⟨task, h.tasks id task ht, rfl⟩
  executions := h.executions

theorem keepsIds_modify (s : AppStateInner) (id : TaskId) {f : ScheduledTask → ScheduledTask}
    (hf : ∀ task, (f task).id = task.id) :
    KeepsIds s { s with tasks := s.tasks.modify id f } where
  nextTaskId := rfl
  tasks := by
    intro id' task' ht'
    rw [lookup_modify] at ht'
    split at ht'
    · obtain ⟨task, ht, rfl⟩ := Option.map_eq_some_iff.1 ht'
      exact ⟨task, ht, hf task⟩
    · exact ⟨task', ht', rfl⟩
  executions := fun _ _ => rfl

@[simp] theorem recordResult_id (result : TaskExecutionResult) (task : ScheduledTask) :
    (recordResult result task).id = task.id := by
  cases hs : result.success <;> simp [recordResult, hs]

theorem Call.keepsIds (id : TaskId) (s : AppStateInner) (call : Call) :
    KeepsIds s (call.apply id s) := by
  cases call with
  | recordTaskExecution result => exact keepsIds_modify s id (recordResult_id result)
  | updateTaskStatus | updateTaskNextExecution => exact keepsIds_modify s id fun _ => rfl
  | removeTask => exact keepsIds_of_keepsTasks (s.removeScheduledTask_keepsTasks id)

/-- Tasks are stored under their own id, and an unfinished execution whose task is still
there is the registered one. -/
structure World.Exclusive (w : World) : Prop where
  task_id : ∀ id task, w.state.tasks.lookup id = some task →
    task.id = id ∧ id < w.state.nextTaskId
  execution_lt : ∀ (handle : ℕ) e, w.executions[handle]? = some e →
    e.task.id < w.state.nextTaskId
  registered : ∀ (handle : ℕ) e, w.executions[handle]? = some e → e.isFinished = false →
    e.task.id ∈ w.state.tasks → w.state.scheduledExecutions.lookup e.task.id = some handle
  unique : ∀ (handle handle' : ℕ) e e', w.executions[handle]? = some e →
    w.executions[handle']? = some e' → e.isFinished = false → e'.isFinished = false →
    e.task.id = e'.task.id → handle = handle'

theorem World.Exclusive.init (limit : ℕ) (clock : Clock) : (World.init limit clock).Exclusive where
  task_id := by simp [World.init, AppStateInner.new]
  execution_lt := by simp [World.init]
  registered := by simp [World.init]
  unique := by simp [World.init]

theorem World.Exclusive.of_state (h : w.Exclusive) (hk : KeepsIds w.state s) :
    World.Exclusive { w with state := s } where
  task_id := by
    intro id task' ht'
    obtain ⟨task, ht, hid⟩ := hk.tasks id task' ht'
    obtain ⟨hs, hlt⟩ := h.task_id id task ht
    exact ⟨hid.trans hs, hk.nextTaskId ▸ hlt⟩
  execution_lt := by
    intro handle e he
    rw [hk.nextTaskId]
    exact h.execution_lt handle e he
  registered := by
    intro handle e he hu hmem
    rw [hk.executions _ hmem]
    exact h.registered handle e he hu (hk.mem hmem)
  unique := h.unique

/-- What a step of an execution can do: nothing, or a call for its own task and a change of
its phase, where a finished execution stays finished. -/
inductive World.Touches (w : World) : World → Prop where
  | stay : Touches w w
  | move {handle : JoinHandle} {e : Execution} {s : AppStateInner} {phase : Phase}
      (he : w.executions[handle]? = some e)
      (hphase : e.isFinished = true → phase = .finished) (hkeeps : KeepsIds w.state s) :
      Touches w (World.setPhase { w with state := s } handle e phase)

theorem World.Touches.setPhase (he : w.executions[handle]? = some e)
    (hp : e.isFinished = true → phase = .finished) : w.Touches (w.setPhase handle e phase) :=
  .move he hp (keepsIds_of_keepsTasks (.refl w.state))

theorem World.advance_touches (clockRange : Instant) (he : w.executions[handle]? = some e) :
    w.Touches (w.advance clockRange handle e) := by
  have hl : ∀ {phase next}, e.phase = phase → phase ≠ .finished → e.isFinished = true →
      next = Phase.finished := by
    intro phase next hp hne hf
    exact absurd (hp.symm.trans (of_decide_eq_true hf)) hne
  unfold World.advance
  split
  · exact .stay
  · rename_i result hp
    exact .move he (hl hp (by simp)) (Call.keepsIds _ w.state (.recordTaskExecution result))
  · rename_i result hp
    exact .setPhase he (hl hp (by simp))
  · exact .setPhase he fun _ => rfl
  · rename_i call calls hp
    exact .move he (hl hp (by simp)) (call.keepsIds e.task.id w.state)
  · exact .stay

def Label.isExecution : Label → Bool
  | .settle _ _ => true
  | .advance _ => true
  | .cancel _ => true
  | .stop _ => true
  | _ => false

theorem World.step_touches (clockRange : Instant) (w : World) {label : Label}
    (h : label.isExecution = true) : w.Touches (w.step clockRange label) := by
  cases label with
  | settle handle outcome =>
    simp only [World.step]
    split
    · rename_i e he
      split
      · rename_i hr
        exact .setPhase he fun hf => by simp [Execution.isFinished, hr] at hf
      · exact .stay
    · exact .stay
  | advance handle =>
    simp only [World.step]
    split
    · rename_i e he
      exact World.advance_touches clockRange he
    · exact .stay
  | cancel handle =>
    simp only [World.step]
    split
    · rename_i e he
      split
      · exact .stay
      · rename_i hu
        exact .setPhase he fun hf => absurd hf hu
    · exact .stay
  | stop handle =>
    simp only [World.step]
    split
    · rename_i e he
      exact .setPhase he fun _ => rfl
    · exact .stay
  | _ => cases h

theorem World.Exclusive.setPhase (h : w.Exclusive) (he : w.executions[handle]? = some e)
    (hp : e.isFinished = true → phase = .finished) : (w.setPhase handle e phase).Exclusive := by
  have hu : ({ e with phase } : Execution).isFinished = false → e.isFinished = false := by
    intro hu
    by_contra hf
    simp [Execution.isFinished, hp (by simpa using hf)] at hu
  -- an execution that still runs was there before
  have hold : ∀ (handle' : ℕ) e', (w.setPhase handle e phase).executions[handle']? = some e' →
      e'.isFinished = false →
        ∃ e, w.executions[handle']? = some e ∧ e.isFinished = false ∧ e.task = e'.task :=
    forall_getElem?_set (fun _ e' _ he' hu' => ⟨e', he', hu', rfl⟩) fun hf => ⟨e, he, hu hf, rfl⟩
  exact
    { task_id := h.task_id
      execution_lt := forall_getElem?_set (fun handle' e' _ => h.execution_lt handle' e')
        (h.execution_lt handle e he)
      registered := forall_getElem?_set (fun handle' e' _ => h.registered handle' e')
        fun hf => h.registered handle e he (hu hf)
      unique := by
        intro handle₁ handle₂ e₁ e₂ he₁ he₂ hu₁ hu₂ hid
        obtain ⟨_, he₁, hu₁, ht₁⟩ := hold handle₁ e₁ he₁ hu₁
        obtain ⟨_, he₂, hu₂, ht₂⟩ := hold handle₂ e₂ he₂ hu₂
        exact h.unique handle₁ handle₂ _ _ he₁ he₂ hu₁ hu₂ (by rw [ht₁, ht₂, hid]) }

theorem World.Exclusive.touches {w' : World} (h : w.Exclusive) (ht : w.Touches w') :
    w'.Exclusive := by
  cases ht with
  | stay => exact h
  | move he hp hk => exact (h.of_state hk).setPhase he hp

theorem World.Exclusive.addTask (h : w.Exclusive) (task : ScheduledTask) :
    World.Exclusive { w with state := (Op.addTask task).apply w.clock w.state } := by
  rcases Op.apply_addTask w.clock w.state task with hadd | hadd
  · rw [hadd]
    exact h
  rw [hadd]
  exact
    { task_id := forall_insert
        (fun id t ht => ⟨(h.task_id id t ht).1, Nat.lt_succ_of_lt (h.task_id id t ht).2⟩)
        ⟨rfl, Nat.lt_succ_self _⟩
      execution_lt := fun handle e he => Nat.lt_succ_of_lt (h.execution_lt handle e he)
      registered := by
        intro handle e he hu hmem
        rcases (mem_insert _).1 hmem with heq | hmem
        · exact absurd (h.execution_lt handle e he) (by simp [heq])
        · exact h.registered handle e he hu hmem
      unique := h.unique }

/-- A task is due when it is scheduled, its deadline has passed, and no registered
execution of it still runs. -/
theorem isDue_iff {task : ScheduledTask} : isDue clock (s.activeTasks finished) task = true ↔
      task.status = .scheduled ∧ task.nextExecution ≤ clock.instant ∧
        ∀ handle, s.scheduledExecutions.lookup task.id = some handle → finished handle = true := by
  have ha : task.id ∉ s.activeTasks finished ↔
      ∀ handle, s.scheduledExecutions.lookup task.id = some handle → finished handle = true := by
    rw [activeTasks, ← AList.mem_keys, mem_retain]
    simp
  simp only [isDue, Bool.and_eq_true, decide_eq_true_eq, ha, and_assoc]

theorem mem_claimDueTasks {claimed : ScheduledTask}
    (h : claimed ∈ (s.claimDueTasks clock finished).1) :
    ∃ id task, s.tasks.lookup id = some task ∧ claimed = { task with status := .executing } ∧
      isDue clock (s.activeTasks finished) task = true := by
  obtain ⟨task, hmem, rfl⟩ := List.mem_map.1 h
  obtain ⟨hv, hdue⟩ := List.mem_filter.1 hmem
  obtain ⟨id, hl⟩ := AList.mem_values_iff.1 hv
  exact ⟨id, task, hl, rfl, hdue⟩

theorem lookup_claimDueTasks (clock : Clock) (finished : JoinHandle → Bool) (s : AppStateInner)
    (id : TaskId) :
    (s.claimDueTasks clock finished).2.tasks.lookup id =
      (s.tasks.lookup id).map fun task =>
        if isDue clock (s.activeTasks finished) task then { task with status := .executing }
        else task :=
  lookup_mapValues _ s.tasks id

theorem World.finished_eq_false (he : w.executions[handle]? = some e)
    (hu : e.isFinished = false) : w.finished handle = false := by
  simp [World.finished, he, hu]

/-- A stored task without a registered execution that still runs has no unfinished one. -/
theorem World.Exclusive.idle (h : w.Exclusive) (hmem : id ∈ w.state.tasks)
    (hi : ∀ handle, w.state.scheduledExecutions.lookup id = some handle → w.finished handle = true)
    (he : w.executions[handle]? = some e) (hid : e.task.id = id) : e.isFinished = true := by
  subst hid
  by_contra hu
  have hu : e.isFinished = false := by simpa using hu
  have hf := hi handle (h.registered handle e he hu hmem)
  simp [World.finished_eq_false he hu] at hf

theorem World.Exclusive.claimDueTasks (h : w.Exclusive) (clockRange : Instant) :
    (w.step clockRange .claimDueTasks).Exclusive where
  task_id := by
    intro id task' ht'
    simp only [World.step] at ht' ⊢
    rw [lookup_claimDueTasks] at ht'
    obtain ⟨task, ht, rfl⟩ := Option.map_eq_some_iff.1 ht'
    have hs := h.task_id id task ht
    split <;> exact hs
  execution_lt := h.execution_lt
  registered := by
    intro handle e he hu hmem
    have hmem' : e.task.id ∈ w.state.tasks := AList.mem_mapValues.1 hmem
    have hl := h.registered handle e he hu hmem'
    have hr : w.finished handle = false := World.finished_eq_false he hu
    simp only [World.step, AppStateInner.claimDueTasks, lookup_retain, hl]
    simp [hr]
  unique := h.unique

theorem World.step_spawn_cases (clockRange : Instant) (w : World) (claim : ℕ) :
    (w.step clockRange (.spawnScheduledTask claim)) =
        { w with claims := w.claims.eraseIdx claim } ∨
      ∃ task, w.claims[claim]? = some task ∧
        (∃ stored, w.state.tasks.lookup task.id = some stored ∧ stored.status = .executing) ∧
        (∀ old, w.state.scheduledExecutions.lookup task.id = some old → w.finished old = true) ∧
        w.step clockRange (.spawnScheduledTask claim) =
          { w with
            state := { w.state with
              scheduledExecutions :=
                w.state.scheduledExecutions.insert task.id w.executions.length }
            claims := w.claims.eraseIdx claim
            executions := w.executions ++ [{ task, phase := .running }] } := by
  simp only [World.step]
  cases hc : w.claims[claim]? with
  | none =>
    have hl : w.claims.length ≤ claim := List.getElem?_eq_none_iff.1 hc
    rw [eraseIdx_of_length_le hl]
    exact Or.inl rfl
  | some task =>
    simp only [spawnScheduledTask]
    by_cases he : (w.state.tasks.lookup task.id).any fun task => task.status = .executing
    · by_cases hi : (w.state.scheduledExecutions.lookup task.id).any fun old => !w.finished old
      · exact Or.inl (by simp only [if_pos he, if_pos hi])
      refine Or.inr ⟨task, rfl, ?_, ?_, by simp only [if_pos he, if_neg hi]⟩
      · obtain ⟨stored, ht, hs⟩ := (any_eq_true _ _).1 he
        exact ⟨stored, ht, of_decide_eq_true hs⟩
      · intro old hold
        simpa [hold] using hi
    · exact Or.inl (by simp only [if_neg he])

theorem World.Exclusive.claims (h : w.Exclusive) (claims : List ScheduledTask) :
    World.Exclusive { w with claims } :=
  { h with }

theorem World.Exclusive.spawn (h : w.Exclusive) (clockRange : Instant) (claim : ℕ) :
    (w.step clockRange (.spawnScheduledTask claim)).Exclusive := by
  rcases w.step_spawn_cases clockRange claim with
    hsk | ⟨task, -, ⟨stored, hs, -⟩, hi, hsp⟩
  · rw [hsk]
    exact h.claims _
  rw [hsp]
  have hmem : task.id ∈ w.state.tasks := mem_iff_lookup.2 ⟨stored, hs⟩
  have hn : ∀ (handle : ℕ) e, w.executions[handle]? = some e → e.isFinished = false →
      e.task.id ≠ task.id := by
    intro handle e he hu hid
    simp [h.idle hmem hi he hid] at hu
  exact
    { h with
      execution_lt := forall_getElem?_concat h.execution_lt (h.task_id _ stored hs).2
      registered := by
        refine forall_getElem?_concat (fun handle e he hu hin => ?_) (by simp)
        rw [lookup_insert_ne (hn handle e he hu)]
        exact h.registered handle e he hu hin
      unique := by
        have hnew : ∀ (handle : ℕ) e, (w.executions ++ [⟨task, .running⟩])[handle]? = some e →
            e.isFinished = false → e.task.id = task.id → handle = w.executions.length :=
          forall_getElem?_concat (fun handle e he hu hid => absurd hid (hn handle e he hu))
            fun _ _ => rfl
        have hold : ∀ (handle : ℕ) e, (w.executions ++ [⟨task, .running⟩])[handle]? = some e →
            e.task.id ≠ task.id → w.executions[handle]? = some e :=
          forall_getElem?_concat (fun _ _ he _ => he) fun hne => absurd rfl hne
        intro handle handle' e e' he he' hu hu' hid
        by_cases hta : e.task.id = task.id
        · rw [hnew handle e he hu hta, hnew handle' e' he' hu' (hid ▸ hta)]
        · exact h.unique handle handle' e e' (hold handle e he hta)
            (hold handle' e' he' (hid ▸ hta)) hu hu' hid }

theorem World.Exclusive.step (h : w.Exclusive) (clockRange : Instant) (label : Label) :
    (w.step clockRange label).Exclusive := by
  cases label with
  | call op =>
    cases op with
    | addTask task => exact h.addTask task
    | _ => exact h.of_state (keepsIds_of_keepsTasks (Op.keepsTasks w.clock w.state (by simp)))
  | claimDueTasks => exact h.claimDueTasks clockRange
  | spawnScheduledTask claim => exact h.spawn clockRange claim
  | dropClaim claim => exact h.claims _
  | settle | advance | cancel | stop => exact h.touches (w.step_touches clockRange rfl)
  | tick nanos system => exact { h with }

/-- What any step does to the ids: new tasks get new ids, and only a stored task starts. -/
structure World.StepsIds (w w' : World) : Prop where
  nextTaskId : w.state.nextTaskId ≤ w'.state.nextTaskId
  tasks : ∀ id, id ∈ w'.state.tasks → id ∈ w.state.tasks ∨ w.state.nextTaskId ≤ id
  length : w.executions.length ≤ w'.executions.length
  executions : ∀ (handle : ℕ) e', w'.executions[handle]? = some e' →
    (∃ e, w.executions[handle]? = some e ∧ e.task = e'.task) ∨ e'.task.id ∈ w.state.tasks

theorem World.StepsIds.refl (w : World) : w.StepsIds w where
  nextTaskId := Nat.le_refl _
  tasks := fun _ => Or.inl
  length := Nat.le_refl _
  executions := fun _ e he => Or.inl ⟨e, he, rfl⟩

theorem World.StepsIds.of_state (hk : KeepsIds w.state s) :
    w.StepsIds { w with state := s } :=
  { World.StepsIds.refl w with
    nextTaskId := Nat.le_of_eq hk.nextTaskId.symm
    tasks := fun _ hmem => Or.inl (hk.mem hmem) }

theorem World.StepsIds.setPhase {w' : World} (h : w.StepsIds w')
    (he : w'.executions[handle]? = some e) (phase : Phase) :
    w.StepsIds (w'.setPhase handle e phase) :=
  { h with
    length := by
      simp only [World.setPhase, length_set]
      exact h.length
    executions := forall_getElem?_set (fun handle' e' _ => h.executions handle' e')
      (h.executions _ e he) }

theorem World.StepsIds.addTask (w : World) (task : ScheduledTask) :
    w.StepsIds { w with state := (Op.addTask task).apply w.clock w.state } := by
  rcases Op.apply_addTask w.clock w.state task with hadd | hadd
  · rw [hadd]
    exact .refl w
  rw [hadd]
  exact
    { World.StepsIds.refl w with
      nextTaskId := Nat.le_succ _
      tasks := forall_mem_insert (fun _ => .inl) (.inr (Nat.le_refl _)) _ }

theorem World.StepsIds.spawn (clockRange : Instant) (w : World) (claim : ℕ) :
    w.StepsIds (w.step clockRange (.spawnScheduledTask claim)) := by
  rcases w.step_spawn_cases clockRange claim with
    hsk | ⟨task, -, ⟨stored, hs, -⟩, -, hsp⟩
  · rw [hsk]
    exact { World.StepsIds.refl w with }
  rw [hsp]
  exact
    { World.StepsIds.refl w with
      length := by simp
      executions := forall_getElem?_concat (fun _ e he => .inl ⟨e, he, rfl⟩)
        (.inr (mem_iff_lookup.2 ⟨stored, hs⟩)) }

theorem World.Touches.stepsIds {w' : World} (h : w.Touches w') : w.StepsIds w' := by
  cases h with
  | stay => exact .refl w
  | move he hp hk => exact (World.StepsIds.of_state hk).setPhase he _

theorem World.step_stepsIds (clockRange : Instant) (w : World) (label : Label) :
    w.StepsIds (w.step clockRange label) := by
  cases label with
  | call op =>
    cases op with
    | addTask task => exact .addTask w task
    | _ => exact .of_state (keepsIds_of_keepsTasks (Op.keepsTasks w.clock w.state (by simp)))
  | claimDueTasks =>
    exact { World.StepsIds.refl w with
      tasks := fun id hmem => Or.inl (AList.mem_mapValues.1 hmem) }
  | spawnScheduledTask claim => exact .spawn clockRange w claim
  | dropClaim | tick => exact { World.StepsIds.refl w with }
  | settle | advance | cancel | stop => exact (w.step_touches clockRange rfl).stepsIds

/-- The id was given out and is gone, and none of the executions from number `n` on is its. -/
structure World.Gone (id : TaskId) (n : ℕ) (w : World) : Prop where
  lt : id < w.state.nextTaskId
  notMem : id ∉ w.state.tasks
  length : n ≤ w.executions.length
  executions : ∀ (handle : ℕ) e, n ≤ handle → w.executions[handle]? = some e → e.task.id ≠ id

theorem World.Gone.step {n : ℕ} {w' : World} (h : w.Gone id n) (hs : w.StepsIds w') :
    w'.Gone id n where
  lt := Nat.lt_of_lt_of_le h.lt hs.nextTaskId
  notMem := by
    intro hmem
    rcases hs.tasks id hmem with hmem | hge
    · exact h.notMem hmem
    · exact absurd h.lt (Nat.not_lt.2 hge)
  length := h.length.trans hs.length
  executions := by
    intro handle e' hge he'
    rcases hs.executions handle e' he' with ⟨e, he, ht⟩ | hmem
    · rw [← ht]
      exact h.executions handle e hge he
    · intro hid
      exact h.notMem (hid ▸ hmem)

theorem World.Gone.run {n : ℕ} (h : w.Gone id n) (clockRange : Instant) (labels : List Label) :
    (Machine.run (World.step clockRange) w labels).Gone id n :=
  run_invariant h (fun w' label h' => h'.step (w'.step_stepsIds clockRange label)) labels

theorem World.Exclusive.claimed (h : w.Exclusive) {claimed : ScheduledTask}
    (hc : claimed ∈ (w.state.claimDueTasks w.clock w.finished).1) :
    ∃ task, w.state.tasks.lookup claimed.id = some task ∧ task.status = .scheduled ∧
      task.nextExecution ≤ w.clock.instant ∧
      (∀ handle, w.state.scheduledExecutions.lookup claimed.id = some handle →
        w.finished handle = true) ∧
      ∀ (handle : ℕ) e, w.executions[handle]? = some e → e.task.id = claimed.id →
        e.isFinished = true := by
  obtain ⟨id, task, ht, rfl, hisd⟩ := mem_claimDueTasks hc
  obtain ⟨hs, hdue, hi⟩ := isDue_iff.1 hisd
  obtain rfl := (h.task_id id task ht).1
  refine ⟨task, ht, hs, hdue, hi, ?_⟩
  intro handle e he hid
  exact h.idle (mem_iff_lookup.2 ⟨task, ht⟩) hi he hid

/-- In every run a task id has at most one unfinished execution, a task is claimed only while
it is scheduled, due and not running, and an id that is gone is never started again. -/
theorem task_exclusivity (clockRange : Instant) (limit : ℕ) (clock : Clock)
    (labels : List Label) :
    let w := run (World.step clockRange) (World.init limit clock) labels
    (∀ (handle handle' : ℕ) e e', w.executions[handle]? = some e →
      w.executions[handle']? = some e' → e.isFinished = false → e'.isFinished = false →
      e.task.id = e'.task.id → handle = handle') ∧
    (∀ claimed ∈ (w.state.claimDueTasks w.clock w.finished).1,
      ∃ task, w.state.tasks.lookup claimed.id = some task ∧ task.status = .scheduled ∧
        task.nextExecution ≤ w.clock.instant ∧
        (∀ handle, w.state.scheduledExecutions.lookup claimed.id = some handle →
          w.finished handle = true) ∧
        ∀ (handle : ℕ) e, w.executions[handle]? = some e → e.task.id = claimed.id →
          e.isFinished = true) ∧
    ∀ later rest id, id ∈ w.state.tasks → id ∉ (run (World.step clockRange) w later).state.tasks →
      ∀ (handle : ℕ) e, (run (World.step clockRange) w later).executions.length ≤ handle →
        (run (World.step clockRange) w (later ++ rest)).executions[handle]? = some e →
        e.task.id ≠ id := by
  intro w
  have h : w.Exclusive :=
    run_invariant (.init limit clock) (fun _ label h => h.step clockRange label) labels
  refine ⟨h.unique, fun claimed hc => h.claimed hc, ?_⟩
  intro later rest id hmem hg handle e hge he
  -- the identifier is in the past and its task is gone, which no step changes
  obtain ⟨task, ht⟩ := AList.mem_iff_lookup.1 hmem
  have hle := le_run (μ := fun w' : World => w'.state.nextTaskId)
    (fun w' label => (w'.step_stepsIds clockRange label).nextTaskId) w later
  have hs : (run (World.step clockRange) w later).Gone id
      (run (World.step clockRange) w later).executions.length :=
    { lt := Nat.lt_of_lt_of_le (h.task_id id task ht).2 hle
      notMem := hg
      length := Nat.le_refl _
      executions := by
        intro handle' e' hge' he'
        rw [getElem?_eq_none hge'] at he'
        cases he' }
  rw [run_append] at he
  exact (hs.run clockRange rest).executions handle e hge he

end NetGet.TaskRunner
