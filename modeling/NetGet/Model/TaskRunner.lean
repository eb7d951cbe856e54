import NetGet.Library.Machine
import NetGet.Model.AppState

/-! # Running scheduled tasks

Timer ticks claim due tasks and spawn an execution for each, which reports back through
`handle_task_success` or `handle_task_failure`. Each of its calls of `AppState` is one step of the
system at the end of this file, and any other call may come between. -/

namespace NetGet.TaskRunner

open Library

inductive Call where
  | recordTaskExecution (result : TaskExecutionResult)
  | updateTaskStatus (status : TaskStatus)
  | updateTaskNextExecution (next : Instant)
  | removeTask
  deriving DecidableEq

def Call.apply (id : TaskId) (s : AppStateInner) : Call → AppStateInner
  | .recordTaskExecution result => s.recordTaskExecution id result
  | .updateTaskStatus status => s.updateTaskStatus id status
  | .updateTaskNextExecution next => s.updateTaskNextExecution id next
  | .removeTask => (s.removeTask id).2

/-- The calls of `handle_task_success` after the run is recorded. The snapshot predates the
record, so the run that just completed is counted in. -/
def handleTaskSuccess (clockRange : Instant) (clock : Clock) (task : ScheduledTask) :
    List Call :=
  match task.taskType with
  | .oneShot _ => [.updateTaskStatus .completed, .removeTask]
  | .recurring intervalSecs maxExecutions executionsCount =>
    if maxExecutions.any fun max => decide (saturatingAdd 64 executionsCount 1 ≥ max) then
      [.updateTaskStatus .completed, .removeTask]
    else
      match checkedTaskDeadline clockRange clock intervalSecs with
      | .ok next => [.updateTaskNextExecution next, .updateTaskStatus .scheduled]
      | .error error => [.updateTaskStatus (.failed error)]

def maxFailures : ℕ := 5
def backoffBaseSecs : ℕ := 60

/-- The calls of `handle_task_failure` after the run is recorded: give up after too many
failures, otherwise retry with exponential backoff. -/
def handleTaskFailure (clockRange : Instant) (clock : Clock) (task : ScheduledTask)
    (result : TaskExecutionResult) : List Call :=
  let failureCount := saturatingAdd 64 task.failureCount 1
  if failureCount ≥ maxFailures then
    [.updateTaskStatus (.failed (result.error.getD "Unknown error")), .removeTask]
  else
    let backoffSecs := backoffBaseSecs * 2 ^ (failureCount - 1)
    match checkedTaskDeadline clockRange clock backoffSecs with
    | .ok next => [.updateTaskNextExecution next, .updateTaskStatus .scheduled]
    | .error error => [.updateTaskStatus (.failed error)]

/-- Where an execution stands: running its model call and actions, about to record the
result, about to decide what follows, making its last calls, or finished. -/
inductive Phase where
  | running
  | recording (result : TaskExecutionResult)
  | deciding (result : TaskExecutionResult)
  | calling (calls : List Call)
  | finished
  deriving DecidableEq

inductive Outcome where
  | noModel (error : String)
  | llmFailed (error : String)
  | actionsFailed (error : String)
  | succeeded

def Outcome.phase : Outcome → Phase
  | .noModel error =>
    let errorMsg := "Model selection failed: " ++ error
    .calling [.updateTaskStatus (.failed errorMsg),
      .recordTaskExecution { success := false, error := some errorMsg }]
  | .llmFailed error =>
    .recording { success := false, error := some ("LLM call failed: " ++ error) }
  | .actionsFailed error =>
    .recording { success := false, error := some ("Action execution failed: " ++ error) }
  | .succeeded => .recording { success := true, error := none }

structure Execution where
  task : ScheduledTask
  phase : Phase

def Execution.isFinished (execution : Execution) : Bool := decide (execution.phase = .finished)

/-- The application state, the clock, the tasks claimed but not spawned yet, and the
executions, each under the number of its spawn. -/
structure World where
  state : AppStateInner
  clock : Clock
  claims : List ScheduledTask
  executions : List Execution

def World.init (limit : ℕ) (clock : Clock) : World :=
  { state := .new limit, clock, claims := [], executions := [] }

def World.finished (w : World) (handle : JoinHandle) : Bool :=
  w.executions[handle]?.any Execution.isFinished

inductive Label where
  | call (op : Op)
  | claimDueTasks
  | spawnScheduledTask (claim : ℕ)
  | dropClaim (claim : ℕ)
  | settle (handle : JoinHandle) (outcome : Outcome)
  | advance (handle : JoinHandle)
  | cancel (handle : JoinHandle)
  | stop (handle : JoinHandle)
  | tick (nanos system : ℕ)

def World.setPhase (w : World) (handle : JoinHandle) (execution : Execution) (phase : Phase) :
    World :=
  { w with executions := w.executions.set handle { execution with phase } }

def World.advance (clockRange : Instant) (w : World) (handle : JoinHandle)
    (execution : Execution) : World :=
  match execution.phase with
  | .running => w
  | .recording result =>
    { w with state := w.state.recordTaskExecution execution.task.id result }.setPhase handle
      execution (.deciding result)
  | .deciding result =>
    w.setPhase handle execution
      (.calling
        (if result.success then handleTaskSuccess clockRange w.clock execution.task
        else handleTaskFailure clockRange w.clock execution.task result))
  | .calling [] => w.setPhase handle execution .finished
  | .calling (call :: calls) =>
    { w with state := call.apply execution.task.id w.state }.setPhase handle execution
      (.calling calls)
  | .finished => w

/-- One step of a timer tick, an execution, or any other user of the state. An execution may
be cancelled with its owner, or stop at once when it is aborted or panics. -/
def World.step (clockRange : Instant) (w : World) : Label → World
  | .call op => { w with state := op.apply w.clock w.state }
  | .claimDueTasks =>
    let (tasks, state) := w.state.claimDueTasks w.clock w.finished
    { w with state, claims := w.claims ++ tasks }
  | .spawnScheduledTask claim =>
    match w.claims[claim]? with
    | none => w
    | some task =>
      let claims := w.claims.eraseIdx claim
      match w.state.spawnScheduledTask w.finished task.id w.executions.length with
      | (false, state) => { w with state, claims }
      | (true, state) =>
        { w with
          state, claims
          executions := w.executions ++ [{ task, phase := .running }] }
  | .dropClaim claim => { w with claims := w.claims.eraseIdx claim }
  | .settle handle outcome =>
    match w.executions[handle]? with
    | some execution =>
      if execution.phase = .running then w.setPhase handle execution outcome.phase else w
    | none => w
  | .advance handle =>
    match w.executions[handle]? with
    | some execution => w.advance clockRange handle execution
    | none => w
  | .cancel handle =>
    match w.executions[handle]? with
    | some execution =>
      if execution.isFinished then w
      else
        w.setPhase handle execution
          (.calling [.updateTaskStatus (.failed "execution owner closed")])
    | none => w
  | .stop handle =>
    match w.executions[handle]? with
    | some execution => w.setPhase handle execution .finished
    | none => w
  | .tick nanos system =>
    { w with clock := { instant := w.clock.instant + nanos, system } }

end NetGet.TaskRunner
