import NetGet.Model.Basic

/-! # Scheduled tasks

`clockRange` is the last instant the monotonic clock can represent. -/

namespace NetGet

inductive TaskScope where
  | global
  | server (sid : ServerId)
  | connection (sid : ServerId) (cid : ConnectionId)
  | client (cid : ClientId)
  deriving DecidableEq

inductive TaskType where
  | oneShot (delaySecs : ℕ)
  | recurring (intervalSecs : ℕ) (maxExecutions : Option ℕ) (executionsCount : ℕ)
  deriving DecidableEq

inductive TaskStatus where
  | scheduled
  | executing
  | completed
  | failed (error : String)
  deriving DecidableEq

structure ScheduledTask where
  id : TaskId
  name : String
  scope : TaskScope
  taskType : TaskType
  status : TaskStatus
  nextExecution : Instant
  lastError : Option String
  failureCount : ℕ

/-- What a run of a task reports. The actions it ran are not read again. -/
structure TaskExecutionResult where
  success : Bool
  error : Option String
  deriving DecidableEq

/-- Reject unrepresentable delays instead of panicking, clamping or executing early. -/
def checkedTaskDeadline (clockRange : Instant) (clock : Clock) (seconds : ℕ) :
    Except String Instant :=
  let deadline := clock.instant + seconds * nanosPerSec
  if deadline ≤ clockRange then .ok deadline
  else
    .error ("scheduled task delay/interval of " ++ toString seconds ++
      " seconds exceeds the supported clock range")

namespace ScheduledTask

def executionsCount (task : ScheduledTask) : ℕ :=
  match task.taskType with
  | .recurring _ _ executionsCount => executionsCount
  | .oneShot _ => 0

def maxExecutions (task : ScheduledTask) : Option ℕ :=
  match task.taskType with
  | .recurring _ maxExecutions _ => maxExecutions
  | .oneShot _ => none

def isMaxExecutionsReached (task : ScheduledTask) : Bool :=
  match task.taskType with
  | .recurring _ (some max) executionsCount => decide (executionsCount ≥ max)
  | _ => false

end ScheduledTask

end NetGet
