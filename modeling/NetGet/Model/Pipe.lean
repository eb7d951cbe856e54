import NetGet.Library.Reachability
import NetGet.Model.Basic

/-! # Pipes between servers -/

namespace NetGet

open Library

structure PipeSpec where
  id : PipeId
  source : ServerId
  target : ServerId
  deriving DecidableEq

/-- The servers that `node` forwards to, in the order of the pipes. -/
def pipeTargets (existing : List PipeSpec) (node : ServerId) : List ServerId :=
  (existing.filter fun e => e.source = node).map PipeSpec.target

/-- Whether the edge from `source` to `target` would close a cycle. Each server enters the
stack at most once, so one turn for the target and one for each pipe are enough. -/
def wouldCreateCycle (existing : List PipeSpec) (source target : ServerId) : Bool :=
  if source = target then true
  else
    Reachability.search (pipeTargets existing) source (existing.length + 1) [target] [target]

end NetGet
