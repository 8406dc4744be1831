import Spool.Id
import Spool.Value

/-!
# Tasks

A task is one thread of control of a process: a module's top level, one call, or the carrier of work done
elsewhere. A task that cannot go on is parked until the task it depends on is finished.
-/

namespace Spool

inductive TaskState where
  | new
  | running
  | waiting
  | complete
  | error
  deriving DecidableEq, Repr, Inhabited

namespace TaskState

def isFinished : TaskState → Bool
  | complete => true
  | error => true
  | _ => false

def name : TaskState → String
  | new => "new"
  | running => "running"
  | waiting => "waiting"
  | complete => "complete"
  | error => "error"

end TaskState

inductive WaitReason where
  | notWaiting
  | toStart
  | onCall
  | onFuture
  deriving DecidableEq, Repr, Inhabited

/-- What a waiting task gets when the task it depends on is complete. -/
inductive Delivery where
  /-- The result, in its register. -/
  | result
  /-- Nothing. -/
  | keep
  deriving DecidableEq, Repr, Inhabited

structure Dependent where
  task : TaskId
  delivery : Delivery
  deriving DecidableEq, Repr, Inhabited

/-- The task of another process that a result has to be copied to. -/
structure RemoteLink where
  process : ProcessId
  task : TaskId
  deriving DecidableEq, Repr, Inhabited

structure Task where
  state : TaskState := .new
  reason : WaitReason := .toStart
  /-- The innermost context first. -/
  contexts : List ContextId := []
  /-- The top of the stack first. -/
  stack : List Value := []
  /-- The result register. -/
  register : Value := .none
  parent : Option TaskId := none
  dependents : List Dependent := []
  remote : Option RemoteLink := none
  /-- A future refers to this task, so a failure is not reported. -/
  observed : Bool := false
  /-- The module whose top level the task runs. -/
  initializes : Option ModuleId := none
  deriving Inhabited

namespace Task

def top? (t : Task) : Option ContextId := t.contexts.head?

def park (t : Task) (reason : WaitReason) : Task := { t with state := .waiting, reason }

def addDependent (t : Task) (task : TaskId) (delivery : Delivery) : Task :=
  { t with dependents := t.dependents ++ [⟨task, delivery⟩] }

/-- What the register and the stack keep alive. -/
def values (t : Task) : List Value := t.register :: t.stack

end Task

end Spool
