import Spool.Machine.Basic

/-!
# Futures

A future gives the outcome of a task. The first look at a finished task stores the result in the future.
-/

namespace Spool.Machine

/-- The outcome of a finished task. -/
structure Outcome where
  value : Value
  failed : Bool
  deriving Inhabited

/-- Stores the result of a finished task as a member of its future. -/
def memoize (future : Handle) (task : TaskId) (value : Value) : Act Machine Unit :=
  onHeap do
    Heap.setMember future "value" value
    Heap.putPayload future (.future ⟨task, true⟩)

/-- The outcome of a future's task, if it is finished. -/
def futureOutcome (future : Handle) : Act Machine (Option Outcome) := do
  let o ← fetch future
  match o.future? with
  | none => throw (.type "Future" ((← get).typeName (.object future)))
  | some cell =>
    let task := (← get).process.taskAt cell.task
    let failed := task.state = .error
    if cell.memoized then
      let value := (o.member? "value").getD .none
      return some { value, failed }
    else if task.state.isFinished then
      memoize future cell.task task.register
      return some { value := task.register, failed }
    else return none

end Spool.Machine
