import Spool.Process.Basic

/-!
# Waking and finishing tasks

A finished task hands its result, or the error it failed with, to the tasks that wait for it.
-/

namespace Spool.Process

/-- Puts a parked task back into the queue. -/
def wake (p : Process) (t : TaskId) : Process :=
  if (p.taskAt t).state.isFinished then p
  else
    { p with
      tasks := p.tasks.modify t.index fun t => { t with state := .running, reason := .notWaiting }
      waiting := p.waiting.erase t
      queue := p.queue.push t }

/-- Fails with an error that no context can take. -/
def failTask (p : Process) (t : TaskId) (error : Value) : Process :=
  p.modifyTask t fun t => { t with state := .error, register := error }

/-- Hands an error to a waiting task, which unwinds with it when it next runs. -/
def deliverError (p : Process) (t : TaskId) (error : Value) : Process :=
  match (p.taskAt t).top?, error with
  | some c, .object e => (p.modifyContext c fun c => { c with error := some e }).wake t
  | _, _ => p.failTask t error

/-- Hands the outcome of a task to one that waits for it. -/
def deliver (p : Process) (failed : Bool) (result : Value) (d : Dependent) : Process :=
  if (p.taskAt d.task).state.isFinished then p
  else if failed then p.deliverError d.task result
  else
    match d.delivery with
    | .result => (p.modifyTask d.task fun t => { t with register := result }).wake d.task
    | .keep => p.wake d.task

/-- The module of a task that runs a top level is ready when the task ends, however it ends. -/
def markReady (p : Process) : Option ModuleId → Process
  | some m => { p with modules := p.modules.insert m .ready }
  | none => p

/-- Takes a finished task off the books and hands its outcome on. -/
def finish (p : Process) (t : TaskId) : Process :=
  let task := p.taskAt t
  let p := p.modifyTask t fun t => { t with dependents := [], initializes := none }
  let p := p.markReady task.initializes
  let p := { p with waiting := p.waiting.erase t }
  let p := p.releaseTask t
  task.dependents.foldl (fun p d => p.deliver (task.state = .error) task.register d) p

/-- Nobody gets to see the failure of this task. -/
def isUnseenFailure (t : Task) : Bool :=
  t.state = .error && t.dependents.isEmpty && !t.observed && t.remote.isNone

end Spool.Process
