import Spool.Machine.Step

/-!
# Running a task

A task runs until it is finished or parked. Between instructions errors are handled and, when the heap has
grown enough, garbage is collected.
-/

namespace Spool.Machine

/-- Carries an error outward through contexts to the nearest handler; those without a handler are left.
False if there is no handler: then the task has failed. -/
def unwindThrough (error : Handle) : List ContextId → StateM Machine Bool
  | [] => do
    modifyCurrent fun t => { t with contexts := [], register := .object error, state := .error }
    return false
  | c :: outer => do
    match ((← get).process.contextAt c).handler with
    | some position =>
      modifyProcess fun p => p.modifyContext c fun c =>
        { c with error := none, handler := none, cursor := position }
      modifyCurrent fun t => { t with contexts := c :: outer, register := .object error }
      return true
    | none =>
      modifyProcess fun p => (p.modifyContext c fun c => { c with error := none }).releaseContext c
      unwindThrough error outer

def unwind (error : Handle) : StateM Machine Bool := do
  unwindThrough error (← get).current.contexts

/-- Collects garbage. True if there are too many objects even then, and the fault has been raised. -/
def safepoint : StateM Machine Bool := do
  discard collectGarbage
  match (← get).process.heap.overLimit? with
  | some fault => raise fault; return true
  | none => return false

def complete : StateM Machine Unit := modifyCurrent fun t => { t with state := .complete }

/-- Does one instruction. True if the task goes on. -/
def perform (top : ContextId) (position : Nat) (i : Instruction) : StateM Machine Bool := do
  match ← (step top position i).run with
  | .ok .next => setCursor top (position + 1); return true
  | .ok (.jump target) => setCursor top target; return true
  | .ok .stay => return true
  | .ok .suspend => setCursor top (position + 1); return false
  | .ok .finished => complete; return false
  | .error fault => raise fault; return true

/-- Goes on by one instruction, one unwinding or one collection. True if there is more to do. The end of the
tape is a return. -/
def advance : StateM Machine Bool := do
  let m ← get
  match m.top? with
  | none => complete; return false
  | some top =>
    let context := m.process.contextAt top
    match context.error with
    | some error => unwind error
    | none =>
      if m.process.heap.shouldCollect then
        if ← safepoint then return true
      match (m.host.registry.moduleAt context.module).tape.instructions[context.cursor]? with
      | none => complete; return false
      | some i => perform top context.cursor i

/-- Marks the task as running, and raises the fault that the process has in store. -/
def resume : StateM Machine Unit := do
  modifyCurrent fun t => { t with state := .running, reason := .notWaiting }
  match (← get).process.fault with
  | some fault =>
    modifyProcess fun p => { p with fault := none }
    raise fault
  | none => return

/-- Goes on until there is no more to do; nothing if the fuel does not last. -/
def runFrom : (fuel : Nat) → Machine → Option Machine
  | 0, _ => none
  | fuel + 1, m =>
    match advance.run m with
    | (true, m) => runFrom fuel m
    | (false, m) => some m

/-- Runs the task until it is finished or parked. -/
def run (fuel : Nat) (m : Machine) : Option Machine :=
  if m.current.state.isFinished then some m else runFrom fuel (resume.run m).2

/-- Finishes a task of the process; a failure that nobody gets to see is reported. -/
def finishTask (t : TaskId) : StateM Machine Unit := do
  let task := (← get).process.taskAt t
  modifyProcess fun p => p.finish t
  if Process.isUnseenFailure task then reportUncaught task.register

end Spool.Machine
