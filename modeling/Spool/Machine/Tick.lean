import Spool.Machine.Run

/-!
# The scheduler of a process

A round of the scheduler settles the background calls that have come back, runs the first task of the queue
and collects garbage if enough has piled up. When nothing is left to run or to wait for, the process exits.
-/

namespace Spool.Machine

/-- Drops a root; an object that is gone already needs none. -/
def release (r : Handle) : StateM Machine Unit := do
  discard (onHeap (Heap.unroot r)).run

/-- Ends the running task, which is a carrier, with the outcome of the work it stands for. -/
def endCarrier (result : Except Fault Value) (state : TaskState) : StateM Machine Unit := do
  let (state, register) ← match result with
    | .ok v => pure (state, v)
    | .error fault => pure (.error, .object (← errorObject fault))
  modifyCurrent fun t => { t with state, register }
  finishTask (← get).task

/-- Hands the result of a background call to its carrier. -/
def settle (c : Completion) : StateM Machine Unit := do
  modify fun m => { m with task := c.task }
  c.held.forM release
  modifyProcess fun p => { p with inFlight := p.inFlight - 1 }
  endCarrier c.result .complete

def settleAll : StateM Machine Unit := do
  let completions := (← get).process.completions
  modifyProcess fun p => { p with completions := [] }
  completions.forM settle

/-- Keeps the result of a task for another process until it has been copied there. -/
def sendResult (link : RemoteLink) : StateM Machine Unit := do
  let m ← get
  if let .object r := m.register then
    discard (onHeap (Heap.root r)).run
  modifyProcess fun p => { p with outgoing := p.outgoing ++ [⟨m.task, link⟩] }

/-- Finishes the running task if it has come to its end. -/
def conclude : StateM Machine Unit := do
  let m ← get
  if m.current.state.isFinished then
    if let some link := m.current.remote then sendResult link
    finishTask m.task

/-- Runs a task and finishes it if it comes to its end. -/
def runTask (fuel : Nat) (t : TaskId) (m : Machine) : Option Machine :=
  (run fuel { m with task := t }).map fun m => (conclude.run m).2

/-- Runs the first task of the queue; tells whether there was one. -/
def runNext (fuel : Nat) (m : Machine) : Option (Bool × Machine) :=
  match m.process.queue.pop? with
  | some (t, queue) => (runTask fuel t { m with process := { m.process with queue } }).map fun m => (true, m)
  | none => some (false, m)

/-- Collects garbage if it is time. A fault that follows is for the next task that runs. -/
def tidy : StateM Machine Unit := do
  if (← get).process.heap.shouldCollect then
    discard collectGarbage
    if let some fault := (← get).process.heap.overLimit? then
      modifyProcess fun p => { p with fault := some fault }

/-- Nothing is left to run or to wait for. -/
def isDone (p : Process) : Bool := p.waiting.isEmpty && p.inFlight = 0 && !p.hasWork

/-- Where the scheduler stands after a round. -/
def phaseAfter (progressed : Bool) (p : Process) : Phase :=
  if progressed then .active else if isDone p then .exited else .blocked

/-- One round of the scheduler; nothing if the fuel does not last. -/
def tick (fuel : Nat) (m : Machine) : Option Machine :=
  let settled := !m.process.completions.isEmpty
  let (_, m) := settleAll.run m
  (runNext fuel m).map fun (ran, m) =>
    let (_, m) := tidy.run m
    { m with process := { m.process with phase := phaseAfter (settled || ran) m.process } }

end Spool.Machine
