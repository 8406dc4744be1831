import Spool.Machine.Tick
import Spool.Pool.Basic
import Spool.World.Background

/-!
# Events

What can happen in a world, each event as one step: a round of a scheduler, the delivery of a result to
another process, and the work of the background pool. An event that cannot happen changes nothing.
-/

namespace Spool

namespace World

/-! ## Rounds of a scheduler -/

/-- A scheduler makes a round when it is awake and has sent off all results. -/
def canTick (p : Process) : Bool :=
  p.outgoing.isEmpty &&
    match p.phase with
    | .active => true
    | .blocked => p.hasWork || p.poked
    | .exited => false

/-- A sleeping scheduler takes note of what has woken it. -/
def awaken (p : Process) : Process := if p.phase = .blocked then { p with poked := false } else p

def tick (fuel : Nat) (id : ProcessId) (w : World) : Option World :=
  match w.processes.get? id with
  | none => some w
  | some p =>
    if canTick p then
      (Machine.tick fuel { host := w.host, process := awaken p, task := ⟨0⟩ }).map fun m =>
        { w with host := m.host, processes := w.processes.set id m.process }.settleNursery
    else some w

/-! ## Results for other processes -/

/-- Takes a result that has been copied off the books of its process. -/
def sent (source : Process) (result : Value) : Process :=
  let heap := match result with
    | .object r => (Heap.unroot r source.heap).2
    | _ => source.heap
  { source with heap, outgoing := source.outgoing.tail }

/-- Copies the first result in line into the process that waits for it, and ends the carrier there. -/
def deliver (id : ProcessId) (w : World) : World :=
  let source := w.processes.fetch id
  match source.outgoing with
  | [] => w
  | out :: _ =>
    let target := w.processes.fetch out.link.process
    let task := source.taskAt out.task
    let (copied, copier) :=
      Copier.copy source.heap task.register (Copier.new source.heap target.heap w.host.registry)
    let m : Machine :=
      { host := w.host, process := { target with heap := copier.target }, task := out.link.task }
    let (_, m) := (Machine.endCarrier copied task.state).run m
    let processes := w.processes.set id (sent source task.register)
    { w with host := m.host, processes := processes.set out.link.process { m.process with poked := true } }

/-! ## The background pool -/

def modifyPool (f : Pool BackgroundCall → Pool BackgroundCall) (w : World) : World :=
  { w with host := { w.host with pool := f w.host.pool } }

/-- A worker looks for a job and starts it. -/
def engage (worker : WorkerId) (w : World) : World :=
  if (w.host.pool.workerAt worker).isBusy then w
  else
    let w := modifyPool (fun p => p.engage worker) w
    match (w.host.pool.workerAt worker).activity with
    | .running call => { w with alarms := w.alarms ++ [⟨worker, w.clock + call.duration⟩] }
    | _ => w

/-- A worker ends its job when its time has come. -/
def complete (alarm : Alarm) (w : World) : World :=
  match (w.host.pool.workerAt alarm.worker).activity with
  | .running call =>
    let w := { w with clock := max w.clock alarm.due, alarms := w.alarms.erase alarm }
    modifyPool (fun p => p.finish alarm.worker) (w.performCall call)
  | _ => w

/-! ## All together -/

inductive Event where
  | tick (p : ProcessId)
  | deliver (p : ProcessId)
  | engage (worker : WorkerId)
  | complete (alarm : Alarm)
  deriving DecidableEq, Repr, Inhabited

/-- The world after an event; nothing if the fuel does not last. -/
def step (fuel : Nat) (w : World) : Event → Option World
  | .tick p => w.tick fuel p
  | .deliver p => some (w.deliver p)
  | .engage worker => some (w.engage worker)
  | .complete alarm => some (w.complete alarm)

/-!
## Running a world

Any event that can happen may happen next. Here they happen in a fixed order: processes act before the background pool does,
those with low numbers first, and background calls end in the order of their time.
-/

/-- What a process can do next. -/
def processEvent? (p : Process) : Option Event :=
  if !p.outgoing.isEmpty then some (.deliver p.id)
  else if canTick p then some (.tick p.id)
  else none

/-- Some job waits in a queue. -/
def hasQueuedJobs (w : World) : Bool :=
  w.host.pool.members.any fun m => !(w.host.pool.workerAt m).queue.isEmpty

/-- An idle worker while there are jobs. -/
def engageEvent? (w : World) : Option Event :=
  if w.hasQueuedJobs then
    (w.host.pool.members.find? fun m => !(w.host.pool.workerAt m).isBusy).map Event.engage
  else none

/-- The alarm that is due first; of several the one set first. -/
def nextAlarm? : List Alarm → Option Alarm
  | [] => none
  | first :: rest => some (rest.foldl (fun best a => if a.due < best.due then a else best) first)

/-- What happens next, if anything can. -/
def nextEvent? (w : World) : Option Event :=
  w.processes.items.toList.findSome? processEvent?
    <|> w.engageEvent?
    <|> (nextAlarm? w.alarms).map Event.complete

/-- All processes have come to their end. -/
def isOver (w : World) : Bool := w.processes.items.all fun p => p.phase = .exited

/-- Lets events happen until none can; nothing if the fuel does not last. -/
def run : (fuel : Nat) → World → Option World
  | 0, _ => none
  | fuel + 1, w =>
    match w.nextEvent? with
    | none => some w
    | some e =>
      match w.step fuel e with
      | some w => run fuel w
      | none => none

/-!
## Slices

A process can be run task by task, to look at what each task leaves behind: the first task of the queue runs
until it is finished or parked, and nothing else happens.
-/

/-- Runs the first task of a process's queue, and tells which one it was. A task that has come to its end is
not finished yet. -/
def runSlice (fuel : Nat) (id : ProcessId) (w : World) : Option (Option TaskId × World) :=
  let p := w.processes.fetch id
  match p.queue.pop? with
  | none => some (none, w)
  | some (t, queue) =>
    (Machine.run fuel { host := w.host, process := { p with queue }, task := t }).map fun m =>
      (some t, { w with host := m.host, processes := w.processes.set id m.process }.settleNursery)

/-- Finishes a task that has come to its end. -/
def finishSlice (id : ProcessId) (t : TaskId) (w : World) : World :=
  let p := w.processes.fetch id
  if (p.taskAt t).state.isFinished then
    let (_, m) := (Machine.finishTask t).run { host := w.host, process := p, task := t }
    { w with host := m.host, processes := w.processes.set id m.process }
  else w

end World

end Spool
