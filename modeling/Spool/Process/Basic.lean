import Spool.Fifo
import Spool.Heap.Collect
import Spool.Process.Context
import Spool.Process.Task

/-!
# Processes

A process has a heap of its own, tasks that take turns, and the contexts they run in. Contexts that nothing
refers to any more are used again.
-/

namespace Spool

/-- How far the top level of a module has been run in a process. -/
inductive ModuleState where
  | initializing (task : TaskId)
  | ready
  deriving DecidableEq, Repr, Inhabited

/-- The outcome of a background call. -/
structure Completion where
  task : TaskId
  result : Except Fault Value
  /-- Objects rooted for the duration of the call. -/
  held : List Handle

/-- A finished task whose result belongs to another process. -/
structure Outgoing where
  task : TaskId
  link : RemoteLink
  deriving DecidableEq, Repr, Inhabited

/-- Where the scheduler of a process stands. -/
inductive Phase where
  | active
  /-- Asleep until there is something to do. -/
  | blocked
  | exited
  deriving DecidableEq, Repr, Inhabited

structure Process where
  id : ProcessId
  heap : Heap
  tasks : Array Task := #[]
  contexts : Array Context := #[]
  /-- Contexts to be used again, the next one first. -/
  freeContexts : List ContextId := []
  /-- Parked tasks. -/
  waiting : List TaskId := []
  modules : Bindings ModuleId ModuleState := {}
  /-- Background calls that have not been settled. -/
  inFlight : Nat := 0
  exitValue : Option Value := none
  /-- The object that stands for the process in its own heap. -/
  reflection : Option Handle := none
  /-- To be raised in the next task that runs. -/
  fault : Option Fault := none
  entryTask : Option TaskId := none
  uncaught : Nat := 0
  /-- Tasks that can run. -/
  queue : Fifo TaskId := {}
  completions : List Completion := []
  /-- Set by another process that has changed this one. -/
  poked : Bool := false
  outgoing : List Outgoing := []
  phase : Phase := .active
  deriving Inhabited

namespace Process

def new (id : ProcessId) (settings : HeapSettings) : Process := { id, heap := Heap.new settings }

/-! ## Tasks -/

def taskAt (p : Process) (t : TaskId) : Task := p.tasks.getD t.index default

def modifyTask (p : Process) (t : TaskId) (f : Task → Task) : Process :=
  { p with tasks := p.tasks.modify t.index f }

def newTask (p : Process) (parent : Option TaskId) : TaskId × Process :=
  (⟨p.tasks.size⟩, { p with tasks := p.tasks.push { parent } })

def enqueue (p : Process) (t : TaskId) : Process := { p with queue := p.queue.push t }

/-- Parks a task until something wakes it. -/
def park (p : Process) (t : TaskId) (reason : WaitReason) : Process :=
  { p with tasks := p.tasks.modify t.index (·.park reason), waiting := p.waiting.insert t }

/-- Something is ready to be run or settled. -/
def hasWork (p : Process) : Bool := !p.queue.isEmpty || !p.completions.isEmpty

/-! ## Contexts -/

def contextAt (p : Process) (c : ContextId) : Context := p.contexts.getD c.index default

def modifyContext (p : Process) (c : ContextId) (f : Context → Context) : Process :=
  { p with contexts := p.contexts.modify c.index f }

def newContext (p : Process) (c : Context) : ContextId × Process :=
  match p.freeContexts with
  | id :: free => (id, { p with freeContexts := free, contexts := p.contexts.setIfInBounds id.index c })
  | [] => (⟨p.contexts.size⟩, { p with contexts := p.contexts.push c })

/-- Empties a context and gives it back, unless something still refers to it. -/
def releaseContext (p : Process) (c : ContextId) : Process :=
  if (p.contextAt c).pinned then p
  else
    let p := p.modifyContext c fun c => { c with locals := {}, error := none, receiver := .none }
    { p with freeContexts := c :: p.freeContexts }

/-- A context and those around it, as many as there is fuel for. -/
def chainFrom (p : Process) : (fuel : Nat) → ContextId → List ContextId
  | 0, _ => []
  | fuel + 1, c =>
    match (p.contextAt c).previous with
    | some previous => c :: p.chainFrom fuel previous
    | none => [c]

def chain (p : Process) (c : ContextId) : List ContextId := p.chainFrom p.contexts.size c

def pinFrom : (fuel : Nat) → ContextId → Process → Process
  | 0, _, p => p
  | fuel + 1, c, p =>
    let context := p.contextAt c
    if context.pinned then p
    else
      let p := p.modifyContext c fun c => { c with pinned := true }
      match context.previous with
      | some previous => pinFrom fuel previous p
      | none => p

/-- Keeps a context and those around it from being used again. -/
def pin (p : Process) (c : ContextId) : Process := pinFrom p.contexts.size c p

/-- Gives back all contexts of a task, the innermost first. -/
def releaseTask (p : Process) (t : TaskId) : Process :=
  let contexts := (p.taskAt t).contexts
  contexts.foldl releaseContext (p.modifyTask t fun t => { t with contexts := [] })

/-! ## Collecting garbage -/

/-- Visits a context and those around it, but none that has been visited before: as many as there is fuel for. -/
def visitFrom (p : Process) : (fuel : Nat) → ContextId → StateM (Array Bool) (List Value)
  | 0, _ => return []
  | fuel + 1, c => do
    if (← get).getD c.index false then return []
    modify fun visited => visited.setIfInBounds c.index true
    match (p.contextAt c).previous with
    | some previous => return (p.contextAt c).values ++ (← p.visitFrom fuel previous)
    | none => return (p.contextAt c).values

def visitChain (p : Process) (c : ContextId) : StateM (Array Bool) (List Value) :=
  p.visitFrom (p.contexts.size + 1) c

/-- The register and the stack of an unfinished task, and what is in its contexts, from the outermost on. -/
def visitTask (p : Process) (t : Task) : StateM (Array Bool) (List Value) := do
  if t.state.isFinished then return []
  let chains ← t.contexts.reverse.mapM p.visitChain
  return t.values ++ chains.flatten

def entryResult (p : Process) : List Value :=
  (p.entryTask.bind fun t => p.tasks[t.index]?).toList.map Task.register

/-- What the process keeps alive: its exit value, the result of its entry task, and the registers, stacks
and contexts of its unfinished tasks. A closure keeps its context alive, a future the result of its task.
No context is visited twice in one collection. -/
def coreRoots (p : Process) : RootProvider where
  State := Array Bool
  start := Array.replicate p.contexts.size false
  roots := do
    let tasks ← p.tasks.toList.mapM p.visitTask
    return p.exitValue.toList ++ p.entryResult ++ tasks.flatten
  behind
    | .context c => p.visitChain c
    | .task t => return p.tasks[t.index]?.toList.map Task.register

def collect (p : Process) (registry : Registry) : Reclaimed × Process :=
  let (reclaimed, heap) := p.heap.collect registry p.coreRoots
  (reclaimed, { p with heap })

/-! ## Calling tasks -/

/-- A task, its parent and so on, as many as there is fuel for. -/
def ancestryFrom (p : Process) : (fuel : Nat) → TaskId → List TaskId
  | 0, _ => []
  | fuel + 1, t =>
    match (p.taskAt t).parent with
    | some parent => t :: p.ancestryFrom fuel parent
    | none => [t]

/-- A parent is older than its children, so there is fuel for all. -/
def ancestry (p : Process) (t : TaskId) : List TaskId := p.ancestryFrom (p.tasks.size + 1) t

end Process

end Spool
