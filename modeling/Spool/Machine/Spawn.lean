import Spool.Heap.Copy
import Spool.Machine.Basic

/-!
# Starting tasks and processes

A call of a function of the program, and the top level of a module, each run in a task of their own. A new
process gets copies of everything its first task needs.
-/

namespace Spool

namespace Process

/-- A new task that starts in a context of its own. -/
def startTask (p : Process) (parent : Option TaskId) (argument : Value) (context : TaskId → Context) :
    TaskId × Process :=
  let (t, p) := p.newTask parent
  let (c, p) := p.newContext (context t)
  (t, p.modifyTask t fun task => { task with contexts := [c], register := argument })

/-- A task for a call of a function that starts at a position of its module. -/
def startCall (p : Process) (registry : Registry) (b : BoundFunction) (start : Nat) (argument : Value)
    (parent : Option TaskId) : TaskId × Process :=
  p.startTask parent argument fun task =>
    { task
      kind := .function
      previous := b.capture
      receiver := b.receiver
      module := (registry.functionAt b.function).module
      function := some b.function
      cursor := start }

/-- A task for the top level of a module. -/
def startModule (p : Process) (module : ModuleId) (parent : Option TaskId) : TaskId × Process :=
  let (t, p) := p.startTask parent .none fun task => { task, kind := .moduleRoot, module, cursor := 0 }
  let p := p.modifyTask t fun task => { task with initializes := some module }
  (t, { p with modules := p.modules.insert module (.initializing t) })

/-- A parked task that stands for work done elsewhere. -/
def newCarrier (p : Process) (parent : TaskId) : TaskId × Process :=
  let (t, p) := p.newTask (some parent)
  (t, p.park t .onFuture)

end Process

namespace Machine

/-! ## Copying into a new process -/

/-- The copies a new process starts with. -/
structure Baggage where
  receiver : Value
  argument : Value
  globals : List (String × Value)

/-- Copies receiver, argument and the variables of a module with one copier, so that what they share stays
shared. -/
def pack (source : Heap) (receiver argument : Value) (moduleObject : Handle) : Act Copier Baggage := do
  let receiver ← Copier.copy source receiver
  let argument ← Copier.copy source argument
  let o ← ExceptT.mk (pure (source.fetch moduleObject))
  let globals ← o.members.entries.mapM fun (name, v) => return (name, ← Copier.copy source v)
  return { receiver, argument, globals }

/-- Sets the variables of a module of a new process. -/
def unpackModule (module : ModuleId) (globals : List (String × Value)) : Act Heap Unit := do
  let object ← Heap.reflect (.ofModule module)
  for (name, v) in globals do
    Heap.setMember object name v

/-- Fills the heap of a new process. -/
def furnish (source : Heap) (registry : Registry) (module : ModuleId) (receiver argument : Value)
    (moduleObject : Handle) : Act Heap Baggage := fun heap =>
  let copier := Copier.new source heap registry
  let (packed, copier) := pack source receiver argument moduleObject copier
  match packed with
  | .error e => (.error e, copier.target)
  | .ok baggage =>
    let (done, heap) := unpackModule module baggage.globals copier.target
    (done.map fun _ => baggage, heap)

/-- The first task of a new process, linked to the carrier that gets its result. -/
def launch (child : Process) (registry : Registry) (function : FunctionId) (start : Nat) (baggage : Baggage)
    (link : RemoteLink) : Process :=
  let module := (registry.functionAt function).module
  let child := { child with modules := child.modules.insert module .ready }
  let (entry, child) :=
    child.startCall registry { function, receiver := baggage.receiver } start baggage.argument none
  let child := child.modifyTask entry fun t => { t with remote := some link }
  { child with entryTask := some entry, queue := child.queue.push entry }

/-- A carrier for work that the running task has started elsewhere. -/
def newCarrier : StateM Machine TaskId := do
  let parent := (← get).task
  updateProcess fun p => p.newCarrier parent

/-- The function and the receiver of a callable object. -/
def entryPoint (callee : Value) : Act Machine BoundFunction := do
  let r ← expectObject callee "Function"
  match (← fetch r).payload with
  | .ofFunction function => return { function }
  | .bound b => return { function := b.function, receiver := b.receiver }
  | _ => throw (.notCallable ((← get).typeName callee))

/-- Starts a function as the first task of a new process; gives the process and a future for the result. -/
def spawn (callee argument : Value) : Act Machine (ProcessId × Value) := do
  let b ← entryPoint callee
  let registry := (← get).host.registry
  let function := registry.functionAt b.function
  match function.kind with
  | .user start =>
    let object ← moduleObject function.module
    let child ← modifyGet fun m =>
      let (child, host) := m.host.newProcess
      (child, { m with host })
    let carrier ← newCarrier
    let m ← get
    let (baggage, heap) :=
      furnish m.process.heap registry function.module b.receiver argument object child.heap
    let child := { child with heap }
    let child := match baggage with
      | .ok baggage => launch child registry b.function start baggage ⟨m.process.id, carrier⟩
      | .error _ => child
    modifyHost fun h => { h with nursery := h.nursery ++ [child] }
    match baggage with
    | .ok _ => return (child.id, ← newFuture carrier)
    | .error e => throw e
  | _ => throw (.message "a process must start with a user-defined function")

end Machine

end Spool
