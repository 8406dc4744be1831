import Spool.World.Event

/-!
# Programs

Setting up a machine, giving it modules, and running one of them as the main process.
-/

namespace Spool

/-- What a machine is made with. -/
structure MachineRequest where
  heap : HeapRequest := {}
  pool : PoolRequest := {}
  library : Library := {}

namespace World

def create (r : MachineRequest) : Except HostError World := do
  let heapSettings ← r.heap.settings
  let settings ← r.pool.settings
  return { host := { heapSettings, library := r.library, pool := { settings } } }

/-! ## Modules -/

/-- An action that makes a machine ready. -/
abbrev Setup := ExceptT HostError (StateM World)

def onRegistry {α : Type} (act : Registry.Entry α) : Setup α := fun w =>
  let (result, registry) := act w.host.registry
  (result, { w with host := { w.host with registry } })

def register (m : CompiledModule) : Setup ModuleId := onRegistry (Library.register m)

def loadFile (path : String) : Setup ModuleId := do
  let library := (← get).host.library
  onRegistry (library.loadFile path)

/-! ## The main process -/

/-- A new process whose entry task runs the top level of a module. -/
def startMain (name : String) : Setup ProcessId := do
  let library := (← get).host.library
  let module ← onRegistry (library.resolve name)
  modifyGet fun w =>
    let (p, host) := w.host.newProcess
    let (entry, p) := p.startModule module none
    let p := { p with entryTask := some entry, queue := p.queue.push entry }
    (p.id, { w with host, processes := w.processes.push p })

/-- How a main process has ended. -/
structure ExitStatus where
  process : ProcessId
  /-- The value the program has exited with, or the result of its entry task. -/
  value : Value
  /-- The text of the value. -/
  text : String
  failed : Bool
  /-- Errors that nobody has handled. -/
  uncaught : Nat

def exitStatus (w : World) (id : ProcessId) : ExitStatus :=
  let p := w.processes.fetch id
  let entry := p.taskAt (p.entryTask.getD ⟨0⟩)
  let value := p.exitValue.getD entry.register
  { process := id
    value
    text := p.heap.display w.host.registry value
    failed := entry.state = .error
    uncaught := p.uncaught }

/-- The variables of a module in a process, by the text of their values; nothing if the process has no such
module. -/
def globals? (w : World) (id : ProcessId) (module : String) : Option (List (String × String)) := do
  let m ← w.host.registry.moduleNamed? module
  let heap := (w.processes.fetch id).heap
  let object ← heap.object? (← heap.reflection? (.ofModule m))
  return object.members.entries.map fun (name, v) => (name, heap.display w.host.registry v)

/-- Collects the garbage of a process; gives the number of reclaimed objects. -/
def collect (w : World) (id : ProcessId) : Nat × World :=
  let (reclaimed, p) := (w.processes.fetch id).collect w.host.registry
  (reclaimed.count, { w with processes := w.processes.set id p })

end World

end Spool
