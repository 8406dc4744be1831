import Spool.Library
import Spool.Pool.Basic
import Spool.Process.Basic
import Spool.Registry.Builtins

/-!
# The host

What all processes of a machine share: the registry, the module library, the background pool, and the
texts written so far.
-/

namespace Spool

/-- A call of a background function, on its way to the process that made it. -/
structure BackgroundCall where
  process : ProcessId
  /-- The task that stands for the call. -/
  carrier : TaskId
  body : Background
  receiver : Value
  argument : Value
  /-- Objects rooted for the duration of the call. -/
  held : List Handle
  deriving Inhabited

structure Host where
  registry : Registry := .initial
  library : Library := {}
  heapSettings : HeapSettings := {}
  pool : Pool BackgroundCall := {}
  out : String := ""
  err : String := ""
  /-- How many processes there have been. -/
  born : Nat := 0
  /-- Processes that have been made and wait for a place in the process table. -/
  nursery : List Process := []
  deriving Inhabited

namespace Process

/-- A process that has nothing to run yet, with the object that stands for it. -/
def seeded (id : ProcessId) (settings : HeapSettings) : Process :=
  let (r, heap) := (Heap.new settings).allocate .process (.process (some id))
  let heap := heap.modifyEntry r fun e => { e with roots := 1 }
  { id, heap, reflection := some r, modules := Bindings.ofList [(.builtins, .ready)] }

end Process

namespace Host

def writeOut (text : String) (h : Host) : Host := { h with out := h.out ++ text }

def writeErr (text : String) (h : Host) : Host := { h with err := h.err ++ text }

/-- The next process; its number is taken at once. -/
def newProcess (h : Host) : Process × Host :=
  (Process.seeded ⟨h.born + 1⟩ h.heapSettings, { h with born := h.born + 1 })

end Host

end Spool
