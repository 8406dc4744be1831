import Spool.Machine.Host
import Spool.Process.Basic

/-!
# Worlds

A machine as a whole: the host, all processes, and a clock by which background calls end.
-/

namespace Spool

/-!
## The process table

All processes of a machine in the order of their numbers, which start at one.
-/

def ProcessId.slot (p : ProcessId) : Nat := p.number - 1

structure Processes where
  items : Array Process := #[]
  deriving Inhabited

namespace Processes

def get? (ps : Processes) (p : ProcessId) : Option Process :=
  if p.number = 0 then none else ps.items[p.slot]?

def fetch (ps : Processes) (p : ProcessId) : Process := (ps.get? p).getD default

def push (ps : Processes) (p : Process) : Processes := ⟨ps.items.push p⟩

def modify (ps : Processes) (id : ProcessId) (f : Process → Process) : Processes :=
  if id.number = 0 then ps else ⟨ps.items.modify id.slot f⟩

def set (ps : Processes) (id : ProcessId) (p : Process) : Processes := ps.modify id fun _ => p

/-- Processes that have nothing but an empty heap. -/
def fresh (count : Nat) (settings : HeapSettings) : Processes :=
  ⟨((List.range count).map fun n => Process.new ⟨n + 1⟩ settings).toArray⟩

end Processes

/-! ## The whole -/

/-- When a worker of the pool will be done with its job. -/
structure Alarm where
  worker : WorkerId
  due : Nat
  deriving DecidableEq, Repr, Inhabited

structure World where
  host : Host := {}
  processes : Processes := {}
  /-- Nanoseconds. -/
  clock : Nat := 0
  /-- In the order in which the jobs were started. -/
  alarms : List Alarm := []
  deriving Inhabited

namespace World

/-- Gives new processes their place in the table. -/
def settleNursery (w : World) : World :=
  { w with
    processes := w.host.nursery.foldl Processes.push w.processes
    host := { w.host with nursery := [] } }

end World

end Spool
