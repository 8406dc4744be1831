import Spool.Machine.Basic
import Spool.Process.Basic

/-!
# Errors and stack traces

Faults become error objects with a message and a stack trace, one line for each task on the way to the
fault. An error that nobody handles is written to the error output.
-/

namespace Spool

structure TraceLine where
  module : String
  function : String
  place : Place
  text : String
  deriving DecidableEq, Repr, Inhabited

/-- The name of a function in a trace, after its class if it is a method. -/
def Registry.qualifiedName (r : Registry) (f : FunctionId) : String :=
  let function := r.functionAt f
  match function.owner with
  | some c => r.className c ++ "." ++ function.name
  | none => function.name

namespace Machine

/-! ## Stack traces -/

/-- No trace is longer. -/
def traceLimit : Nat := 257

/-- Where a task stands. A caller stands one past its call. -/
def traceLine (m : Machine) (innermost : Bool) (t : TaskId) : Option TraceLine :=
  (m.process.taskAt t).top?.map fun c =>
    let context := m.process.contextAt c
    let position := if innermost then context.cursor else context.cursor - 1
    let module := m.host.registry.moduleAt context.module
    let place := (module.tape.place? position).getD ⟨0, 0⟩
    { module := module.name
      function := match context.function with
        | some f => m.host.registry.qualifiedName f
        | none => "<module>"
      place
      text := (module.tape.lineText? place.line.toNat).getD "" }

/-- The running task and its callers, the innermost first. -/
def stackTrace (m : Machine) : List TraceLine :=
  let lines := (m.process.ancestry m.task).zipIdx.filterMap fun (t, depth) => m.traceLine (depth = 0) t
  lines.take traceLimit

def newTraceLine (line : TraceLine) : Act Machine Value := do
  let r ← newObject .stackLine
  let module ← newText line.module
  let function ← newText line.function
  let text ← newText line.text
  onHeap do
    Heap.setMember r "module" module
    Heap.setMember r "function" function
    Heap.setMember r "line" (.ofNat line.place.line.toNat)
    Heap.setMember r "col" (.ofNat line.place.column.toNat)
    Heap.setMember r "text" text
  return .object r

def newTrace : Act Machine Value := do
  newArray (← (← get).stackTrace.mapM newTraceLine)

/-! ## Error objects -/

/-- Gives an error object its message and the trace of the running task. -/
def initError (r : Handle) (message : Value) : Act Machine Unit := do
  let trace ← newTrace
  onHeap do
    Heap.setMember r "message" message
    Heap.setMember r "stacktrace" trace

/-- A new error object. -/
def newError (message : String) : StateM Machine Handle := do
  let r ← newObject .error
  let message ← newText message
  discard (initError r message).run
  return r

/-- The error object for a fault; a fault that brings a live object along has one already. -/
def errorObject (fault : Fault) : StateM Machine Handle := do
  match fault with
  | .raised r => if (← get).process.heap.isLive r then return r else newError fault.text
  | _ => newError fault.text

/-- Leaves an error with the innermost context, which unwinds before the next instruction. A task without
contexts fails. -/
def raise (fault : Fault) : StateM Machine Unit := do
  let error ← errorObject fault
  match (← get).top? with
  | some c => modifyProcess fun p => p.modifyContext c fun c => { c with error := some error }
  | none => modifyCurrent fun t => { t with register := .object error, state := .error }

/-! ## Reporting -/

/-- The text of a member, or nothing if there is no such member. -/
def memberText (m : Machine) (o : Object) (name : String) : String :=
  ((o.member? name).map m.display).getD ""

def frameText (m : Machine) (frame : Object) : String :=
  let text := m.memberText frame
  "  at " ++ text "module" ++ "." ++ text "function" ++ " (" ++ text "line" ++ ":" ++ text "col" ++ ") "
    ++ text "text" ++ "\n"

/-- The objects in the stack trace of an error. -/
def frames (m : Machine) (error : Object) : List Object :=
  let heap := m.process.heap
  let trace := ((error.member? "stacktrace").bind Value.handle?).bind heap.object?
  let items := ((trace.bind Object.array?).getD #[]).toList
  items.filterMap fun v => v.handle?.bind heap.object?

/-- The class and message of an error, and a line for each line of its trace. -/
def renderError (m : Machine) (error : Value) : String :=
  match error with
  | .object r =>
    match m.process.heap.object? r with
    | some o =>
      m.typeName error ++ ": " ++ m.memberText o "message" ++ "\n"
        ++ String.join ((m.frames o).map m.frameText)
    | none => "error: <stale>\n"
  | _ => "error: " ++ m.display error ++ "\n"

/-- Writes an error that nobody handles. -/
def reportUncaught (error : Value) : StateM Machine Unit := do
  let text := (← get).renderError error
  modifyHost (Host.writeErr text)
  modifyProcess fun p => { p with uncaught := p.uncaught + 1 }

end Machine

end Spool
