import Spool.Machine.Future
import Spool.Machine.Spawn
import Spool.Machine.Trace

/-!
# Native functions

The bodies of the functions that run inline in the calling task. Each gets a receiver, which is none for
free functions, and one argument.
-/

namespace Spool.Machine

/-! ## Texts -/

/-- The text to print for an argument; several arguments come as a tuple and are printed with blanks
between them. -/
def argumentText (m : Machine) (v : Value) : String :=
  match (v.handle?.bind m.process.heap.object?).bind Object.tuple? with
  | some items => String.intercalate " " (items.toList.map m.display)
  | none => m.display v

def errorText (m : Machine) (v : Value) : String :=
  if m.isInstance v .error then m.renderError v else m.argumentText v ++ "\n"

/-- The value itself if it is a String, else its text. -/
def asText (v : Value) : Act Machine Value := do
  let m ← get
  if (m.text? v).isSome then return v else newText (m.display v)

def concat (receiver argument : Value) : Act Machine Value := do
  let m ← get
  match m.text? receiver with
  | some text => newText (text ++ m.display argument)
  | none => throw (.type "String" (m.typeName receiver))

/-- Bytes of a String, items of an Array or Tuple; none has no length but zero. -/
def length (v : Value) : Act Machine Value := do
  let refused := Fault.type "String, Array or Tuple" ((← get).typeName v)
  match v with
  | .none => return .ofNat 0
  | .object r =>
    match (← fetch r).payload with
    | .text s => return .ofNat s.utf8ByteSize
    | .array items => return .ofNat items.size
    | .tuple items => return .ofNat items.size
    | _ => throw refused
  | _ => throw refused

/-! ## Classes and errors -/

/-- The class that a value stands for. -/
def expectClass (v : Value) : Act Machine ClassId := do
  let refused := Fault.type "Class" ((← get).typeName v)
  match v with
  | .object r =>
    match (← fetch r).payload with
    | .ofClass c => return c
    | _ => throw refused
  | _ => throw refused

/-- Changes the superclass of a class, given as a pair of both. -/
def setSuper (argument : Value) : Act Machine Value := do
  let r ← expectObject argument "Tuple"
  match ((← fetch r).tuple?).map Array.toList with
  | some [c, s] =>
    let c ← expectClass c
    let s ← expectClass s
    match (← get).host.registry.rebase c s with
    | .ok registry =>
      modifyHost fun h => { h with registry }
      return .none
    | .error e => throw (.inheritance e.text)
  | _ => throw (.type "(class, superclass)" ((← get).typeName argument))

def errorNew (receiver argument : Value) : Act Machine Value := do
  let r ← expectObject receiver "Error"
  let message ← if argument.isNone then newText "" else asText argument
  initError r message
  return receiver

/-! ## Futures, tasks and contexts -/

def futureGet (receiver : Value) : Act Machine Value := do
  let r ← expectObject receiver "Future"
  match ← futureOutcome r with
  | some outcome => return outcome.value
  | none => throw (.message "future is not complete")

def taskState (t : TaskId) : Act Machine Value := do
  newText ((← get).process.taskAt t).state.name

def contextFunction (c : ContextId) : Act Machine Value := do
  match ((← get).process.contextAt c).function with
  | some f => reflect (.ofFunction f)
  | none => return .none

/-! ## Processes -/

def newRemote (process : ProcessId) (argument : Value) : Act Machine Value := do
  let object ← expectObject argument "object"
  newHolder .remote (.remote { process, object })

def processStart (receiver argument : Value) : Act Machine Value := do
  let r ← expectObject receiver "Process"
  let o ← fetch r
  if let .process (some id) := o.payload then
    throw (.message s!"process {id.number} has already been started")
  match o.member? "function" with
  | none => throw (.message "process has no entry function")
  | some callee =>
    let (id, future) ← spawn callee argument
    onHeap (Heap.putPayload r (.process (some id)))
    return future

/-! ## All together -/

/-- The payload of a receiver that has to be an object. -/
def receiverPayload (receiver : Value) (expected : String) : Act Machine Payload := do
  let r ← expectObject receiver expected
  return (← fetch r).payload

/-- Runs a native function. -/
def runNative (receiver argument : Value) : Native → Act Machine Value
  | .print => do
    let text := (← get).argumentText argument
    modifyHost (Host.writeOut text)
    return .none
  | .println => do
    let text := (← get).argumentText argument
    modifyHost (Host.writeOut (text ++ "\n"))
    return .none
  | .errorln => do
    let text := (← get).errorText argument
    modifyHost (Host.writeErr text)
    return .none
  | .str => asText argument
  | .len => length argument
  | .setSuper => setSuper argument
  | .remote => do newRemote (← get).process.id argument
  | .currentTask => do newHolder .task (.task (← get).task)
  | .currentContext => do
    match (← get).top? with
    | some c =>
      modifyProcess fun p => p.pin c
      newHolder .context (.context c)
    | none => return .none
  | .ownLen => length receiver
  | .concat => concat receiver argument
  | .arrayPush => do
    let r ← expectObject receiver "Array"
    return .ofNat (← onHeap (Heap.arrayPush r argument))
  | .arrayPop => do
    let r ← expectObject receiver "Array"
    match ← onHeap (Heap.arrayPop r) with
    | some v => return v
    | none => throw (.index (-1) 0)
  | .errorNew => errorNew receiver argument
  | .futureIsComplete => do
    let r ← expectObject receiver "Future"
    return .ofBool (← futureOutcome r).isSome
  | .futureGet => futureGet receiver
  | .taskId => do
    match ← receiverPayload receiver "Task" with
    | .task t => return .ofNat t.index
    | _ => return .none
  | .taskState => do
    match ← receiverPayload receiver "Task" with
    | .task t => taskState t
    | _ => return .none
  | .contextModule => do
    match ← receiverPayload receiver "Context" with
    | .context c => reflect (.ofModule ((← get).process.contextAt c).module)
    | _ => return .none
  | .contextFunction => do
    match ← receiverPayload receiver "Context" with
    | .context c => contextFunction c
    | _ => return .none
  | .processNew => do
    let r ← expectObject receiver "Process"
    onHeap (Heap.setMember r "function" argument)
    return receiver
  | .processStart => processStart receiver argument
  | .processNumber => do
    match ← receiverPayload receiver "Process" with
    | .process (some id) => return .ofNat id.number
    | _ => return .none
  | .pair => newTuple [receiver, argument]
  | .lost => newRemote ⟨99⟩ argument
  | .collect => do
    return .ofNat (← collectGarbage)

end Spool.Machine
