import Spool.Heap.Copy
import Spool.World.Basic

/-!
# Background calls

What the functions do that run on the background pool. They work on the heap of the process that called
them, and may look into another.
-/

namespace Spool

/-- The state of a background call. -/
structure Errand where
  heap : Heap
  /-- Objects rooted for the duration of the call. -/
  held : List Handle

namespace Errand

def onHeap {α : Type} (act : Act Heap α) : Act Errand α := fun e =>
  let (result, heap) := act e.heap
  (result, { e with heap })

/-- Keeps a value alive until the call has been settled. -/
def hold (v : Value) : Act Errand Value := do
  if let .object r := v then
    onHeap (Heap.root r)
    modify fun e => { e with held := e.held ++ [r] }
  return v

def fetch (r : Handle) : Act Errand Object := ExceptT.mk do return (← get).heap.fetch r

def newText (s : String) : Act Errand Value := do
  hold (.object (← onHeap (Heap.create .string (.text s))))

/-- The text of an argument that has to be a String. -/
def textArgument (v : Value) : Act Errand String := do
  match v with
  | .object r =>
    match (← fetch r).text? with
    | some s => return s
    | none => throw (.type "String" "object")
  | _ => throw (.type "String" v.detail)

/-! ## Sleeping -/

/-- The milliseconds to sleep. -/
def sleepTime (v : Value) : Except Fault Float :=
  match v.scalar?.map Scalar.toFloat with
  | some ms =>
    if ms ≥ 0 then
      if ms / 1000 < 18446744073709551616 then .ok ms
      else .error (.message s!"cannot sleep for {Decimal.Layout.plain.text ms} milliseconds")
    else .error (.type "non-negative number of milliseconds" v.detail)
  | none => .error (.type "non-negative number of milliseconds" v.detail)

/-! ## Remote objects -/

/-- A member of an object in another heap. -/
def remoteMember (h : Heap) (r : Handle) (name : String) : Except Fault Value :=
  match h.object? r with
  | none => .error .remoteGone
  | some o =>
    match o.member? name with
    | some v => .ok v
    | none => .error (.noMember "remote object" name)

def remoteTarget (receiver : Value) : Act Errand RemoteRef := do
  match receiver with
  | .object r =>
    match (← fetch r).payload with
    | .remote target => return target
    | _ => throw (.type "Remote" "object")
  | _ => throw .stale

/-- Copies a value from another heap. -/
def carry (registry : Registry) (source : Heap) (v : Value) : Act Errand Value := onHeap fun heap =>
  let (result, copier) := Copier.copy source v (Copier.new source heap registry)
  (result, copier.target)

/-- A member of a remote object; it is copied if it comes from another process. -/
def remoteGet (w : World) (own : ProcessId) (receiver argument : Value) : Act Errand Value := do
  let name ← textArgument argument
  let target ← remoteTarget receiver
  if target.process = own then
    let v ← ExceptT.mk do return remoteMember (← get).heap target.object name
    hold v
  else
    match w.processes.get? target.process with
    | none => throw .remoteGone
    | some other =>
      let v ← ExceptT.mk (pure (remoteMember other.heap target.object name))
      hold (← carry w.host.registry other.heap v)

/-! ## All together -/

/-- What is reported of a call that breaks down. -/
def crashText (argument : Value) : String :=
  match argument.int? with
  | some n => if n = 0 then "host panic" else s!"host panic {Decimal.intText n.toInt}"
  | none => "unknown panic"

def run (w : World) (call : BackgroundCall) : Act Errand Value :=
  match call.body with
  | .sleep => ExceptT.mk (pure ((sleepTime call.argument).map fun _ => .none))
  | .remoteGet => remoteGet w call.process call.receiver call.argument
  | .wrap => do newText ("<" ++ (← textArgument call.argument) ++ ">")
  | .echo => pure call.argument
  | .fail => throw (.message "host failure")
  | .crash => throw (.message ("background call panicked: " ++ crashText call.argument))

end Errand

namespace BackgroundCall

/-- How long the call takes, in nanoseconds. -/
def duration (call : BackgroundCall) : Nat :=
  match call.body with
  | .sleep =>
    match Errand.sleepTime call.argument with
    | .ok ms => (ms * 1000000).toUInt64.toNat
    | .error _ => 0
  | _ => 0

end BackgroundCall

namespace World

/-- Does the work of a background call and leaves the result with the process that made it. -/
def performCall (w : World) (call : BackgroundCall) : World :=
  let heap := (w.processes.fetch call.process).heap
  let (result, errand) := (Errand.run w call).run { heap, held := call.held }
  let completion := { task := call.carrier, result, held := errand.held }
  { w with
    processes := w.processes.modify call.process fun p =>
      { p with heap := errand.heap, completions := p.completions ++ [completion] } }

end World

end Spool
