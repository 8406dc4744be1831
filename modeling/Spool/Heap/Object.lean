import Spool.Bindings
import Spool.Id
import Spool.Registry.Basic
import Spool.Value

/-!
# Objects

An object has a class, members by name, and a payload that depends on its class. The objects that its
members and payload hold are its edges.
-/

namespace Spool

/-- A function with its receiver and, if it closes over one, a context. -/
structure BoundFunction where
  function : FunctionId
  receiver : Value := .none
  capture : Option ContextId := none
  deriving Inhabited

/-- The result of a task; once it is memoized it stands in the member `value` of the future. -/
structure FutureCell where
  task : TaskId
  memoized : Bool
  deriving DecidableEq, Repr, Inhabited

/-- An object of another process. -/
structure RemoteRef where
  process : ProcessId
  object : Handle
  deriving DecidableEq, Repr, Inhabited

inductive Payload where
  | none
  | text (text : String)
  | array (items : Array Value)
  | tuple (items : Array Value)
  | ofClass (c : ClassId)
  | ofModule (m : ModuleId)
  | ofFunction (f : FunctionId)
  | bound (b : BoundFunction)
  | future (cell : FutureCell)
  | task (t : TaskId)
  | context (c : ContextId)
  /-- No process until it has been started. -/
  | process (p : Option ProcessId)
  | remote (r : RemoteRef)
  deriving Inhabited

/-- What an object keeps alive outside the heap. -/
inductive External where
  /-- A context and all that enclose it. -/
  | context (c : ContextId)
  /-- The result of a task. -/
  | task (t : TaskId)
  deriving DecidableEq, Repr

def Value.handles (vs : List Value) : List Handle := vs.filterMap Value.handle?

namespace Payload

def values : Payload → List Value
  | array items => items.toList
  | tuple items => items.toList
  | bound b => [b.receiver]
  | _ => []

/-- The objects held by the payload, one entry per slot. -/
def edges (p : Payload) : List Handle := Value.handles p.values

/-- Payloads of this kind can hold objects. -/
def carriesValues : Payload → Bool
  | array _ => true
  | tuple _ => true
  | bound _ => true
  | _ => false

def external? : Payload → Option External
  | bound b => b.capture.map External.context
  | future cell => if cell.memoized then Option.none else some (.task cell.task)
  | _ => Option.none

end Payload

/-- The payload that a class gives to its new objects. -/
def Seed.payload : Seed → Payload
  | plain => .none
  | text => .text ""
  | array => .array #[]
  | tuple => .tuple #[]
  | process => .process none

structure Object where
  ofClass : ClassId
  members : Bindings String Value := {}
  payload : Payload := .none
  deriving Inhabited

namespace Object

def member? (o : Object) (name : String) : Option Value := o.members.get? name

/-- Everything the object holds, one entry per slot. -/
def values (o : Object) : List Value := o.members.values ++ o.payload.values

def edges (o : Object) : List Handle := Value.handles o.values

def text? (o : Object) : Option String :=
  match o.payload with
  | .text s => some s
  | _ => none

def array? (o : Object) : Option (Array Value) :=
  match o.payload with
  | .array items => some items
  | _ => none

def tuple? (o : Object) : Option (Array Value) :=
  match o.payload with
  | .tuple items => some items
  | _ => none

def future? (o : Object) : Option FutureCell :=
  match o.payload with
  | .future cell => some cell
  | _ => none

end Object

namespace Registry

/-- The payload of a new object of a class. -/
def seed (r : Registry) (c : ClassId) : Payload :=
  match (r.classAt c).hooks.onCreate with
  | some s => s.payload
  | none => .none

end Registry

end Spool
