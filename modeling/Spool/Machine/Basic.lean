import Spool.Heap.Inspect
import Spool.Heap.Reflection
import Spool.Machine.Host

/-!
# The machine

What an instruction or a native function of a running task can reach: the host, the process, and the task
itself.
-/

namespace Spool

structure Machine where
  host : Host
  process : Process
  /-- The running task. -/
  task : TaskId
  deriving Inhabited

namespace Machine

/-! ## Acting on a part -/

def onHeap {α : Type} (act : Act Heap α) : Act Machine α := fun m =>
  let (result, heap) := act m.process.heap
  (result, { m with process := { m.process with heap } })

def onRegistry {α : Type} (act : Registry.Entry α) : Act Machine α := fun m =>
  let (result, registry) := act m.host.registry
  (result.mapError HostError.toFault, { m with host := { m.host with registry } })

def modifyProcess (f : Process → Process) : StateM Machine Unit :=
  modify fun m => { m with process := f m.process }

/-- Changes the process and gives what the change yields. -/
def updateProcess {α : Type} (f : Process → α × Process) : StateM Machine α :=
  modifyGet fun m =>
    let (a, process) := f m.process
    (a, { m with process })

def modifyHost (f : Host → Host) : StateM Machine Unit := modify fun m => { m with host := f m.host }

/-- What a look at the heap yields. -/
def look {α : Type} (f : Heap → Except Fault α) : Act Machine α := ExceptT.mk do
  return f (← get).process.heap

/-! ## The running task -/

def current (m : Machine) : Task := m.process.taskAt m.task

def modifyCurrent (f : Task → Task) : StateM Machine Unit :=
  modify fun m => { m with process := m.process.modifyTask m.task f }

def top? (m : Machine) : Option ContextId := m.current.top?

def register (m : Machine) : Value := m.current.register

def setRegister (v : Value) : StateM Machine Unit := modifyCurrent fun t => { t with register := v }

def push (v : Value) : StateM Machine Unit := modifyCurrent fun t => { t with stack := v :: t.stack }

def pop : Act Machine Value := do
  match (← get).current.stack with
  | v :: rest =>
    modifyCurrent fun t => { t with stack := rest }
    return v
  | [] => throw .stackUnderflow

/-- The upper values of the stack, the topmost last. -/
def popMany (count : Nat) : Act Machine (List Value) := do
  let stack := (← get).current.stack
  if stack.length < count then throw .stackUnderflow
  modifyCurrent fun t => { t with stack := t.stack.drop count }
  return (stack.take count).reverse

def peek (depth : Nat) : Act Machine Value := do
  match (← get).current.stack[depth]? with
  | some v => return v
  | none => throw .stackUnderflow

/-! ## New objects -/

def allocate (c : ClassId) (payload : Payload) : StateM Machine Handle :=
  updateProcess fun p =>
    let (r, heap) := p.heap.allocate c payload
    (r, { p with heap })

def newObject (c : ClassId) : StateM Machine Handle := do
  let seed := (← get).host.registry.seed c
  allocate c seed

def newText (s : String) : StateM Machine Value := Value.object <$> allocate .string (.text s)

def newArray (items : List Value) : Act Machine Value :=
  Value.object <$> onHeap (Heap.createWith .array (.array #[]) (.array items.toArray))

def newTuple (items : List Value) : Act Machine Value :=
  Value.object <$> onHeap (Heap.createWith .tuple (.tuple #[]) (.tuple items.toArray))

/-- A function reference; the context it closes over stays. -/
def newBound (b : BoundFunction) : Act Machine Value := do
  match b.capture with
  | some c => modifyProcess fun p => p.pin c
  | none => pure ()
  let r ← newObject .functionRef
  discard <| onHeap (Heap.replacePayload r (.bound b))
  return .object r

/-- A new object whose payload holds no values. -/
def newHolder (c : ClassId) (payload : Payload) : Act Machine Value := do
  let r ← newObject c
  onHeap (Heap.putPayload r payload)
  return .object r

/-- A future for a task, whose failure is then not reported. -/
def newFuture (task : TaskId) : Act Machine Value := do
  modifyProcess fun p => p.modifyTask task fun t => { t with observed := true }
  newHolder .future (.future ⟨task, false⟩)

def reflect (key : Reflected) : Act Machine Value := Value.object <$> onHeap (Heap.reflect key)

def moduleObject (m : ModuleId) : Act Machine Handle := onHeap (Heap.reflect (.ofModule m))

/-- Collects garbage; gives the number of reclaimed objects. -/
def collectGarbage : StateM Machine Nat := do
  let registry := (← get).host.registry
  updateProcess fun p =>
    let (reclaimed, p) := p.collect registry
    (reclaimed.count, p)

/-! ## Looking at values -/

def typeName (m : Machine) (v : Value) : String := m.process.heap.typeName m.host.registry v

def isInstance (m : Machine) (v : Value) (c : ClassId) : Bool :=
  m.process.heap.isInstance m.host.registry v c

def display (m : Machine) (v : Value) : String := m.process.heap.display m.host.registry v

def text? (m : Machine) (v : Value) : Option String := m.process.heap.text? v

def fetch (r : Handle) : Act Machine Object := look fun h => h.fetch r

/-- Refuses a value that is no object. -/
def expectObject (v : Value) (expected : String) : Act Machine Handle := do
  match v with
  | .object r => return r
  | _ => throw (.type expected ((← get).typeName v))

end Machine

end Spool
