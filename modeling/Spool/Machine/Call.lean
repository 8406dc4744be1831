import Spool.Machine.Natives
import Spool.Process.Finish

/-!
# Calls

A call either yields a value at once or parks the calling task until the called one is finished. Loading a
module, waiting for a future and background functions work the same way.
-/

namespace Spool.Machine

/-- What a call means for the instruction that makes it. -/
inductive Reply where
  | value (v : Value)
  /-- The task is parked; its register is set when it wakes. -/
  | parked
  deriving Inhabited

/-- Parks the running task. -/
def park (reason : WaitReason) : StateM Machine Unit :=
  modify fun m => { m with process := m.process.park m.task reason }

/-- Parks the running task until another task is finished. -/
def await (task : TaskId) (delivery : Delivery) (reason : WaitReason) : StateM Machine Reply := do
  let waiter := (← get).task
  modifyProcess fun p => p.modifyTask task fun t => t.addDependent waiter delivery
  park reason
  return .parked

def enqueue (t : TaskId) : StateM Machine Unit := modifyProcess fun p => p.enqueue t

/-- A new task, in the queue, for a call of a function of the program. -/
def startCall (b : BoundFunction) (start : Nat) (argument : Value) : StateM Machine TaskId := do
  let m ← get
  let t ← updateProcess fun p => p.startCall m.host.registry b start argument (some m.task)
  enqueue t
  return t

/-! ## Background functions -/

/-- Roots an object; gives it if the value is one. -/
def hold : Value → Act Machine (List Handle)
  | .object r => do
    onHeap (Heap.root r)
    return [r]
  | _ => return []

def submit (call : BackgroundCall) : StateM Machine Unit := do
  modifyProcess fun p => { p with inFlight := p.inFlight + 1 }
  modifyHost fun h => { h with pool := h.pool.submit call }

/-- Hands a call to the background pool; a carrier stands for it in the process. -/
def launchBackground (async : Bool) (body : Background) (receiver argument : Value) (delivery : Delivery) :
    Act Machine Reply := do
  let carrier ← newCarrier
  let first ← hold receiver
  let second ← hold argument
  let process := (← get).process.id
  submit { process, carrier, body, receiver, argument, held := first ++ second }
  if async then return .value (← newFuture carrier)
  await carrier delivery .onFuture

/-! ## Calling -/

def invoke (b : BoundFunction) (argument : Value) (delivery : Delivery) : Act Machine Reply := do
  let function := (← get).host.registry.functionAt b.function
  match function.kind with
  | .native body => return .value (← runNative b.receiver argument body)
  | .background body => launchBackground function.flags.async body b.receiver argument delivery
  | .user start =>
    let t ← startCall b start argument
    if function.flags.async then return .value (← newFuture t)
    await t delivery .onCall

/-- A new object that has every field of its class and its superclasses, set to none. -/
def instantiate (c : ClassId) : Act Machine Handle := do
  let r ← newObject c
  let registry := (← get).host.registry
  for name in (registry.chain c).flatMap fun c => (registry.classAt c).fields do
    if (← look fun h => h.member r name).isNone then
      onHeap (Heap.setMember r name .none)
  return r

/-- Makes an object; the caller gets it whatever the constructor returns. -/
def construct (c : ClassId) (argument : Value) : Act Machine Reply := do
  let object := Value.object (← instantiate c)
  let registry := (← get).host.registry
  match registry.findMethod? c "new" with
  | none => return .value object
  | some function =>
    match (registry.functionAt function).kind with
    | .native body =>
      discard <| runNative object argument body
      return .value object
    | .background _ => throw (.message "constructors cannot run in the background")
    | .user start =>
      let t ← startCall { function, receiver := object } start argument
      setRegister object
      await t .keep .onCall

def call (callee argument : Value) (delivery : Delivery) : Act Machine Reply := do
  match callee with
  | .object r =>
    match (← fetch r).payload with
    | .ofClass c => construct c argument
    | .ofFunction function => invoke { function } argument delivery
    | .bound b => invoke b argument delivery
    | _ => throw (.notCallable ((← get).typeName callee))
  | _ => throw (.notCallable ((← get).typeName callee))

/-! ## Waiting -/

/-- Waits for a future; any other value is there already. -/
def wait (v : Value) : Act Machine Reply := do
  match v with
  | .object r =>
    match (← fetch r).future? with
    | none => return .value v
    | some cell =>
      match ← futureOutcome r with
      | none => await cell.task .result .onFuture
      | some { value, failed := false } => return .value value
      | some { value := .object error, failed := true } => throw (.raised error)
      | some _ => throw (.message "awaited task failed")
  | _ => return .value v

/-! ## Loading modules -/

/-- Binds a module in the current one and runs its top level if this process has not done so. A module
whose top level has led here is bound as it stands. -/
def loadModule (name : String) : Act Machine Reply := do
  let library := (← get).host.library
  let module ← onRegistry (library.resolve name)
  let loaded := Value.object (← moduleObject module)
  match (← get).top? with
  | none => throw .contextUnderflow
  | some top =>
    let importer ← moduleObject ((← get).process.contextAt top).module
    onHeap (Heap.setMember importer name loaded)
    let m ← get
    match m.process.modules.get? module with
    | some .ready => return .value loaded
    | some (.initializing t) =>
      if (m.process.ancestry m.task).elem t then return .value loaded
      setRegister loaded
      await t .keep .onCall
    | none =>
      let t ← updateProcess (α := TaskId) fun p => p.startModule module (some m.task)
      setRegister loaded
      enqueue t
      await t .keep .onCall

end Spool.Machine
