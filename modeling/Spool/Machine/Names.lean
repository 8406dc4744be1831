import Spool.Machine.Basic

/-!
# Names

How a name is looked up, bound and assigned: in the contexts around the instruction, in the receiver, in
the module, and last in the builtins.
-/

namespace Spool.Machine

/-- The value of a local variable of a context or of one around it. -/
def local? (p : Process) (top : ContextId) (name : String) : Option Value :=
  (p.chain top).findSome? fun c => (p.contextAt c).locals.get? name

/-- A module's variables, then its functions, then its classes. A function that closes over its context
takes the current one. -/
def moduleMember (module : ModuleId) (name : String) : Act Machine (Option Value) := do
  let object ← moduleObject module
  if let some v ← look fun h => h.member object name then return some v
  let m ← get
  let registry := m.host.registry
  if let some function := (registry.moduleAt module).functions.get? name then
    if (registry.functionAt function).flags.anon then
      let receiver := match m.top? with
        | some c => (m.process.contextAt c).receiver
        | none => .none
      return some (← newBound { function, receiver, capture := m.top? })
    return some (← reflect (.ofFunction function))
  if let some c := registry.classNamed? module name then
    return some (← reflect (.ofClass c))
  return none

/-- A member of the receiver, or one of its methods. -/
def receiverMember (receiver : Value) (name : String) : Act Machine (Option Value) := do
  match receiver with
  | .object r =>
    if let some v ← look fun h => h.member r name then return some v
    let c ← look fun h => h.classOf r
    match (← get).host.registry.findMethod? c name with
    | some function => return some (← newBound { function, receiver })
    | none => return none
  | _ => return none

/-- The value of a name. -/
def resolve (name : String) : Act Machine Value := do
  let m ← get
  match m.top? with
  | none => throw (.unknownName name)
  | some top =>
    let context := m.process.contextAt top
    if name = "self" then return context.receiver
    if let some v := local? m.process top name then return v
    if let some v ← receiverMember context.receiver name then return v
    if let some v ← moduleMember context.module name then return v
    if context.module ≠ .builtins then
      if let some v ← moduleMember .builtins name then return v
    throw (.unknownName name)

def setLocal (c : ContextId) (name : String) (v : Value) : StateM Machine Unit :=
  modifyProcess fun p => p.modifyContext c fun c => { c with locals := c.locals.insert name v }

/-- Binds a name in the innermost context; at the top level of a module that is a member of the module. -/
def bind (name : String) (v : Value) : Act Machine Unit := do
  let m ← get
  match m.top? with
  | none => throw .contextUnderflow
  | some top =>
    let context := m.process.contextAt top
    if context.kind = .moduleRoot then
      let object ← moduleObject context.module
      onHeap (Heap.setMember object name v)
    else setLocal top name v

/-- Gives a new value to the nearest variable of that name, or binds it. -/
def assign (name : String) (v : Value) : Act Machine Unit := do
  let m ← get
  match m.top? with
  | none => throw .contextUnderflow
  | some top =>
    let holds := fun c => (m.process.contextAt c).locals.contains name
    if let some c := (m.process.chain top).find? holds then
      setLocal c name v
      return
    let context := m.process.contextAt top
    if let .object r := context.receiver then
      if (← look fun h => h.member r name).isSome then
        onHeap (Heap.setMember r name v)
        return
    let object ← moduleObject context.module
    if (← look fun h => h.member object name).isSome then
      onHeap (Heap.setMember object name v)
    else bind name v

/-- What the payload of an object adds to its members: a module has its content, a class its methods. -/
def contentMember (r : Handle) (name : String) : Act Machine (Option Value) := do
  let o ← fetch r
  match o.member? name with
  | some v => return some v
  | none =>
    match o.payload with
    | .ofModule module => moduleMember module name
    | .ofClass c =>
      match (← get).host.registry.findMethod? c name with
      | some f => return some (← reflect (.ofFunction f))
      | none => return none
    | _ => return none

/-- A member of a value, or a method bound to it. -/
def getMember (target : Value) (name : String) : Act Machine Value := do
  if let .object r := target then
    if let some v ← contentMember r name then return v
  let m ← get
  match m.process.heap.classOf? target with
  | none => throw (.noMember "none" name)
  | some c =>
    match m.host.registry.findMethod? c name with
    | some function => newBound { function, receiver := target }
    | none => throw (.noMember (m.typeName target) name)

def setMember (target : Value) (name : String) (v : Value) : Act Machine Unit := do
  let r ← expectObject target "object"
  onHeap (Heap.setMember r name v)

end Spool.Machine
