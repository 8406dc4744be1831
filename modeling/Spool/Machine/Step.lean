import Spool.Machine.Call
import Spool.Machine.Names

/-!
# Instructions

What each instruction does. Most work on the register and the operand stack of the running task.
-/

namespace Spool.Machine

/-- Where the task goes on after an instruction. -/
inductive Flow where
  | next
  | jump (position : Nat)
  /-- The instruction has set all positions itself. -/
  | stay
  /-- The task is parked and goes on with the next instruction. -/
  | suspend
  | finished
  deriving DecidableEq, Repr, Inhabited

/-- Sets the register to what a call has yielded. -/
def accept : Reply → Act Machine Flow
  | .value v => do
    setRegister v
    return .next
  | .parked => return .suspend

/-! ## Operands -/

def jumpTarget (position : Nat) (operand : Operand) : Act Machine Nat :=
  let target := operand.int?.map fun offset => (position : Int) + offset.toInt
  match target with
  | some target =>
    if target < 0 then throw (.malformed position "bad jump offset") else return target.toNat
  | none => throw (.malformed position "bad jump offset")

def nameOperand (position : Nat) (operand : Operand) : Act Machine String :=
  match operand.name? with
  | some name => return name
  | none => throw (.malformed position "expected an identifier")

/-- The value of an operand: a text becomes a new String, a name is looked up. -/
def operandValue : Operand → Act Machine Value
  | .none => return .none
  | .scalar s => return .scalar s
  | .text s => newText s
  | .name name => resolve name

/-- The value of an operand, or something else if there is no operand. -/
def operandOr (operand : Operand) (other : Act Machine Value) : Act Machine Value :=
  if operand.isNone then other else operandValue operand

/-- The value of a name, or something else if the operand is no name. -/
def namedOr (operand : Operand) (other : Act Machine Value) : Act Machine Value :=
  match operand with
  | .name name => resolve name
  | _ => other

def readRegister : Act Machine Value := return (← get).register

def countOperand (operand : Operand) : Nat := (operand.int?.getD 0).toUInt64.toNat

/-! ## Operators -/

/-- Operators on values that are not both scalars: Strings can be joined and compared. -/
def textOperator (op : Op) (lhs rhs : Value) : Act Machine Value := do
  let m ← get
  let refused := Fault.operands op (m.typeName lhs) (m.typeName rhs)
  match m.text? lhs, m.text? rhs with
  | some a, some b =>
    if op = .add then newText (a ++ b)
    else if op.isComparison then return .ofBool (op.compareText a b)
    else throw refused
  | _, _ => throw refused

def scalarOperator (op : Op) (a b : Scalar) : Except Fault Value :=
  if op.isComparison then .ok (.ofBool (op.compare a b)) else (Scalar.arithmetic op a b).map Value.scalar

/-- The operators that take any values: truth, equality, and the first value that is not none. -/
def generalOperator (m : Machine) (op : Op) (lhs rhs : Value) : Option Value :=
  match op with
  | .and => some (.ofBool (lhs.isTrue && rhs.isTrue))
  | .or => some (.ofBool (lhs.isTrue || rhs.isTrue))
  | .eq => some (.ofBool (m.process.heap.sameValue lhs rhs))
  | .neq => some (.ofBool !m.process.heap.sameValue lhs rhs)
  | .bor =>
    if lhs.scalar?.isNone || rhs.scalar?.isNone then some (if lhs.isNone then rhs else lhs) else none
  | _ => none

def binary (op : Op) (lhs rhs : Value) : Act Machine Value := do
  match (← get).generalOperator op lhs rhs with
  | some v => return v
  | none =>
    match lhs, rhs with
    | .scalar a, .scalar b => ExceptT.mk (pure (scalarOperator op a b))
    | _, _ => textOperator op lhs rhs

/-- Adds to a scalar in the register or in a variable. -/
def increase (op : Op) (operand : Operand) (delta : Int64) : Act Machine Unit := do
  let old ← namedOr operand readRegister
  match old with
  | .scalar s =>
    let new := Value.scalar (← ExceptT.mk (pure (Scalar.arithmetic .add s (.int delta))))
    if let .name name := operand then assign name new
    setRegister new
  | _ => throw (.operands op ((← get).typeName old) "Int")

/-! ## Arrays and tuples -/

/-- The byte of a text at a signed index. -/
def byteAt (s : String) (index : Int64) : Except Fault Value :=
  match if index < 0 then none else s.toUTF8.data[index.toNatClampNeg]? with
  | some b => .ok (.scalar (.char b.toInt8))
  | none => .error (.index index s.utf8ByteSize)

/-- The item of an array, tuple or text; nothing if the collection is of another kind. -/
def fastIndex (collection index : Value) : Act Machine (Option Value) := do
  match collection, index.int? with
  | .object r, some i =>
    match (← fetch r).payload with
    | .array _ => some <$> look fun h => h.slotGet r i
    | .tuple _ => some <$> look fun h => h.slotGet r i
    | .text s => some <$> ExceptT.mk (pure (byteAt s i))
    | _ => return none
  | _, _ => return none

/-- Stores an item of an array or tuple; false if the collection is of another kind. -/
def fastStore (collection index v : Value) : Act Machine Bool := do
  match collection, index.int? with
  | .object r, some i =>
    match (← fetch r).payload with
    | .array _ => onHeap (Heap.slotSet r i v); return true
    | .tuple _ => onHeap (Heap.slotSet r i v); return true
    | _ => return false
  | _, _ => return false

/-- The items that an argument stands for: those of a tuple, none at all for none, else itself. -/
def arguments (v : Value) : Act Machine (List Value) := do
  match v with
  | .none => return []
  | .object r => return (((← fetch r).tuple?).map Array.toList).getD [v]
  | _ => return [v]

def argumentAt (v : Value) (index : Int64) : Act Machine (Option Value) := do
  let items ← arguments v
  return if index < 0 then none else items[index.toNatClampNeg]?

/-! ## Blocks -/

/-- Opens a block in a context, starting after the instruction at a position. -/
def openBlock (top : ContextId) (position : Nat) : StateM Machine Unit := do
  let m ← get
  let around := m.process.contextAt top
  let c ← updateProcess fun p => p.newContext
    { task := m.task, kind := .block, previous := some top, receiver := around.receiver
      module := around.module, function := around.function, cursor := position + 1 }
  modifyCurrent fun t => { t with contexts := c :: t.contexts }

def setCursor (c : ContextId) (position : Nat) : StateM Machine Unit :=
  modifyProcess fun p => p.modifyContext c fun c => { c with cursor := position }

/-- Leaves the innermost block; the context around it goes on after the instruction at a position. -/
def closeBlock (top : ContextId) (position : Nat) : Act Machine Unit := do
  let m ← get
  match (m.process.contextAt top).kind, m.current.contexts with
  | .block, _ :: outer :: rest =>
    modifyCurrent fun t => { t with contexts := outer :: rest }
    modifyProcess fun p => p.releaseContext top
    setCursor outer (position + 1)
  | _, _ => throw .contextUnderflow

/-! ## One instruction -/

/-- Jumps if the truth of the register is as it has to be. -/
def jumpWhen (truth : Bool) (position : Nat) (operand : Operand) : Act Machine Flow := do
  if (← readRegister).isTrue = truth then return .jump (← jumpTarget position operand) else return .next

/-- Reads an item through `__index__` where there is no other way. -/
def index : Act Machine Flow := do
  let collection ← pop
  let i ← readRegister
  match ← fastIndex collection i with
  | some v => accept (.value v)
  | none => accept (← call (← getMember collection "__index__") i .result)

/-- Stores an item through `__set__` where there is no other way; the register keeps the stored value. -/
def store : Act Machine Flow := do
  let i ← pop
  let collection ← pop
  let v ← readRegister
  if ← fastStore collection i v then return .next
  let method ← getMember collection "__set__"
  let pair ← newTuple [i, v]
  let reply ← call method pair .keep
  setRegister v
  match reply with
  | .value _ => return .next
  | .parked => return .suspend

/-- Reads one of the arguments on top of the stack. -/
def element (operand : Operand) : Act Machine (Option Value) := do
  argumentAt (← peek 0) (operand.int?.getD 0)

/-- Ends the task with the value of the operand or of the register. -/
def returnValue (operand : Operand) : Act Machine Value := do
  let v ← operandOr operand readRegister
  setRegister v
  return v

/-- Does the instruction at a position of the innermost context. -/
def step (top : ContextId) (position : Nat) (i : Instruction) : Act Machine Flow := do
  let operand := i.operand
  let yields (act : Act Machine Value) : Act Machine Flow := do accept (.value (← act))
  let name := nameOperand position operand
  match i.op with
  | .nop => return .next
  | .load => yields (operandOr operand pop)
  | .push => push (← operandOr operand readRegister); return .next
  | .peek => yields (peek (countOperand operand))
  | .dup => push (← peek 0); return .next
  | .pushNone => push .none; return .next
  | .clear => accept (.value .none)
  | .setField =>
    let name ← name
    let target ← pop
    setMember target name (← readRegister)
    return .next
  | .bind => bind (← name) (← readRegister); return .next
  | .assign => assign (← name) (← readRegister); return .next
  | .member =>
    let name ← name
    yields (getMember (← readRegister) name)
  | .memberPush =>
    let name ← name
    let v ← getMember (← readRegister) name
    push v
    accept (.value v)
  | .call =>
    let callee ← namedOr operand pop
    accept (← call callee (← readRegister) .result)
  | .callBare =>
    let callee ← namedOr operand readRegister
    accept (← call callee .none .result)
  | .jump => return .jump (← jumpTarget position operand)
  | .jumpIf => jumpWhen true position operand
  | .jumpUnless => jumpWhen false position operand
  | .handler =>
    let target ← jumpTarget position operand
    modifyProcess fun p => p.modifyContext top fun c => { c with handler := some target }
    return .next
  | .ret => discard <| returnValue operand; return .finished
  | .exit =>
    let v ← returnValue operand
    modifyProcess fun p => { p with exitValue := some v }
    return .finished
  | .openBlock => openBlock top position; return .stay
  | .closeBlock => closeBlock top position; return .stay
  | .array => yields (do newArray (← popMany (countOperand operand)))
  | .tuple => yields (do newTuple (← popMany (countOperand operand)))
  | .index => index
  | .store => store
  | .element =>
    match ← element operand with
    | some v => accept (.value v)
    | none => throw (.missingArgument (countOperand operand))
  | .elementOr =>
    match ← element operand with
    | some v => accept (.value v)
    | none => return .next
  | .length => yields (do return .ofNat (← arguments (← peek 0)).length)
  | .not => yields (do return .ofBool !(← readRegister).isTrue)
  | .inc => increase .inc operand 1; return .next
  | .dec => increase .dec operand (-1); return .next
  | .isA =>
    let v ← match operand with
      | .name _ => readRegister
      | _ => pop
    let c ← expectClass (← namedOr operand readRegister)
    yields (do return .ofBool ((← get).isInstance v c))
  | .loadModule => accept (← loadModule (← name))
  | .raise =>
    let v ← readRegister
    let m ← get
    if m.isInstance v .error then throw (.raised (← expectObject v "Error"))
    throw (.notAnError (m.typeName v))
  | .wait => accept (← wait (← readRegister))
  | op =>
    if operand.isNone then
      let lhs ← pop
      yields (do binary op lhs (← readRegister))
    else
      let lhs ← readRegister
      yields (do binary op lhs (← operandValue operand))

end Spool.Machine
