import Spool.Tape.Check
import Spool.Text.Basic

/-!
# Building tapes

Instructions are added at the end of a draft; a jump may name a label that is bound later, and its
offset is filled in when the draft is finished.
-/

namespace Spool

structure Builder where
  name : String
  instructions : Array Instruction := #[]
  places : Array (Option Place) := #[]
  sourceLines : Array String := #[]
  /-- Given to every instruction added from now on. -/
  place : Option Place := none
  /-- The position each label is bound to. -/
  labels : Array (Option Nat) := #[]
  /-- Positions of jumps, each with its label. -/
  jumps : Array (Nat × Nat) := #[]
  functions : Array FunctionDef := #[]
  classes : Array ClassDef := #[]
  /-- The class whose methods the next functions are. -/
  openClass : Option Nat := none

namespace Builder

def position (b : Builder) : Nat := b.instructions.size

def source (b : Builder) (text : String) : Builder :=
  { b with sourceLines := (Text.lines text).toArray }

/-- The instructions from now on stand at this place of the source. -/
def locate (b : Builder) (line column : Nat) : Builder :=
  { b with place := some ⟨line.toUInt32, column.toUInt32⟩ }

def emit (b : Builder) (op : Op) (operand : Operand) : Builder :=
  { b with instructions := b.instructions.push ⟨op, operand⟩, places := b.places.push b.place }

/-- A new label, bound to nothing yet. -/
def newLabel (b : Builder) : Nat × Builder :=
  (b.labels.size, { b with labels := b.labels.push none })

/-- Points a label at the next instruction. -/
def bindLabel (b : Builder) (label : Nat) : Builder :=
  { b with labels := b.labels.setIfInBounds label (some b.position) }

def jump (b : Builder) (op : Op) (label : Nat) : Builder :=
  { b with jumps := b.jumps.push (b.position, label) }.emit op (.scalar (.int 0))

def openClassName (b : Builder) : Option String :=
  b.openClass.bind fun c => b.classes[c]?.map ClassDef.name

/-- Starts a function at the next instruction: a method if a class is open. -/
def function (b : Builder) (name : String) (flags : Flags) : Builder :=
  { b with functions := b.functions.push ⟨name, b.position, b.openClassName, flags⟩ }

def beginClass (b : Builder) (name : String) (superName : Option String) (fields : List String) :
    Builder :=
  { b with
    classes := b.classes.push ⟨name, superName, fields, b.position, b.position⟩
    openClass := some b.classes.size }

def endClass (b : Builder) : Builder :=
  match b.openClass with
  | some c =>
    { b with
      classes := b.classes.modify c fun d => { d with stop := b.position }
      openClass := none }
  | none => b

def hasOpenClass (b : Builder) : Bool := b.openClass.isSome

/-- Fills in the offsets of the jumps. -/
def resolve (labels : Array (Option Nat)) :
    List (Nat × Nat) → Array Instruction → Except HostError (Array Instruction)
  | [], instructions => .ok instructions
  | (position, label) :: rest, instructions =>
    match labels[label]?.join with
    | none =>
      .error (.malformedModule s!"label {label} used at {position} is never bound")
    | some target =>
      let offset := Int64.ofInt ((target : Int) - position)
      resolve labels rest
        (instructions.modify position fun i => { i with operand := .scalar (.int offset) })

/-- The module with its labels resolved, before it is checked. -/
def draft (b : Builder) : Except HostError CompiledModule := do
  let b := b.endClass
  let instructions ← resolve b.labels b.jumps.toList b.instructions
  let places := if b.places.all Option.isNone then #[] else b.places
  return {
    name := b.name
    tape := { instructions, places, sourceLines := b.sourceLines }
    functions := b.functions
    classes := b.classes }

/-- Resolves the labels and checks the result. -/
def finish (b : Builder) : Except HostError CompiledModule := do
  let m ← b.draft
  m.validate
  return m

end Builder

end Spool
