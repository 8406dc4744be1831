import Spool.HostError
import Spool.Text.Basic

/-!
# Tapes

A tape is a row of instructions; control flow is by jumps relative to the position. A compiled module
is a tape with the tables that say where its functions and classes stand.
-/

namespace Spool

inductive Operand where
  | none
  | scalar (scalar : Scalar)
  /-- A literal, which makes a new String object whenever it is evaluated. -/
  | text (text : String)
  /-- A name, which is looked up when it is evaluated. -/
  | name (name : String)
  deriving Inhabited

namespace Operand

def int? : Operand → Option Int64
  | scalar s => s.toInt?
  | _ => Option.none

def name? : Operand → Option String
  | name s => some s
  | _ => Option.none

def isNone : Operand → Bool
  | none => true
  | _ => false

end Operand

structure Instruction where
  op : Op
  operand : Operand := .none
  deriving Inhabited

/-- A place in a source text, counted from one; the column counts bytes. -/
structure Place where
  line : UInt32
  column : UInt32
  deriving DecidableEq, Repr, Inhabited

structure Tape where
  instructions : Array Instruction := #[]
  /-- Empty, or one entry per instruction. -/
  places : Array (Option Place) := #[]
  sourceLines : Array String := #[]
  deriving Inhabited

structure Flags where
  const : Bool := false
  /-- Calls return a future instead of parking the caller. -/
  async : Bool := false
  /-- The body runs on the background pool. -/
  background : Bool := false
  native : Bool := false
  /-- References close over the context they are made in. -/
  anon : Bool := false
  deriving DecidableEq, Repr, Inhabited

namespace Flags

def union (a b : Flags) : Flags :=
  { const := a.const || b.const
    async := a.async || b.async
    background := a.background || b.background
    native := a.native || b.native
    anon := a.anon || b.anon }

/-- The flags that are set, by name, in a fixed order. -/
def names (f : Flags) : List String :=
  [(f.const, "const"), (f.async, "async"), (f.background, "background"), (f.native, "native"),
    (f.anon, "anon")].filterMap fun (isSet, name) => if isSet then some name else none

end Flags

structure FunctionDef where
  name : String
  start : Nat
  /-- The class of the same module whose method this is. -/
  owner : Option String := none
  flags : Flags := {}
  deriving DecidableEq, Repr, Inhabited

structure ClassDef where
  name : String
  superName : Option String := none
  fields : List String := []
  start : Nat
  stop : Nat
  deriving DecidableEq, Repr, Inhabited

structure CompiledModule where
  name : String
  tape : Tape := {}
  functions : Array FunctionDef := #[]
  classes : Array ClassDef := #[]
  deriving Inhabited

namespace Tape

def size (t : Tape) : Nat := t.instructions.size

def place? (t : Tape) (position : Nat) : Option Place := t.places[position]?.join

/-- The text of a line, counted from one, without the blanks around it. -/
def lineText? (t : Tape) (line : Nat) : Option String :=
  if line = 0 then none else t.sourceLines[line - 1]?.map Text.trimText

end Tape

end Spool
