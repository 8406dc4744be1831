import Spool.Bindings
import Spool.Tape.Builder
import Spool.Tape.Literal

/-!
# Assembling

Turns assembly text into a compiled module, line by line. The first line that cannot be read ends the
work; labels that are used and never defined are looked for at the end.
-/

namespace Spool

structure Assembler where
  builder : Builder
  /-- The label of the builder for each name met so far. -/
  labels : Bindings String Nat := {}
  /-- Names whose definition has been met. -/
  defined : List String := []
  /-- Names that jumps go to, each with its line. -/
  used : Array (String × Nat) := #[]

namespace Assembler

def label (a : Assembler) (name : String) : Nat × Assembler :=
  match a.labels.get? name with
  | some label => (label, a)
  | none =>
    let (label, builder) := a.builder.newLabel
    (label, { a with builder, labels := a.labels.insert name label })

def define (a : Assembler) (name : String) : Except AssemblyError Assembler :=
  if a.defined.contains name then .error (.labelTwice name)
  else
    let (label, a) := { a with defined := name :: a.defined }.label name
    .ok { a with builder := a.builder.bindLabel label }

def jumpTo (a : Assembler) (line : Nat) (op : Op) (target : List Char) :
    Except AssemblyError Assembler :=
  let name := String.ofList target
  if !op.isJump then .error (.takesNoLabel op)
  else if !isIdentifier target then .error (.badLabel name)
  else
    let (label, a) := { a with used := a.used.push (name, line) }.label name
    .ok { a with builder := a.builder.jump op label }

def instruction (a : Assembler) (line : Nat) (op : Op) (text : List Char) :
    Except AssemblyError Assembler :=
  match text with
  | '@' :: target => a.jumpTo line op target
  | _ => do
    let operand ← Literal.read text
    if Literal.fits op.shape operand then
      return { a with builder := a.builder.emit op operand }
    else throw (.misfit op)

/-! ## Directives -/

def flag? (word : String) : Option Flags :=
  match word with
  | "async" => some { async := true }
  | "anon" => some { anon := true }
  | "const" => some { const := true }
  | "background" => some { background := true }
  | _ => none

def readFlags : List (List Char) → Except AssemblyError Flags
  | [] => .ok {}
  | word :: rest =>
    match flag? (String.ofList word) with
    | none => .error (.unknownFlag (String.ofList word))
    | some flags => (readFlags rest).map flags.union

/-- The first word, which must be an identifier. -/
def readName (missing : AssemblyError) :
    List (List Char) → Except AssemblyError (String × List (List Char))
  | word :: rest => if isIdentifier word then .ok (String.ofList word, rest) else .error missing
  | [] => .error missing

def function (a : Assembler) (words : List (List Char)) : Except AssemblyError Assembler := do
  let (name, rest) ← readName .functionWithoutName words
  let flags ← readFlags rest
  return { a with builder := a.builder.function name flags }

/-- The superclass after a colon, if there is one. -/
def readSuper : List (List Char) → Except AssemblyError (Option String × List (List Char))
  | [':'] :: rest => (readName .missingSuperclass rest).map fun (name, rest) => (some name, rest)
  | words => .ok (none, words)

def readFields (words : List (List Char)) : Except AssemblyError (List String) :=
  match words.find? fun w => !isIdentifier w with
  | some bad => .error (.badField (String.ofList bad))
  | none => .ok (words.map String.ofList)

def beginClass (a : Assembler) (words : List (List Char)) : Except AssemblyError Assembler := do
  if a.builder.hasOpenClass then throw .nestedClass
  let (name, rest) ← readName .classWithoutName words
  let (superName, rest) ← readSuper rest
  let fields ← readFields rest
  return { a with builder := a.builder.beginClass name superName fields }

def endClass (a : Assembler) : Except AssemblyError Assembler :=
  if a.builder.hasOpenClass then .ok { a with builder := a.builder.endClass } else .error .strayEnd

def directive (a : Assembler) (name : String) (words : List (List Char)) :
    Except AssemblyError Assembler :=
  match name with
  | "func" => a.function words
  | "class" => a.beginClass words
  | "end" => a.endClass
  | other => .error (.unknownDirective other)

/-! ## Lines -/

def statement (a : Assembler) (line : Nat) : Statement → Except AssemblyError Assembler
  | .blank => .ok a
  | .label name => a.define (String.ofList name)
  | .directive name words => a.directive (String.ofList name) words
  | .instruction mnemonic operand column =>
    match Op.ofName? (String.ofList mnemonic) with
    | none => .error (.unknownInstruction (String.ofList mnemonic))
    | some op => { a with builder := a.builder.locate line column }.instruction line op operand

/-- Takes in the lines from a given number on. -/
def lines (file : String) : (line : Nat) → List String → Assembler → Except HostError Assembler
  | _, [], a => .ok a
  | line, text :: rest, a =>
    match a.statement line (Statement.ofLine text.toList) with
    | .ok a => lines file (line + 1) rest a
    | .error cause => .error (.assembly file line cause)

def finish (a : Assembler) (file : String) : Except HostError CompiledModule :=
  match a.used.find? fun (name, _) => !a.defined.contains name with
  | some (name, line) => .error (.assembly file line (.undefinedLabel name))
  | none => a.builder.finish

end Assembler

/-- Assembles a source text into a module of the given name; the file only appears in errors. -/
def assemble (name file source : String) : Except HostError CompiledModule := do
  let start : Assembler := { builder := { name : Builder }.source source }
  let a ← Assembler.lines file 1 (Text.lines source) start
  a.finish file

end Spool
