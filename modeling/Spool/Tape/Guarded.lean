import Mathlib.Algebra.Group.Nat.Defs
import Spool.Tape.Assembler

/-!
# Assembling with words

The assembler once more, as it works with words of a machine: texts are cut at byte positions, sizes and offsets have 64
bits, and tables are read at positions that might not be there. Each of these operations can go wrong, and the assembler
crashes where one does.
-/

namespace Spool

/-- Why work is not carried on. -/
inductive Crash where
  /-- A text is cut outside of it or inside a character. -/
  | cut
  /-- A table is read where nothing stands. -/
  | index
  /-- A sum or a difference does not fit in a word. -/
  | overflow
  deriving DecidableEq, Repr

/-- Work that may crash, and that may be refused. -/
abbrev Trial (ε α : Type) := ExceptT ε (Except Crash) α

namespace Guarded

/-! ## Words -/

def addSize (a b : Nat) : Except Crash Nat := if a + b < 2 ^ 64 then .ok (a + b) else .error .overflow

def subSize (a b : Nat) : Except Crash Nat := if b ≤ a then .ok (a - b) else .error .overflow

/-- Whether a number fits in a signed word. -/
def fitsInt (n : Int) : Bool := Int64.minValue.toInt ≤ n && n ≤ Int64.maxValue.toInt

def addInt (a b : Int64) : Except Crash Int64 := if fitsInt (a.toInt + b.toInt) then .ok (a + b) else .error .overflow

def subInt (a b : Int64) : Except Crash Int64 := if fitsInt (a.toInt - b.toInt) then .ok (a - b) else .error .overflow

def fetch {α : Type} (xs : Array α) (i : Nat) : Except Crash α :=
  match xs[i]? with
  | some x => .ok x
  | none => .error .index

/-! ## Texts -/

/-- The text before a byte position. -/
def before : List Char → (position : Nat) → Except Crash (List Char)
  | _, 0 => .ok []
  | [], _ + 1 => .error .cut
  | c :: rest, n + 1 =>
    if c.utf8Size ≤ n + 1 then (before rest (n + 1 - c.utf8Size)).map (c :: ·) else .error .cut

/-- The text from a byte position on. -/
def after : List Char → (position : Nat) → Except Crash (List Char)
  | cs, 0 => .ok cs
  | [], _ + 1 => .error .cut
  | c :: rest, n + 1 => if c.utf8Size ≤ n + 1 then after rest (n + 1 - c.utf8Size) else .error .cut

/-- The byte position of the first semicolon that stands outside quotes. -/
def commentAt? : Quoting → (position : Nat) → List Char → Option Nat
  | _, _, [] => none
  | .outside, position, ';' :: _ => some position
  | state, position, c :: rest => commentAt? (state.next c) (position + c.utf8Size) rest

/-- The byte position of the first blank. -/
def blankAt? : (position : Nat) → List Char → Option Nat
  | _, [] => none
  | position, c :: rest =>
    if Text.isBlank c then some position else blankAt? (position + c.utf8Size) rest

def stripComment (line : List Char) : Except Crash (List Char) :=
  match commentAt? .outside 0 line with
  | some position => before line position
  | none => .ok line

def splitWord (text : List Char) : Except Crash (List Char × List Char) :=
  match blankAt? 0 text with
  | some position => do return (← before text position, ← after text position)
  | none => .ok (text, [])

def firstByte (text : List Char) : Except Crash UInt8 := fetch (text.flatMap String.utf8EncodeChar).toArray 0

/-! ## Lines -/

def readLine (line : List Char) : Except Crash Statement := do
  let text := Text.trimRight (← stripComment line)
  let trimmed := Text.trimLeft text
  if trimmed.isEmpty then return .blank
  let column ← addSize (← subSize (Statement.byteSize text) (Statement.byteSize trimmed)) 1
  match trimmed with
  | '.' :: rest =>
    let (name, rest) ← splitWord rest
    return .directive name (Text.words rest)
  | _ =>
    match Statement.labelName? trimmed with
    | some name => return .label name
    | none =>
      let (mnemonic, rest) ← splitWord trimmed
      return .instruction mnemonic (Text.trim rest) column

/-- What cannot crash. -/
def calm {ε α : Type} (x : Except ε α) : Trial ε α := ExceptT.mk (.ok x)

/-- The first byte tells numbers from names. -/
def startsNumber (first : UInt8) : Bool := (48 ≤ first && first ≤ 57) || first = 45 || first = 43

def readLiteral (text : List Char) : Trial AssemblyError Operand :=
  match text with
  | [] => return .none
  | '"' :: rest => calm (Literal.readText rest)
  | '\'' :: rest => calm (Literal.readChar rest)
  | _ => do
    if startsNumber (← firstByte text) then calm (Literal.readNumber text)
    else if isIdentifier text then return .name (String.ofList text)
    else throw (.badOperand (String.ofList text))

/-! ## The draft of a tape -/

def newLabel (b : Builder) : Except Crash (Nat × Builder) := do
  let labels := b.labels.push none
  return (← subSize labels.size 1, { b with labels })

def bindLabel (b : Builder) (label : Nat) : Except Crash Builder := do
  discard <| fetch b.labels label
  return b.bindLabel label

def addFunction (b : Builder) (name : String) (flags : Flags) : Except Crash Builder := do
  let owner ← match b.openClass with
    | some c => (fetch b.classes c).map fun d => some d.name
    | none => .ok none
  return { b with functions := b.functions.push ⟨name, b.position, owner, flags⟩ }

def addClass (b : Builder) (name : String) (superName : Option String) (fields : List String) : Except Crash Builder := do
  let classes := b.classes.push ⟨name, superName, fields, b.position, b.position⟩
  return { b with classes, openClass := some (← subSize classes.size 1) }

def closeClass (b : Builder) : Except Crash Builder :=
  match b.openClass with
  | some c => do
    discard <| fetch b.classes c
    return b.endClass
  | none => .ok b

/-- Fills in the offsets of the jumps. -/
def resolve (labels : Array (Option Nat)) : List (Nat × Nat) → Array Instruction → Trial HostError (Array Instruction)
  | [], instructions => return instructions
  | (position, label) :: rest, instructions => do
    match ← (fetch labels label : Except Crash (Option Nat)) with
    | none => throw (.malformedModule s!"label {label} used at {position} is never bound")
    | some target =>
      let offset ← (subInt (.ofNat target) (.ofNat position) : Except Crash Int64)
      discard <| (fetch instructions position : Except Crash Instruction)
      resolve labels rest (instructions.modify position fun i => { i with operand := .scalar (.int offset) })

/-- What is wrong with an instruction. To see where a jump leads its position and its offset are added up. -/
def flaw? (i : Instruction) (position size : Nat) : Except Crash (Option Flaw) :=
  match i.op.shape, i.operand.int? with
  | .offset, some offset =>
    if i.op.isJump then do
      let target ← addInt (.ofNat position) offset
      return if target < 0 || Int64.ofNat size < target then some (.malformed "jump target out of range") else none
    else .ok (i.flaw? position size)
  | _, _ => .ok (i.flaw? position size)

def flawFrom? (size : Nat) : (position : Nat) → List Instruction → Except Crash (Option HostError)
  | _, [] => .ok none
  | position, i :: rest => do
    match ← flaw? i position size with
    | some (.malformed reason) => return some (.malformedTape position i.op.name reason)
    | some .overflow => throw .overflow
    | none => flawFrom? size (position + 1) rest

def validate (m : CompiledModule) : Trial HostError Unit := do
  match ← (flawFrom? m.tape.size 0 m.tape.instructions.toList : Except Crash (Option HostError)) with
  | some flaw => throw flaw
  | none => calm m.validate

def finishDraft (b : Builder) : Trial HostError CompiledModule := do
  let b ← (closeClass b : Except Crash Builder)
  let instructions ← resolve b.labels b.jumps.toList b.instructions
  let places := if b.places.all Option.isNone then #[] else b.places
  let m : CompiledModule :=
    { name := b.name
      tape := { instructions, places, sourceLines := b.sourceLines }
      functions := b.functions
      classes := b.classes }
  validate m
  return m

/-! ## Statements -/

def labelOf (a : Assembler) (name : String) : Except Crash (Nat × Assembler) :=
  match a.labels.get? name with
  | some label => .ok (label, a)
  | none => do
    let (label, builder) ← newLabel a.builder
    return (label, { a with builder, labels := a.labels.insert name label })

def define (a : Assembler) (name : String) : Trial AssemblyError Assembler := do
  if a.defined.contains name then throw (.labelTwice name)
  let (label, a) ← (labelOf { a with defined := name :: a.defined } name : Except Crash (Nat × Assembler))
  let builder ← (bindLabel a.builder label : Except Crash Builder)
  return { a with builder }

def jumpTo (a : Assembler) (line : Nat) (op : Op) (target : List Char) : Trial AssemblyError Assembler := do
  let name := String.ofList target
  if !op.isJump then throw (.takesNoLabel op)
  if !isIdentifier target then throw (.badLabel name)
  let (label, a) ← (labelOf { a with used := a.used.push (name, line) } name : Except Crash (Nat × Assembler))
  return { a with builder := a.builder.jump op label }

def instruction (a : Assembler) (line : Nat) (op : Op) (text : List Char) : Trial AssemblyError Assembler :=
  match text with
  | '@' :: target => jumpTo a line op target
  | _ => do
    let operand ← readLiteral text
    if Literal.fits op.shape operand then return { a with builder := a.builder.emit op operand }
    else throw (.misfit op)

def function (a : Assembler) (words : List (List Char)) : Trial AssemblyError Assembler := do
  let (name, rest) ← calm (Assembler.readName .functionWithoutName words)
  let flags ← calm (Assembler.readFlags rest)
  let builder ← (addFunction a.builder name flags : Except Crash Builder)
  return { a with builder }

def beginClass (a : Assembler) (words : List (List Char)) : Trial AssemblyError Assembler := do
  if a.builder.hasOpenClass then throw .nestedClass
  let (name, rest) ← calm (Assembler.readName .classWithoutName words)
  let (superName, rest) ← calm (Assembler.readSuper rest)
  let fields ← calm (Assembler.readFields rest)
  let builder ← (addClass a.builder name superName fields : Except Crash Builder)
  return { a with builder }

def endClass (a : Assembler) : Trial AssemblyError Assembler := do
  if !a.builder.hasOpenClass then throw .strayEnd
  let builder ← (closeClass a.builder : Except Crash Builder)
  return { a with builder }

def directive (a : Assembler) (name : String) (words : List (List Char)) : Trial AssemblyError Assembler :=
  match name with
  | "func" => function a words
  | "class" => beginClass a words
  | "end" => endClass a
  | other => throw (.unknownDirective other)

def statement (a : Assembler) (line : Nat) : Statement → Trial AssemblyError Assembler
  | .blank => return a
  | .label name => define a (String.ofList name)
  | .directive name words => directive a (String.ofList name) words
  | .instruction mnemonic operand column =>
    match Op.ofName? (String.ofList mnemonic) with
    | none => throw (.unknownInstruction (String.ofList mnemonic))
    | some op => instruction { a with builder := a.builder.locate line column } line op operand

/-- Takes in the lines from an index on, which counts from zero. -/
def lines (file : String) : (index : Nat) → List String → Assembler → Trial HostError Assembler
  | _, [], a => return a
  | index, text :: rest, a => do
    let line ← (addSize index 1 : Except Crash Nat)
    let s ← (readLine text.toList : Except Crash Statement)
    let a ← ExceptT.adapt (.assembly file line) (statement a line s)
    lines file line rest a

def finish (a : Assembler) (file : String) : Trial HostError CompiledModule :=
  match a.used.find? fun (name, _) => !a.defined.contains name with
  | some (name, line) => throw (.assembly file line (.undefinedLabel name))
  | none => finishDraft a.builder

def assemble (name file source : String) : Except Crash (Except HostError CompiledModule) :=
  ExceptT.run do
    let a ← lines file 0 (Text.lines source) { builder := ({ name : Builder }).source source }
    finish a file

end Guarded

end Spool
