/-!
# Instructions' opcodes

The opcodes of a tape, the names they are written by and the operands they take.
-/

namespace Spool

/-- Unless a case says otherwise an instruction works on the task's result register and lets the
cursor go on to the next instruction. -/
inductive Op where
  | nop
  /-- Pop into the register, or load the operand. -/
  | load
  /-- Push the register, or the operand. -/
  | push
  /-- Read the stack, counted from its top, into the register. -/
  | peek
  | dup
  | pushNone
  | clear
  /-- Pop an object and set a member of it to the register. -/
  | setField
  | bind
  | assign
  | member
  | memberPush
  | call
  | callBare
  | jump
  | jumpIf
  | jumpUnless
  | ret
  | exit
  | openBlock
  | closeBlock
  | array
  | tuple
  | index
  | store
  | element
  /-- Like `element`, but a missing element leaves the register alone. -/
  | elementOr
  | length
  | add
  | sub
  | mul
  | div
  | mod
  | lt
  | gt
  | lte
  | gte
  | eq
  | neq
  | and
  | or
  | band
  | bxor
  | bor
  | not
  | inc
  | dec
  | isA
  | loadModule
  /-- Arm the handler of the innermost context. -/
  | handler
  | raise
  | wait
  deriving DecidableEq, Repr, Inhabited

namespace Op

def all : List Op :=
  [nop, load, push, peek, dup, pushNone, clear, setField, bind, assign, member, memberPush, call,
    callBare, jump, jumpIf, jumpUnless, ret, exit, openBlock, closeBlock, array, tuple, index, store,
    element, elementOr, length, add, sub, mul, div, mod, lt, gt, lte, gte, eq, neq, and, or, band,
    bxor, bor, not, inc, dec, isA, loadModule, handler, raise, wait]

/-- The mnemonic, in lower case. -/
def name : Op → String
  | nop => "nop"
  | load => "res"
  | push => "push"
  | peek => "peek"
  | dup => "dup"
  | pushNone => "pnil"
  | clear => "rnil"
  | setField => "fld"
  | bind => "let"
  | assign => "set"
  | member => "get"
  | memberPush => "gtsh"
  | call => "call"
  | callBare => "clln"
  | jump => "jmp"
  | jumpIf => "if"
  | jumpUnless => "ifn"
  | ret => "ret"
  | exit => "exit"
  | openBlock => "nblk"
  | closeBlock => "bblk"
  | array => "anew"
  | tuple => "tupl"
  | index => "aidx"
  | store => "aset"
  | element => "tget"
  | elementOr => "tgte"
  | length => "tlen"
  | add => "add"
  | sub => "sub"
  | mul => "mult"
  | div => "div"
  | mod => "mod"
  | lt => "lt"
  | gt => "gt"
  | lte => "lte"
  | gte => "gte"
  | eq => "eq"
  | neq => "neq"
  | and => "and"
  | or => "or"
  | band => "band"
  | bxor => "bxor"
  | bor => "bor"
  | not => "not"
  | inc => "inc"
  | dec => "dec"
  | isA => "is"
  | loadModule => "lmdl"
  | handler => "ctch"
  | raise => "rais"
  | wait => "wait"

/-- Mnemonics are read without regard to the case of ASCII letters. -/
def ofName? (text : String) : Option Op :=
  let lower := text.toList.map Char.toLower
  all.find? fun op => op.name.toList = lower

def isBinary : Op → Bool
  | add | sub | mul | div | mod | lt | gt | lte | gte | eq | neq | and | or | band | bxor | bor => true
  | _ => false

def isJump : Op → Bool
  | jump | jumpIf | jumpUnless | handler => true
  | _ => false

def isComparison : Op → Bool
  | lt | gt | lte | gte | eq | neq => true
  | _ => false

/-- What an opcode accepts as its operand. -/
inductive Shape where
  | nothing
  | identifier
  | offset
  | optionalCount
  | optionalIdentifier
  | optionalValue
  deriving DecidableEq, Repr

def shape : Op → Shape
  | bind | assign | setField | member | memberPush | loadModule => .identifier
  | jump | jumpIf | jumpUnless | handler | element | elementOr => .offset
  | peek | array | tuple => .optionalCount
  | call | callBare | isA | inc | dec => .optionalIdentifier
  | load | push | ret | exit => .optionalValue
  | add | sub | mul | div | mod | lt | gt | lte | gte | eq | neq | and | or | band | bxor | bor =>
    .optionalValue
  | nop | dup | pushNone | clear | openBlock | closeBlock | index | store | length | not | raise
  | wait => .nothing

end Op

end Spool
