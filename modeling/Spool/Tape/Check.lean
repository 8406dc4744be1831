import Spool.Tape.Basic

/-!
# Checking tapes and modules

A tape is well formed if every operand has the shape its opcode asks for and every jump stays on the
tape or goes just past its end. A module is well formed if its tables point into such a tape. The target of a
jump is computed in a word, and where it does not fit there is no answer.
-/

namespace Spool

/-- What is wrong with an instruction. -/
inductive Flaw where
  | malformed (reason : String)
  /-- The position of a jump and its offset cannot be added up. -/
  | overflow
  deriving DecidableEq, Repr

namespace Instruction

/-- What is wrong with an instruction at a position of a tape of the given size. -/
def flaw? (i : Instruction) (position size : Nat) : Option Flaw :=
  match i.op.shape, i.operand with
  | .nothing, .none => none
  | .nothing, _ => some (.malformed "takes no operand")
  | .identifier, .name _ => none
  | .identifier, _ => some (.malformed "expects an identifier")
  | .offset, operand =>
    match operand.int? with
    | none => some (.malformed "expects an integer")
    | some k =>
      if i.op.isJump then
        let target := (position : Int) + k.toInt
        if target > Int64.maxValue.toInt then some .overflow
        else if target < 0 || target > size then some (.malformed "jump target out of range")
        else none
      else if k < 0 then some (.malformed "negative tuple index")
      else none
  | .optionalCount, .none => none
  | .optionalCount, operand =>
    match operand.int? with
    | some n => if n < 0 then some (.malformed "expects a non-negative count") else none
    | none => some (.malformed "expects a non-negative count")
  | .optionalIdentifier, .none => none
  | .optionalIdentifier, .name _ => none
  | .optionalIdentifier, _ => some (.malformed "expects an identifier or nothing")
  | .optionalValue, _ => none

end Instruction

namespace Tape

/-- The first malformed instruction from a position on. -/
def flawFrom? (size : Nat) : (position : Nat) → List Instruction → Option HostError
  | _, [] => none
  | position, i :: rest =>
    match i.flaw? position size with
    | some (.malformed reason) => some (.malformedTape position i.op.name reason)
    | some .overflow => some .overflow
    | none => flawFrom? size (position + 1) rest

def flaw? (t : Tape) : Option HostError :=
  match flawFrom? t.size 0 t.instructions.toList with
  | some flaw => some flaw
  | none =>
    if !t.places.isEmpty && t.places.size != t.size then
      some (.malformedTape t.places.size "source map" "source map length differs from tape length")
    else none

end Tape

namespace CompiledModule

def functionFlaw? (m : CompiledModule) (f : FunctionDef) : Option HostError :=
  if f.start ≥ m.tape.size then
    some (.malformedModule
      s!"function `{f.name}` starts at {f.start} past the end of the tape ({m.tape.size})")
  else
    match f.owner with
    | some owner =>
      if m.classes.any fun c => c.name = owner then none
      else some (.malformedModule s!"method `{f.name}` names unknown class `{owner}`")
    | none => none

def classFlaw? (m : CompiledModule) (c : ClassDef) : Option HostError :=
  if c.start > c.stop || c.stop > m.tape.size then
    some (.malformedModule
      s!"class `{c.name}` spans {c.start}..{c.stop} outside the tape ({m.tape.size})")
  else none

/-- The first flaw, in the tape, then in the functions, then in the classes. -/
def flaw? (m : CompiledModule) : Option HostError :=
  m.tape.flaw? <|> m.functions.toList.findSome? m.functionFlaw? <|> m.classes.toList.findSome? m.classFlaw?

def validate (m : CompiledModule) : Except HostError Unit :=
  match m.flaw? with
  | some flaw => .error flaw
  | none => .ok ()

end CompiledModule

end Spool
