import Spool.Decimal.Reading
import Spool.Tape.Basic
import Spool.Tape.Statement
import Spool.Text.Quoted

/-!
# Literals

The operands an instruction can be written with: a quoted text or character, a number, a name, or
nothing.
-/

namespace Spool.Literal

/-- What stands between an opening quote that has been read and the closing quote at the end. -/
def body? (quote : Char) (rest : List Char) : Option (List Char) :=
  match rest.reverse with
  | c :: inner => if c = quote then some inner.reverse else none
  | [] => none

def readText (rest : List Char) : Except AssemblyError Operand :=
  match body? '"' rest with
  | none => .error .unterminatedString
  | some body =>
    match Text.unescape body with
    | some cs => .ok (.text (String.ofList cs))
    | none => .error .badStringEscape

/-- A character literal holds exactly one byte, so its character is ASCII. -/
def readChar (rest : List Char) : Except AssemblyError Operand :=
  match body? '\'' rest with
  | none => .error .unterminatedChar
  | some body =>
    match Text.unescape body with
    | none => .error .badCharEscape
    | some [c] =>
      if c.toNat < 128 then .ok (.scalar (.char c.toNat.toUInt8.toInt8)) else .error .charNotOneByte
    | some _ => .error .charNotOneByte

/-- Whatever reads as an integer is one. -/
def readNumber (text : List Char) : Except AssemblyError Operand :=
  match Decimal.readInt? text with
  | some n => .ok (.scalar (.int n))
  | none =>
    match Decimal.readFloat? text with
    | some x => .ok (.scalar (.float x))
    | none => .error (.badNumber (String.ofList text))

def read (text : List Char) : Except AssemblyError Operand :=
  match text with
  | [] => .ok .none
  | '"' :: rest => readText rest
  | '\'' :: rest => readChar rest
  | c :: _ =>
    if c.isDigit || c = '-' || c = '+' then readNumber text
    else if isIdentifier text then .ok (.name (String.ofList text))
    else .error (.badOperand (String.ofList text))

/-- Whether an operand as written suits an opcode; ranges are checked later. -/
def fits : Op.Shape → Operand → Bool
  | .nothing, .none => true
  | .identifier, .name _ => true
  | .offset, .scalar (.int _) => true
  | .optionalCount, .none => true
  | .optionalCount, .scalar (.int _) => true
  | .optionalIdentifier, .none => true
  | .optionalIdentifier, .name _ => true
  | .optionalValue, _ => true
  | _, _ => false

end Spool.Literal
