import Spool.Op

/-!
# Assembly errors

Why a line of assembly text is refused.
-/

namespace Spool

inductive AssemblyError where
  | labelTwice (name : String)
  | undefinedLabel (name : String)
  | badLabel (text : String)
  | takesNoLabel (op : Op)
  | unknownInstruction (mnemonic : String)
  | misfit (op : Op)
  | unterminatedString
  | badStringEscape
  | unterminatedChar
  | badCharEscape
  | charNotOneByte
  | badNumber (text : String)
  | badOperand (text : String)
  | unknownDirective (name : String)
  | functionWithoutName
  | unknownFlag (word : String)
  | nestedClass
  | classWithoutName
  | missingSuperclass
  | badField (name : String)
  | strayEnd
  deriving DecidableEq, Repr

namespace AssemblyError

def text : AssemblyError → String
  | labelTwice name => s!"label `{name}` defined twice"
  | undefinedLabel name => s!"undefined label `{name}`"
  | badLabel name => s!"bad label `{name}`"
  | takesNoLabel op => s!"`{op.name}` does not take a label"
  | unknownInstruction mnemonic => s!"unknown instruction `{mnemonic}`"
  | misfit op => s!"bad operand for `{op.name}`"
  | unterminatedString => "unterminated string"
  | badStringEscape => "bad escape in string"
  | unterminatedChar => "unterminated char"
  | badCharEscape => "bad escape in char"
  | charNotOneByte => "char literal must be one byte"
  | badNumber number => s!"bad number `{number}`"
  | badOperand operand => s!"bad operand `{operand}`"
  | unknownDirective name => s!"unknown directive `.{name}`"
  | functionWithoutName => ".func needs a name"
  | unknownFlag word => s!"unknown flag `{word}`"
  | nestedClass => "classes do not nest"
  | classWithoutName => ".class needs a name"
  | missingSuperclass => "missing superclass after `:`"
  | badField name => s!"bad field name `{name}`"
  | strayEnd => ".end without .class"

end AssemblyError

end Spool
