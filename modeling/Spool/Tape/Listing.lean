import Spool.Tape.Basic
import Spool.Text.Quoted

/-!
# Listings

The readable form of a tape, one line per instruction.
-/

namespace Spool

def Operand.listing : Operand → String
  | none => ""
  | scalar (.float x) => " " ++ Decimal.Layout.exact.text x
  | scalar (.char byte) => " '" ++ Scalar.byteText byte ++ "'"
  | scalar (.int n) => " " ++ Decimal.intText n.toInt
  | text s => " " ++ Text.quoted s
  | name s => " " ++ s

/-- A number aligned to the right in a column. -/
def padLeft (width : Nat) (s : String) : String :=
  String.ofList (List.replicate (width - s.length) ' ') ++ s

def Instruction.listing (i : Instruction) (position : Nat) : String :=
  padLeft 5 (Decimal.intText position) ++ "  " ++ i.op.name ++ i.operand.listing ++ "\n"

def Tape.listing (t : Tape) : String :=
  String.join (t.instructions.toList.zipIdx.map fun (i, position) => i.listing position)

end Spool
