import Spool.Fault

/-!
# Arithmetic and comparison of scalars

Integers wrap around at 64 bits and division cuts toward zero. As soon as one operand is a float both
are taken as floats.
-/

namespace Spool

namespace Scalar

def unsupported (op : Op) (lhs rhs : Scalar) : Fault := .operands op lhs.typeName rhs.typeName

def floatArithmetic? (a b : Float) : Op → Option Float
  | .add => some (a + b)
  | .sub => some (a - b)
  | .mul => some (a * b)
  | .div => some (a / b)
  | _ => none

/-- Integer arithmetic, apart from division by zero. -/
def intArithmetic? (a b : Int64) : Op → Option Int64
  | .add => some (a + b)
  | .sub => some (a - b)
  | .mul => some (a * b)
  | .div => some (a / b)
  | .mod => some (a % b)
  | .band => some (a &&& b)
  | .bxor => some (a ^^^ b)
  | .bor => some (a ||| b)
  | _ => none

def arithmetic (op : Op) (lhs rhs : Scalar) : Except Fault Scalar :=
  match lhs.toInt?, rhs.toInt? with
  | some a, some b =>
    if b = 0 && (op = .div || op = .mod) then .error .divisionByZero
    else
      match intArithmetic? a b op with
      | some n => .ok (.int n)
      | none => .error (unsupported op lhs rhs)
  | _, _ =>
    match floatArithmetic? lhs.toFloat rhs.toFloat op with
    | some x => .ok (.float x)
    | none => .error (unsupported op lhs rhs)

/-- A NaN has no order with anything. -/
def floatOrder (a b : Float) : Option Ordering :=
  if a < b then some .lt else if b < a then some .gt else if a == b then some .eq else none

def order (lhs rhs : Scalar) : Option Ordering :=
  match lhs.toInt?, rhs.toInt? with
  | some a, some b => some (compareOfLessAndEq a b)
  | _, _ => floatOrder lhs.toFloat rhs.toFloat

def same (lhs rhs : Scalar) : Bool := lhs.order rhs == some .eq

end Scalar

namespace Op

/-- Whether a comparison holds of two operands in the given order; other opcodes never hold. -/
def holds (op : Op) (order : Ordering) : Bool :=
  match op with
  | lt => order == .lt
  | gt => order == .gt
  | lte => order != .gt
  | gte => order != .lt
  | eq => order == .eq
  | neq => order != .eq
  | _ => false

/-- Scalars without an order compare false, except that they differ. -/
def compare (op : Op) (lhs rhs : Scalar) : Bool :=
  match lhs.order rhs with
  | some order => op.holds order
  | none => op = neq

/-- Texts are ordered by their code points. -/
def compareText (op : Op) (lhs rhs : String) : Bool := op.holds (compareOfLessAndEq lhs rhs)

end Op

end Spool
