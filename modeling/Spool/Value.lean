import Spool.Scalar.Basic
import Spool.Decimal.Layout

/-!
# Values

What a register, a variable or a slot holds: nothing, a scalar, or a handle to an object of the
process's heap.
-/

namespace Spool

/-- Names an object of one heap. The generation of a slot moves on whenever its object is reclaimed, so a
handle that outlives its object does not name a later tenant of the slot, until 32 bits of generations have
been used up. -/
structure Handle where
  index : Nat
  generation : Nat
  deriving DecidableEq, Hashable, Repr, Inhabited

inductive Value where
  | none
  | scalar (scalar : Scalar)
  | object (handle : Handle)
  deriving Inhabited

namespace Scalar

/-- The text a program prints. -/
def text : Scalar → String
  | char byte => byteText byte
  | int value => Decimal.intText value.toInt
  | float value => Decimal.Layout.plain.text value

/-- The text in messages about a value of the wrong kind. -/
def detail : Scalar → String
  | char byte => "Char(" ++ Decimal.intText byte.toInt ++ ")"
  | int value => "Int(" ++ Decimal.intText value.toInt ++ ")"
  | float value => "Float(" ++ Decimal.Layout.exact.text value ++ ")"

end Scalar

namespace Handle

def detail (h : Handle) : String :=
  "ObjectRef \x7b index: " ++ Decimal.intText h.index ++ ", generation: "
    ++ Decimal.intText h.generation ++ " \x7d"

end Handle

namespace Value

def int (n : Int64) : Value := scalar (.int n)

def ofNat (n : Nat) : Value := int (Int64.ofNat n)

/-- True is the integer one, false is none. -/
def ofBool (b : Bool) : Value := if b then int 1 else none

/-- None is the only false value. -/
def isTrue : Value → Bool
  | none => false
  | _ => true

def isNone : Value → Bool
  | none => true
  | _ => false

def handle? : Value → Option Handle
  | object h => some h
  | _ => Option.none

def scalar? : Value → Option Scalar
  | scalar s => some s
  | _ => Option.none

def int? : Value → Option Int64
  | scalar s => s.toInt?
  | _ => Option.none

/-- Both are the same object. -/
def sameObject : Value → Value → Bool
  | object a, object b => a = b
  | _, _ => false

def detail : Value → String
  | none => "None"
  | scalar s => "Primitive(" ++ s.detail ++ ")"
  | object h => "Object(" ++ h.detail ++ ")"

end Value

end Spool
