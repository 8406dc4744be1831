/-!
# Scalars

The values that are copied and never shared: one signed byte, a 64-bit integer, a double.
-/

namespace Spool

inductive Scalar where
  | char (byte : Int8)
  | int (value : Int64)
  | float (value : Float)
  deriving Inhabited

namespace Scalar

/-- Characters count as integers everywhere. -/
def toInt? : Scalar → Option Int64
  | char byte => some byte.toInt64
  | int value => some value
  | float _ => none

def toFloat : Scalar → Float
  | char byte => byte.toInt64.toFloat
  | int value => value.toFloat
  | float value => value

def typeName : Scalar → String
  | char _ => "Char"
  | int _ => "Int"
  | float _ => "Float"

/-- The character whose code point is the byte read without its sign. -/
def byteText (byte : Int8) : String := String.singleton (Char.ofNat byte.toUInt8.toNat)

end Scalar

end Spool
