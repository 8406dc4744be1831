/-!
# Shortest decimals

The decimal with the fewest digits that still rounds to a given binary number, found by exact
arithmetic. Of two decimals of that length the nearer one is taken, and the larger one when they are
equally near.
-/

namespace Spool.Decimal

/-- A positive number `mantissa * 2 ^ exponent` of a binary format. -/
structure Binary where
  mantissa : Nat
  exponent : Int
  /-- The number below stands at half the distance of the number above. -/
  closeBelow : Bool
  deriving DecidableEq, Repr

/-- The magnitude of a finite double, from its bits. -/
def Binary.ofBits (bits : UInt64) : Binary :=
  let biased := ((bits >>> 52) &&& 0x7ff).toNat
  let fraction := (bits &&& 0xfffffffffffff).toNat
  if biased = 0 then ⟨fraction, -1074, false⟩
  else ⟨fraction + 4503599627370496, biased - 1075, fraction = 0 && biased > 1⟩

/-- Digits of a positive decimal, most significant first; the decimal point stands after `point` of
them. -/
structure Digits where
  digits : List Nat
  point : Int
  deriving DecidableEq, Repr

def digitsOf (n : Nat) : List Nat := (Nat.toDigits 10 n).map fun c => c.toNat - '0'.toNat

def dropTrailingZeros (ds : List Nat) : List Nat := (ds.reverse.dropWhile (· = 0)).reverse

/-- A number measured in units of a power of ten, with the interval of numbers that round to it: each
of the three stands for itself divided by `unit`. -/
structure Grid where
  value : Nat
  low : Nat
  high : Nat
  unit : Nat
  /-- The ends of the interval round to the number too. -/
  closed : Bool
  deriving DecidableEq, Repr

namespace Binary

/-- The number in units of `10 ^ place`. -/
def grid (b : Binary) (place : Int) : Grid :=
  let scale := Nat.pow 2 (b.exponent - 2).toNat * Nat.pow 10 (-place).toNat
  let quarter := 4 * b.mantissa
  { value := quarter * scale
    low := (quarter - (if b.closeBelow then 1 else 2)) * scale
    high := (quarter + 2) * scale
    unit := Nat.pow 2 (2 - b.exponent).toNat * Nat.pow 10 place.toNat
    closed := b.mantissa % 2 = 0 }

/-- The number is below `10 ^ place`. -/
def belowPower (b : Binary) (place : Int) : Bool :=
  let g := b.grid place
  g.value < g.unit

/-- How many digits stand before the decimal point; zero or less for numbers below one tenth. -/
def point (b : Binary) : Int :=
  let bits : Int := b.exponent + Nat.log2 b.mantissa
  let guess := Int.fdiv (bits * 30103) 100000
  if b.belowPower guess then guess
  else if b.belowPower (guess + 1) then guess + 1
  else guess + 2

end Binary

namespace Grid

/-- The multiple `n` of the unit rounds to the number. -/
def holds (g : Grid) (n : Nat) : Bool :=
  if g.closed then g.low ≤ n * g.unit && n * g.unit ≤ g.high
  else g.low < n * g.unit && n * g.unit < g.high

/-- The nearer of the two neighbouring multiples among those that round to the number. -/
def pick (g : Grid) : Option Nat :=
  let below := g.value / g.unit
  match g.holds below, g.holds (below + 1) with
  | true, false => some below
  | false, true => some (below + 1)
  | true, true => if 2 * (g.value % g.unit) < g.unit then some below else some (below + 1)
  | false, false => none

end Grid

/-- Tries `count` digits, then one more, as often as `fuel` allows. -/
def Binary.search (b : Binary) (point : Int) : (fuel count : Nat) → Nat × Nat
  | 0, count =>
    let g := b.grid (point - count)
    (g.value / g.unit, count)
  | fuel + 1, count =>
    match (b.grid (point - count)).pick with
    | some n => (n, count)
    | none => b.search point fuel (count + 1)

/-- Seventeen digits always suffice for a double. -/
def Binary.shortest (b : Binary) : Digits :=
  let point := b.point
  let (n, count) := b.search point 17 1
  let ds := digitsOf n
  ⟨dropTrailingZeros ds, point + (ds.length - count)⟩

end Spool.Decimal
