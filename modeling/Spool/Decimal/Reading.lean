/-!
# Reading numbers

Integers are an optional sign and digits, within 64 bits. Doubles are an optional sign before a
decimal with an optional exponent, or before a name of infinity or of no number, in any case.
-/

namespace Spool.Decimal

def digitValue (c : Char) : Nat := c.toNat - '0'.toNat

def valueOf (ds : List Char) : Nat := ds.foldl (fun n c => 10 * n + digitValue c) 0

/-- The sign (true for minus) and what follows it. -/
def splitSign : List Char → Bool × List Char
  | '-' :: rest => (true, rest)
  | '+' :: rest => (false, rest)
  | cs => (false, cs)

def readInt? (text : List Char) : Option Int64 :=
  let (negative, ds) := splitSign text
  if ds.isEmpty || !ds.all Char.isDigit then none
  else
    let n : Int := if negative then -(valueOf ds : Int) else valueOf ds
    if -9223372036854775808 ≤ n && n < 9223372036854775808 then some (Int64.ofInt n) else none

/-- The exponent after the digits: nothing, or a mark, a sign and at least one digit. -/
def readExponent? : List Char → Option Int
  | [] => some 0
  | c :: rest =>
    if c = 'e' || c = 'E' then
      let (negative, ds) := splitSign rest
      if ds.isEmpty || !ds.all Char.isDigit then none
      else some (if negative then -(valueOf ds : Int) else valueOf ds)
    else none

/-- The double nearest to `n * 10 ^ e`. Magnitudes that no double can hold are settled without the
power itself. -/
def scaled (n : Nat) (e : Int) : Float :=
  let size : Int := e + (Nat.toDigits 10 n).length
  if n = 0 then 0.0
  else if size > 400 then 1.0 / 0.0
  else if size < -400 then 0.0
  else if e < 0 then Float.ofScientific n true e.natAbs
  else Float.ofScientific n false e.natAbs

def readDecimal? (text : List Char) : Option Float :=
  let whole := text.takeWhile Char.isDigit
  let rest := text.dropWhile Char.isDigit
  let (fraction, rest) :=
    match rest with
    | '.' :: tail => (tail.takeWhile Char.isDigit, tail.dropWhile Char.isDigit)
    | _ => ([], rest)
  if whole.isEmpty && fraction.isEmpty then none
  else (readExponent? rest).map fun e => scaled (valueOf (whole ++ fraction)) (e - fraction.length)

def readFloat? (text : List Char) : Option Float :=
  let (negative, body) := splitSign text
  let magnitude :=
    match String.ofList (body.map Char.toLower) with
    | "inf" | "infinity" => some (1.0 / 0.0)
    | "nan" => some (0.0 / 0.0)
    | _ => readDecimal? body
  magnitude.map fun x => if negative then -x else x

end Spool.Decimal
