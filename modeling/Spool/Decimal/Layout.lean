import Spool.Decimal.Shortest

/-!
# Layouts of decimals

How the shortest digits of a double are written: positionally, or with an exponent outside a range
that the layout sets.
-/

namespace Spool.Decimal

structure Layout where
  /-- Digits kept after the point in positional notation, even if they are zeros. -/
  fraction : Nat
  /-- Numbers below `10 ^ point` in this range of points are written positionally; all are if there
  is no range. -/
  range : Option (Int × Int)

/-- No exponent ever, and no fraction when there is none. -/
def Layout.plain : Layout := ⟨0, none⟩

/-- A fraction always, and an exponent from ten to the sixteenth on and below one ten-thousandth. -/
def Layout.exact : Layout := ⟨1, some (-3, 16)⟩

def digitText (ds : List Nat) : String := String.ofList (ds.map Nat.digitChar)

def zeros (n : Nat) : String := String.ofList (List.replicate n '0')

def signText (n : Int) : String := if n < 0 then "-" else ""

def intText (n : Int) : String := signText n ++ digitText (digitsOf n.natAbs)

namespace Layout

def positional (layout : Layout) (d : Digits) : String :=
  if d.point ≤ 0 then "0." ++ zeros (-d.point).toNat ++ digitText d.digits
  else
    let before := d.point.toNat
    let after := d.digits.drop before
    let whole := digitText (d.digits.take before) ++ zeros (before - d.digits.length)
    let padding := zeros (layout.fraction - after.length)
    if after.isEmpty && layout.fraction = 0 then whole
    else whole ++ "." ++ digitText after ++ padding

def exponential (d : Digits) : String :=
  let tail := d.digits.drop 1
  let mantissa := digitText (d.digits.take 1) ++ if tail.isEmpty then "" else "." ++ digitText tail
  mantissa ++ "e" ++ intText (d.point - 1)

def digits (layout : Layout) (d : Digits) : String :=
  match layout.range with
  | some (low, high) => if low ≤ d.point && d.point ≤ high then layout.positional d else exponential d
  | none => layout.positional d

/-- The text of a double; the sign of zero shows, that of a NaN does not. -/
def text (layout : Layout) (x : Float) : String :=
  let bits := x.toBits
  let sign := if bits >>> 63 = 0 then "" else "-"
  if x.isNaN then "NaN"
  else if x.isInf then sign ++ "inf"
  else if bits <<< 1 = 0 then sign ++ layout.digits ⟨[0], 1⟩
  else sign ++ layout.digits (Binary.ofBits bits).shortest

end Layout

end Spool.Decimal
