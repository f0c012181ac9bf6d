import Chiptune.Binary

/-!
# Decimals with a fixed number of places

Exact decimal notation: a fraction is rounded once, to the nearest decimal with the wanted number
of places, and a tie goes to the even neighbour. A binary64 number is a fraction whose denominator
is a power of two, so its notation is exact as well.
-/

namespace Chiptune.Decimal

/-- A number of units in decimal places as text: the whole part, a point and `places` digits. -/
def placed (units places : Nat) : String :=
  let digits := (Nat.toDigits 10 units).leftpad (places + 1) '0'
  String.ofList (digits.take (digits.length - places)) ++ "." ++
    String.ofList (digits.drop (digits.length - places))

/-- The fraction `num / den` with `places` digits after the point. -/
def fixedRatio (num den places : Nat) : String :=
  placed (roundDiv (num * Nat.pow 10 places) den) places

/-- A binary64 number with `places` digits after the point; zero keeps its sign. -/
def fixed (x : Float) (places : Nat) : String :=
  match Dyadic.ofFloat? x with
  | some d =>
    (if d.negative then "-" else "") ++
      fixedRatio (d.mantissa <<< (d.power - 1074)) (1 <<< (1074 - d.power)) places
  | none => if x < 0 then "-inf" else if 0 < x then "inf" else "NaN"

end Chiptune.Decimal
