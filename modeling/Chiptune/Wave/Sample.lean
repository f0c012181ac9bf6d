import Chiptune.Binary
import Chiptune.Rounding

/-!
# Samples

An amplitude is limited to `[-1, 1]` and then either scaled to an integer, with its fraction
dropped, or rounded to binary32.
-/

namespace Chiptune.Wave

/-- An amplitude limited to `[-1, 1]`; what is no number stays none. -/
def limit (x : Float) : Float := if x < -1 then -1 else if 1 < x then 1 else x

/-- The integer part of `x` times `scale`, toward zero. -/
def scaled (scale : Float) (x : Float) : Int :=
  let product := x * scale
  if product < 0 then -(floorCount (-product) : Int) else (floorCount product : Int)

/-- The bits of the binary32 number nearest to `x`. Its unit is `2 ^ 29` units of the mantissa of
`x`, and more below the smallest normal number. -/
def singleBits (x : Float) : Nat :=
  match Dyadic.ofFloat? x with
  | some d =>
    let magnitude := (d.power - 896) <<< 23 + roundDiv d.mantissa (1 <<< max 29 (925 - d.power))
    (if d.negative then 1 <<< 31 else 0) + min magnitude 0x7f800000
  | none => if x < 0 then 0xff800000 else if 0 < x then 0x7f800000 else 0x7fc00000

end Chiptune.Wave
