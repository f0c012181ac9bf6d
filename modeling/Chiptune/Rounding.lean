/-!
# Rounding to whole numbers

Binary64 numbers as counts. Every conversion saturates at the largest 64-bit count and takes a
number that is not one to zero, as the conversion of the machine does.
-/

namespace Chiptune

/-- The largest 64-bit count. -/
def maxCount : Nat := UInt64.size - 1

/-- A 64-bit count as a binary64 number, rounded to nearest. -/
@[inline] def asFloat (n : Nat) : Float := n.toUInt64.toFloat

/-- The whole part of `x`. -/
def floorCount (x : Float) : Nat := x.toUInt64.toNat

/-- The least count that is not below `x`. -/
def ceilCount (x : Float) : Nat :=
  let n := floorCount x
  if asFloat n < x then min (n + 1) maxCount else n

/-- The count nearest to `x`, a half going up. -/
def roundCount (x : Float) : Nat :=
  let n := floorCount x
  if 0.5 ≤ x - asFloat n then min (n + 1) maxCount else n

end Chiptune
