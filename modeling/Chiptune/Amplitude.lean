/-!
# Amplitudes

The arithmetic that sound is computed in. Everything that is heard is written over an arbitrary
`Amplitude`, so that the same definition runs on binary64 numbers and can be read in exact
arithmetic. Times and pitches are not amplitudes: they are binary64 throughout, because the
number of frames of a note depends on how they round.
-/

namespace Chiptune

/-- Ordered numbers with whole parts and a sine. -/
class Amplitude (R : Type) extends Add R, Sub R, Mul R, Div R, Neg R, LT R where
  /-- A count as an amplitude. -/
  ofCount : Nat → R
  /-- The whole part, toward zero. -/
  whole : R → R
  /-- The sine of an angle in radians. -/
  sin : R → R
  /-- Half a turn in radians. -/
  halfTurn : R
  /-- The order can be tested. -/
  decidableLT : DecidableLT R

namespace Amplitude

variable {R : Type} [Amplitude R]

instance (a b : R) : Decidable (a < b) := decidableLT a b

/-- Numerals are counts. -/
instance (priority := low) instOfNat (n : Nat) : OfNat R n := ⟨ofCount n⟩

/-- The distance from zero. -/
@[inline] def magnitude (v : R) : R := if v < 0 then -v else v

/-- The remainder of a division by `m`, in `[0, m)` for a positive `m`. -/
@[inline] def remainder (v m : R) : R :=
  let r := v - m * whole (v / m)
  if r < 0 then r + m else r

end Amplitude

/-! ## Binary64 -/

/-- The whole part of a binary64 number; from `2 ^ 53` on every number is whole. -/
def wholePart (v : Float) : Float :=
  if v < 0 then (if -9007199254740992 < v then -(-v).toUInt64.toFloat else v)
  else if v < 9007199254740992 then v.toUInt64.toFloat
  else v

instance : Amplitude Float where
  ofCount n := n.toUInt64.toFloat
  whole := wholePart
  sin := Float.sin
  halfTurn := Float.ofBits 0x400921FB54442D18
  decidableLT := inferInstance

end Chiptune
