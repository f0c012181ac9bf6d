/-!
# Binary numbers taken apart

A finite binary64 number is a mantissa below `2 ^ 53` times a power of two. The smallest power is
`2 ^ (-1074)`, so powers are counted from there. Taken apart, numbers can be rounded to other
grids exactly.
-/

namespace Chiptune

/-- The whole number nearest to `num / den`, a tie going to the even one. -/
def roundDiv (num den : Nat) : Nat :=
  let q := num / den
  let r := num % den
  if 2 * r < den then q
  else if den < 2 * r then q + 1
  else q + q % 2

/-- The number `mantissa * 2 ^ power / 2 ^ 1074`, with a sign. -/
structure Dyadic where
  negative : Bool
  mantissa : Nat
  power : Nat
deriving DecidableEq

/-- The parts of a binary64 number, none for infinities and what is no number. -/
def Dyadic.ofFloat? (x : Float) : Option Dyadic :=
  let bits := x.toBits.toNat
  let exponent := (bits >>> 52) % (1 <<< 11)
  let fraction := bits % (1 <<< 52)
  if exponent = 2047 then none
  else some {
    negative := decide (1 <<< 63 ≤ bits)
    mantissa := if exponent = 0 then fraction else 1 <<< 52 + fraction
    power := exponent - 1 }

end Chiptune
