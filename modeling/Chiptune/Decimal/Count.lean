/-!
# Reading counts

A count is written as one or more of the digits 0 to 9, with any number of leading zeros and at
most one plus sign in front.
-/

namespace Chiptune.Decimal

/-- The value of a digit 0 to 9. -/
def digit? (c : Char) : Option Nat := if c.isDigit then some (c.toNat - '0'.toNat) else none

/-- Reads digits onto the number `n`; nothing else may follow. -/
def readDigits (n : Nat) : List Char → Option Nat
  | [] => some n
  | c :: cs => (digit? c).bind fun d => readDigits (10 * n + d) cs

/-- Reads a count of at most `limit`. -/
def readCount? (limit : Nat) (text : String) : Option Nat :=
  let digits := match text.toList with
    | '+' :: cs => cs
    | cs => cs
  match digits with
  | [] => none
  | _ => (readDigits 0 digits).filter (· ≤ limit)

end Chiptune.Decimal
