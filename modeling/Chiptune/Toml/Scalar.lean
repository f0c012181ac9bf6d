import Chiptune.Toml.Text
import Chiptune.Toml.Value

/-!
# Numbers, truth values and date-times

Values that are written in one go, without quotes or brackets. Integers are of 64 bits; a
floating-point number must not exceed binary64.
-/

namespace Chiptune.Toml

/-! ## Numbers -/

/-- Digits with the underscores between them taken out. `afterDigit` says whether a digit has just
been read; every underscore stands between two digits. -/
def plainDigits (isDigit : Char → Bool) (afterDigit : Bool) : List Char → Option (List Char)
  | [] => if afterDigit then some [] else none
  | '_' :: cs => if afterDigit then plainDigits isDigit false cs else none
  | c :: cs => if isDigit c then (plainDigits isDigit true cs).map (c :: ·) else none

/-- The number that digits stand for. -/
def numberOf (base : Nat) (digits : List Char) : Nat :=
  digits.foldl (fun n c => base * n + (hexDigit? c).getD 0) 0

/-- Decimal digits with underscores and without leading zeros. -/
def wholeDigits (text : List Char) : Option (List Char) :=
  match text with
  | '0' :: _ :: _ => none
  | _ => plainDigits Char.isDigit false text

/-- A sign, if there is one. -/
def splitSign : List Char → Bool × List Char
  | '+' :: cs => (false, cs)
  | '-' :: cs => (true, cs)
  | cs => (false, cs)

/-- An integer of 64 bits. -/
def int64? (n : Int) : Option Value :=
  if Int64.minValue.toInt ≤ n ∧ n ≤ Int64.maxValue.toInt then some (.integer n) else none

/-- A digit of base 8. -/
def isOctal (c : Char) : Bool := '0' ≤ c && c ≤ '7'

/-- A digit of base 2. -/
def isBinary (c : Char) : Bool := c = '0' || c = '1'

/-- An integer in any of its notations. -/
def integer? (text : List Char) : Option Value :=
  match text with
  | '0' :: 'x' :: cs => do
    int64? (numberOf 16 (← plainDigits (fun c => (hexDigit? c).isSome) false cs))
  | '0' :: 'o' :: cs => do int64? (numberOf 8 (← plainDigits isOctal false cs))
  | '0' :: 'b' :: cs => do int64? (numberOf 2 (← plainDigits isBinary false cs))
  | _ => do
    let (negative, digits) := splitSign text
    let n := (numberOf 10 (← wholeDigits digits) : Int)
    int64? (if negative then -n else n)

/-- Whether `digits * 10 ^ (exponent - shift)` rounds to a binary64 number, which it does below
`2 ^ 1024 - 2 ^ 970`. Numbers whose decimal exponent alone decides are not multiplied out. -/
def isRepresentable (digits : List Char) (exponent : Int) (shift : Nat) : Bool :=
  let digits := digits.dropWhile (· = '0')
  let power := exponent - shift
  if digits.isEmpty then true
  else if digits.length + power ≤ 308 then true
  else if 310 ≤ digits.length + power then false
  else numberOf 10 digits * Nat.pow 10 power.toNat
    < (1 <<< 1024 - 1 <<< 970) * Nat.pow 10 (-power).toNat

/-- An exponent: a sign and digits, leading zeros included. -/
def exponent? (text : List Char) : Option Int := do
  let (negative, digits) := splitSign text
  let n := (numberOf 10 (← plainDigits Char.isDigit false digits) : Int)
  return if negative then -n else n

/-- A floating-point number: whole digits, then a fraction or an exponent or both. -/
def float? (text : List Char) : Option Value := do
  let (negative, unsigned) := splitSign text
  if unsigned = "inf".toList ∨ unsigned = "nan".toList then return .float
  let isMark (c : Char) : Bool := c = 'e' || c = 'E'
  let mantissa := unsigned.takeWhile (!isMark ·)
  let tail := unsigned.dropWhile (!isMark ·)
  let exponent ← match tail with
    | [] => some 0
    | _ :: cs => exponent? cs
  let whole ← wholeDigits (mantissa.takeWhile (· ≠ '.'))
  let fraction ← match mantissa.dropWhile (· ≠ '.') with
    | [] => if tail.isEmpty then none else some []
    | _ :: cs => plainDigits Char.isDigit false cs
  if negative || isRepresentable (whole ++ fraction) exponent fraction.length then some .float
  else none

/-! ## Date-times -/

/-- Two digits that make a number from `low` to `high`. -/
def twoDigits (low high : Nat) : Reader Nat
  | a :: b :: cs =>
    if a.isDigit ∧ b.isDigit then
      let n := numberOf 10 [a, b]
      if low ≤ n ∧ n ≤ high then some (n, cs) else none
    else none
  | _ => none

/-- The rest after a given character. -/
def mark? (mark : Char) : List Char → Option (List Char)
  | c :: cs => if c = mark then some cs else none
  | [] => none

/-- The number of days of a month. -/
def daysOfMonth (year month : Nat) : Nat :=
  if month = 2 then
    if year % 4 = 0 ∧ (year % 100 ≠ 0 ∨ year % 400 = 0) then 29 else 28
  else if month = 4 ∨ month = 6 ∨ month = 9 ∨ month = 11 then 30
  else 31

/-- The rest after a date. -/
def date? (text : List Char) : Option (List Char) := do
  let (century, cs) ← twoDigits 0 99 text
  let (year, cs) ← twoDigits 0 99 cs
  let (month, cs) ← twoDigits 1 12 (← mark? '-' cs)
  let (_, cs) ← twoDigits 1 (daysOfMonth (100 * century + year) month) (← mark? '-' cs)
  return cs

/-- The rest after a time of day; seconds may be 60 and have a fraction. -/
def time? (text : List Char) : Option (List Char) := do
  let (_, cs) ← twoDigits 0 23 text
  let (_, cs) ← twoDigits 0 59 (← mark? ':' cs)
  let (_, cs) ← twoDigits 0 60 (← mark? ':' cs)
  match cs with
  | '.' :: c :: cs => if c.isDigit then some (cs.dropWhile Char.isDigit) else none
  | cs => some cs

/-- Whether a text is an offset from universal time, or nothing at all. -/
def isOffset (text : List Char) : Bool :=
  match text with
  | [] | ['Z'] | ['z'] => true
  | c :: cs =>
    (c = '+' || c = '-') && (do
      let (_, cs) ← twoDigits 0 23 cs
      let (_, cs) ← twoDigits 0 59 (← mark? ':' cs)
      return cs) = some []

/-- Whether a text is a time with an offset or without. -/
def isOffsetTime (text : List Char) : Bool := (time? text).any isOffset

/-- Whether a text is a date, a time or both. -/
def isDateTime (text : List Char) : Bool :=
  match date? text with
  | some [] => true
  | some (c :: cs) => (c = 'T' || c = 't') && isOffsetTime cs
  | none => time? text = some []

/-! ## Any of them -/

/-- A character of a value that is written in one go. -/
def isScalarChar (c : Char) : Bool :=
  c.isAlphanum || c = '+' || c = '-' || c = '_' || c = '.' || c = ':'

/-- A value that is written in one go. -/
def scalarOf? (text : List Char) : Option Value :=
  if text = "true".toList then some (.boolean true)
  else if text = "false".toList then some (.boolean false)
  else if isDateTime text then some .dateTime
  else integer? text <|> float? text

/-- Reads a value that is written in one go. A date and a time may have a space between them. -/
def anyScalar : Reader Value := fun text =>
  let token := text.takeWhile isScalarChar
  let rest := text.dropWhile isScalarChar
  match date? token, rest with
  | some [], ' ' :: h :: m :: ':' :: _ =>
    if h.isDigit ∧ m.isDigit then
      let rest := rest.drop 1
      if isOffsetTime (rest.takeWhile isScalarChar) then
        some (.dateTime, rest.dropWhile isScalarChar)
      else none
    else some (.dateTime, rest)
  | _, _ => (scalarOf? token).map fun value => (value, rest)

end Chiptune.Toml
