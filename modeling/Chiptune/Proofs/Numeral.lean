import Chiptune.Decimal.Count
import Mathlib.Tactic.Common

/-!
# Numerals

A count is read from a text exactly if the text is a numeral: one or more of the digits 0 to 9,
after at most one plus sign. What is read is the number that the digits denote, and the notation of
a number is read as that number.
-/

namespace Chiptune.Decimal

/-- A text without the plus sign that may stand at its front. -/
def unsigned (text : String) : List Char :=
  if text.toList.head? = some '+' then text.toList.tail else text.toList

/-- One or more digits, after at most one plus sign. -/
def isNumeral (text : String) : Bool :=
  !(unsigned text).isEmpty && (unsigned text).all Char.isDigit

/-- The number that a numeral denotes. -/
def numeral (text : String) : Nat := Nat.ofDigitChars 10 (unsigned text) 0

theorem readDigits_eq (n : Nat) (cs : List Char) :
    readDigits n cs = if cs.all Char.isDigit then some (Nat.ofDigitChars 10 cs n) else none := by
  induction cs generalizing n with
  | nil => rfl
  | cons c cs ih =>
    rw [readDigits, digit?, List.all_cons, Nat.ofDigitChars_cons]
    cases c.isDigit with
    | true => exact ih _
    | false => rfl

/-- A count is what a numeral denotes, if it is within the limit. -/
theorem readCount?_eq (limit : Nat) (text : String) :
    readCount? limit text =
      if isNumeral text ∧ numeral text ≤ limit then some (numeral text) else none := by
  have hread : readCount? limit text =
      if (unsigned text).isEmpty then none
      else (readDigits 0 (unsigned text)).filter (· ≤ limit) := by
    unfold readCount? unsigned
    rcases text.toList with _ | ⟨c, cs⟩
    · rfl
    · by_cases hc : c = '+'
      · subst hc
        cases cs <;> rfl
      · simp [hc]
  rw [hread, readDigits_eq, isNumeral, numeral]
  cases (unsigned text).isEmpty with
  | true => rfl
  | false =>
    cases (unsigned text).all Char.isDigit with
    | true => simp [Option.filter]
    | false => rfl

/-- The notation of a number is a numeral for it. -/
theorem numeral_toString (n : Nat) : isNumeral (toString n) = true ∧ numeral (toString n) = n := by
  have hdigits : ∀ c ∈ Nat.toDigits 10 n, c.isDigit = true :=
    fun c hc => Nat.isDigit_of_mem_toDigits (by decide) (by decide) hc
  have hunsigned : unsigned (toString n) = Nat.toDigits 10 n := by
    rw [unsigned, Nat.toString_eq_repr, Nat.toList_repr, if_neg]
    intro hplus
    exact absurd (hdigits _ (List.mem_of_head? hplus)) (by decide)
  rw [isNumeral, numeral, hunsigned]
  refine ⟨?_, Nat.ofDigitChars_ten_toDigits⟩
  rw [Bool.and_eq_true, List.all_eq_true]
  exact ⟨by simp [Nat.toDigits_ne_nil], hdigits⟩

end Chiptune.Decimal
