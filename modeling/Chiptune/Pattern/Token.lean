import Chiptune.Text.DecimalDigit

/-!
# Step tokens

The compressed notation of a pattern, such as `C4D4--.E4`. It is cut into tokens: notes (a letter,
an optional accidental and a decimal digit), the marker `.` for a rest and the marker `-` for
holding the step before it. What lies between is kept as a token of its own, so that no character
is lost and a faulty note comes to light when it is played. Then every `-` is replaced by the token
that it holds.
-/

namespace Chiptune.Pattern

/-- The token of a rest. -/
def restToken : List Char := ['.']

/-- The token that holds the step before it. -/
def holdToken : List Char := ['-']

/-- The rest and the hold marker. -/
def isMarker (c : Char) : Bool := c = '.' || c = '-'

/-- The letter of a note is an ASCII letter. -/
def isNoteLetter (c : Char) : Bool := c.isAlpha

/-- A sharp or a flat. -/
def isAccidental (c : Char) : Bool := c = '#' || c = 'b'

/-- Puts the gap in progress, its last character first, before further tokens. -/
def closeGap (gap : List Char) (tokens : List (List Char)) : List (List Char) :=
  if gap.isEmpty then tokens else gap.reverse :: tokens

/-- Cuts a text into tokens; `gap` holds the gap in progress, its last character first. -/
def cut (gap : List Char) : List Char → List (List Char)
  | [] => closeGap gap []
  | c :: cs =>
    if isMarker c then closeGap gap ([c] :: cut [] cs)
    else if isNoteLetter c then
      match cs with
      | [] => cut (c :: gap) []
      | d :: ds =>
        if Text.isDecimalDigit d then closeGap gap ([c, d] :: cut [] ds)
        else if isAccidental d then
          match ds with
          | [] => cut (c :: gap) [d]
          | e :: es =>
            if Text.isDecimalDigit e then closeGap gap ([c, d, e] :: cut [] es)
            else cut (c :: gap) (d :: e :: es)
        else cut (c :: gap) (d :: ds)
    else cut (c :: gap) cs

/-- The tokens of a text as they are written. -/
def rawTokens (text : List Char) : List (List Char) := cut [] text

/-- Replaces every hold marker by the token before it, the first one by `previous`. -/
def hold (previous : List Char) : List (List Char) → List (List Char)
  | [] => []
  | token :: tokens =>
    let token := if token = holdToken then previous else token
    token :: hold token tokens

/-- The tokens of a text with nothing left to hold; a hold with nothing before it is a rest. -/
def stepTokens (text : List Char) : List (List Char) := hold restToken (rawTokens text)

/-- Whether a text begins by holding a step that is not there. -/
def startsHeld (text : List Char) : Bool := (rawTokens text).head? = some holdToken

end Chiptune.Pattern
