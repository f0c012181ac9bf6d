import Chiptune.Pattern.Token
import Chiptune.Record.Basic
import Chiptune.Report
import Chiptune.Text.Words

/-!
# The text of a tune

A text is read line by line, each line as a list of words. A line whose first word is a keyword
heads a block, and the lines up to the next such line are its body. Each block makes one record, on
its own and without regard to what else the text holds. Nothing is checked here.
-/

namespace Chiptune

/-- A line with something on it. -/
structure Line where
  /-- Counted from 1. -/
  number : Nat
  /-- The line without the blanks around it. -/
  text : String
  head : String
  tail : List String
deriving DecidableEq

namespace Line

/-- The words after the first, written together. -/
def joinedTail (line : Line) : String := String.join line.tail

/-- All words of a line. -/
def words (line : Line) : List String := line.head :: line.tail

/-- The lines of a text from number `number` on, those without words left out. -/
def numbered (number : Nat) : List (List Char) → List Line
  | [] => []
  | text :: texts =>
    match Text.words text with
    | [] => numbered (number + 1) texts
    | head :: tail =>
      ⟨number, String.ofList (Text.trim text), String.ofList head, tail.map String.ofList⟩ ::
        numbered (number + 1) texts

/-- The lines of a text. -/
def ofText (text : String) : List Line := numbered 1 (Text.lines text.toList)

end Line

/-- A heading with the lines below it. -/
structure Block where
  kind : RecordKind
  heading : Line
  body : List Line
deriving DecidableEq

namespace Block

/-- Cuts lines at the headings. The lines before the first heading belong to no block. -/
def cut : List Line → List Line × List Block
  | [] => ([], [])
  | line :: lines =>
    let (body, blocks) := cut lines
    match RecordKind.ofKeyword? line.head with
    | some kind => ([], ⟨kind, line, body⟩ :: blocks)
    | none => (line :: body, blocks)

/-- The notation of the steps of a pattern, with the blanks in it taken out. -/
def stepText (block : Block) : String := String.join (block.heading.tail.drop 1)

/-- A line that opens the melodies of a phrase. -/
def opensMelodies (line : Line) : Bool := line.head = "melodies"

/-- The lines of a body with settings: in a phrase those before its melodies, else all. -/
def settingLines (block : Block) : List Line :=
  if block.kind = .phrase then block.body.takeWhile (!opensMelodies ·) else block.body

/-- The melody lines below the last opening of melodies, if there is one. -/
def melodiesAfterLast : List Line → Option (List Line)
  | [] => none
  | line :: lines =>
    match melodiesAfterLast lines with
    | some found => some found
    | none => if opensMelodies line then some lines else none

/-- The words of the melody lines of a phrase. Opening the melodies again starts them afresh. -/
def melodies (block : Block) : Option (List (List String)) :=
  if block.kind = .phrase then (melodiesAfterLast block.body).map (·.map Line.words) else none

/-- The settings under their names; of two values the later one counts. -/
def settings (block : Block) : Catalog String :=
  block.settingLines.foldl (fun found line => found.put line.head line.joinedTail) {}

/-- The name in a heading. A sequence has none, a pattern's is one word, others join their words. -/
def name (block : Block) : String :=
  match block.kind with
  | .sequence => ""
  | .pattern => block.heading.tail.head?.getD ""
  | _ => block.heading.joinedTail

/-- The list in a heading: the phrases of a sequence, the steps of a pattern. -/
def list (block : Block) : List String :=
  match block.kind with
  | .sequence => block.heading.tail
  | .pattern => (Pattern.stepTokens block.stepText.toList).map String.ofList
  | _ => []

/-- The record that a block makes. -/
def record (block : Block) : Record where
  kind := block.kind
  line := block.heading.number
  name := block.name
  list := block.list
  settings := block.settings
  melodies := block.melodies

/-- What is odd about a block: a pattern that starts by holding a step. -/
def events (block : Block) : List Event :=
  if block.kind = .pattern ∧ Pattern.startsHeld block.stepText.toList then
    [.leadingHold block.stepText]
  else []

end Block

namespace Record

/-- The records of a text, with a warning for every line before the first one. -/
def ofText (text : String) : Report (List Record) :=
  let (stray, blocks) := Block.cut (Line.ofText text)
  ⟨stray.map (fun line => .strayLine line.number line.text) ++ blocks.flatMap Block.events,
    .ok (blocks.map Block.record)⟩

end Record

end Chiptune
