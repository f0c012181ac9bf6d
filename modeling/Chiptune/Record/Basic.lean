import Chiptune.Catalog

/-!
# Records

The text of a tune consists of records. Each has a kind, a name or a list, and settings that are not
interpreted yet.
-/

namespace Chiptune

/-- What a record defines. -/
inductive RecordKind where
  | tune
  | sequence
  | instrument
  | phrase
  | pattern
deriving DecidableEq

namespace RecordKind

/-- The word that starts a record. -/
def keyword : RecordKind → String
  | .tune => "tune"
  | .sequence => "sequence"
  | .instrument => "instrument"
  | .phrase => "phrase"
  | .pattern => "pattern"

/-- The kind of record that a word starts. -/
def ofKeyword? : String → Option RecordKind
  | "tune" => some .tune
  | "sequence" => some .sequence
  | "instrument" => some .instrument
  | "phrase" => some .phrase
  | "pattern" => some .pattern
  | _ => none

end RecordKind

/-- One definition in the text of a tune. -/
structure Record where
  kind : RecordKind
  /-- The line it starts on, counted from 1. -/
  line : Nat
  name : String
  /-- The phrases of a sequence, the step tokens of a pattern. -/
  list : List String
  /-- Settings under their names. -/
  settings : Catalog String
  /-- The words of the melody lines of a phrase. -/
  melodies : Option (List (List String))
deriving DecidableEq

/-- The value of a setting. -/
def Record.setting? (record : Record) (name : String) : Option String :=
  record.settings.get? name

end Chiptune
