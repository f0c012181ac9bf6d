import Chiptune.Pitch
import Chiptune.Record.Basic
import Chiptune.Text.Quoted

/-!
# Faults

Everything that can go wrong, by cause. `message` is the sentence for a reader, `detail` the form
that shows the cause with its parts.
-/

namespace Chiptune

/-! ## Files -/

/-- What can go wrong with a file. -/
inductive FileFault where
  | notFound
  | permissionDenied
  | alreadyExists
  | notADirectory
  | isADirectory
  | nameTooLong
  /-- A path with a null character in it. -/
  | nullInPath
  /-- Bytes that are not UTF-8. -/
  | notText
  /-- Any other refusal of the system. -/
  | other (code : Nat) (text : String)
deriving DecidableEq

namespace FileFault

/-- The number, the kind and the text of a refusal by the system; none for the faults that are found
without it. -/
def system? : FileFault → Option (Nat × String × String)
  | .notFound => some (2, "NotFound", "No such file or directory")
  | .permissionDenied => some (13, "PermissionDenied", "Permission denied")
  | .alreadyExists => some (17, "AlreadyExists", "File exists")
  | .notADirectory => some (20, "NotADirectory", "Not a directory")
  | .isADirectory => some (21, "IsADirectory", "Is a directory")
  | .nameTooLong => some (36, "InvalidFilename", "File name too long")
  | .nullInPath | .notText => none
  | .other code text => some (code, "Uncategorized", text)

/-- The refusal with a number; `text` is kept for numbers without a name here. -/
def ofSystem (code : Nat) (text : String) : FileFault :=
  let named := [notFound, permissionDenied, alreadyExists, notADirectory, isADirectory, nameTooLong]
  (named.find? fun fault => fault.system?.any (·.1 = code)).getD (.other code text)

/-- The kind and the text of a fault that is found without the system. -/
def plain : FileFault → String × String
  | .notText => ("InvalidData", "stream did not contain valid UTF-8")
  | _ => ("InvalidInput", "file name contained an unexpected NUL byte")

/-- The sentence for a reader. -/
def message (fault : FileFault) : String :=
  match fault.system? with
  | some (code, _, text) => s!"{text} (os error {code})"
  | none => fault.plain.2

/-- The cause with its parts. -/
def detail (fault : FileFault) : String :=
  match fault.system? with
  | some (code, kind, text) =>
    s!"Os \x7b code: {code}, kind: {kind}, message: {Text.quoted text} \x7d"
  | none => s!"Error \x7b kind: {fault.plain.1}, message: {Text.quoted fault.plain.2} \x7d"

end FileFault

/-! ## All faults -/

/-- What a melody line can name. -/
inductive Reference where
  | instrument
  | pattern
deriving DecidableEq

/-- The word for what is named. -/
def Reference.word : Reference → String
  | .instrument => "Instrument"
  | .pattern => "Pattern"

/-- What can go wrong with a tune. -/
inductive Fault where
  /-- A melody of `phrase` names something that is not defined. -/
  | unresolved (phrase : String) (kind : Reference) (name : String)
  | missingSequence
  /-- The sequence names a phrase that is not defined. -/
  | undefinedPhrase (name : String)
  | missingTuneName
  /-- A pattern does not fit the grid of a phrase. -/
  | stepCountMismatch (pattern : String) (steps : Nat) (phrase : String) (beats subbeats : Nat)
  | badNote (fault : NoteFault)
  /-- A setting has a value that it cannot have. -/
  | invalidSetting (record : RecordKind) (name setting value : String)
  | missingSetting (phrase setting : String)
  /-- A melody line is not an instrument and a pattern. -/
  | malformedMelody (phrase line : String)
  /-- A file cannot be read. -/
  | file (fault : FileFault)
  /-- A wave file cannot be written. -/
  | wave (fault : FileFault)
  /-- A configuration cannot be understood. -/
  | configuration
deriving DecidableEq

namespace Fault

/-- The sentence for a reader. -/
def message : Fault → String
  | .unresolved phrase kind name =>
    s!"{kind.word} named \"{name}\" doesn't exist (referenced by phrase \"{phrase}\")"
  | .missingSequence =>
    "Please define a sequence with \"sequence s1 s2 s3...\" where s1/s2/s3/etc are names of phrases"
  | .undefinedPhrase name => s!"undefined phrase \"{name}\" in sequence"
  | .missingTuneName => "Please define your tune's name with \"tune <tune name>\""
  | .stepCountMismatch pattern steps phrase beats subbeats =>
    s!"Mismatch between Pattern \"{pattern}\", which has {steps} steps, and Phrase " ++
      s!"\"{phrase}\", which has {beats} beats and {subbeats} subbeats (any pattern it uses " ++
      s!"should have {beats * subbeats} steps)"
  | .badNote (.badName name note) =>
    s!"Bad note: {name} from {note}. Valid note names are <C, C# or Db, D, D# or Eb, E, F, " ++
      "F# or Gb, G, G# or Ab, A, A# or Bb, B>"
  | .badNote (.badOctave octave note) =>
    s!"Bad octave: {octave} from {note}. Valid octave number is 1..8"
  | .invalidSetting record name setting value =>
    s!"Invalid {setting} \"{value}\" for {record.keyword} \"{name}\""
  | .missingSetting phrase setting => s!"Phrase \"{phrase}\" is missing its {setting}"
  | .malformedMelody phrase line =>
    s!"Melody line \"{line}\" in phrase \"{phrase}\" should be \"<instrument> <pattern>\""
  | .file fault => s!"IO error: {fault.message}"
  | .wave fault => s!"WAV error: {fault.message}"
  | .configuration => "Config error"

/-- A cause with its named parts. -/
def parts (cause : String) (fields : List (String × String)) : String :=
  let shown := fields.map fun (key, text) => key ++ ": " ++ text
  cause ++ " \x7b " ++ String.intercalate ", " shown ++ " \x7d"

/-- The cause with its parts. -/
def detail : Fault → String
  | .unresolved phrase kind name =>
    parts "Reference"
      [("phrase", Text.quoted phrase), ("kind", kind.word), ("name", Text.quoted name)]
  | .missingSequence => "MissingSequence"
  | .undefinedPhrase name => s!"UndefinedPhrase({Text.quoted name})"
  | .missingTuneName => "MissingTuneName"
  | .stepCountMismatch pattern steps phrase beats subbeats =>
    parts "StepCountMismatch"
      [("pattern", Text.quoted pattern), ("steps", toString steps),
       ("phrase", Text.quoted phrase), ("beats", toString beats), ("subbeats", toString subbeats)]
  | .badNote (.badName name note) =>
    parts "BadNoteName" [("name", Text.quoted name), ("note", Text.quoted note)]
  | .badNote (.badOctave octave note) =>
    parts "BadOctave" [("octave", Text.quoted octave), ("note", Text.quoted note)]
  | .invalidSetting record name setting value =>
    parts "InvalidAttribute"
      [("record", Text.quoted record.keyword), ("name", Text.quoted name),
       ("attribute", Text.quoted setting), ("value", Text.quoted value)]
  | .missingSetting phrase setting =>
    parts "MissingAttribute"
      [("phrase", Text.quoted phrase), ("attribute", Text.quoted setting)]
  | .malformedMelody phrase line =>
    parts "MalformedMelody" [("phrase", Text.quoted phrase), ("line", Text.quoted line)]
  | .file fault => s!"Io({fault.detail})"
  | .wave fault => s!"Wav(IoError({fault.detail}))"
  | .configuration => "Config"

end Fault

end Chiptune
