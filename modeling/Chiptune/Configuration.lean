import Chiptune.Host
import Chiptune.Report
import Chiptune.Toml.Document
import Chiptune.Wave.Format

/-!
# Configuration

How a tune is rendered: the format of the samples, the directory of the file and the seed of the
noise. All three can be given in a TOML document, and each has a default.
-/

namespace Chiptune

/-- How a tune is rendered. -/
structure Configuration where
  format : SampleFormat := default
  /-- The directory of the file, the current one if not given. -/
  outputDirectory : Option String := none
  /-- The seed of the noise, left to chance if not given. -/
  seed : Option UInt64 := none
deriving DecidableEq

namespace Configuration

/-- A table or an array without content. -/
def isHollow : Toml.Value → Bool
  | .table _ [] | .array [] | .tables [] => true
  | _ => false

/-- A format is given by its word, or by its word as the only key of a table, without content. -/
def readFormat : Toml.Value → Option SampleFormat
  | .text word => SampleFormat.ofWord? word
  | .table _ [(word, value)] => if isHollow value then SampleFormat.ofWord? word else none
  | _ => none

/-- A directory is given as a text. -/
def readDirectory : Toml.Value → Option String
  | .text path => some path
  | _ => none

/-- A seed is given as an integer that is not negative. -/
def readSeed : Toml.Value → Option UInt64
  | .integer n => if 0 ≤ n then some n.toNat.toUInt64 else none
  | _ => none

/-- A setting of a document: `fallback` if it is not given, nothing if it cannot be understood. -/
def readSetting {α : Type} (entries : Toml.Entries) (key : String) (fallback : α)
    (read : Toml.Value → Option α) : Option α :=
  match entries.lookup key with
  | none => some fallback
  | some value => read value

/-- The configuration in the entries of a document; other entries do not matter. -/
def ofEntries (entries : Toml.Entries) : Option Configuration := do
  let format ← readSetting entries "format" default readFormat
  let outputDirectory ← readSetting entries "output_dir" none (fun v => (readDirectory v).map some)
  let seed ← readSetting entries "seed" none (fun v => (readSeed v).map some)
  return { format, outputDirectory, seed }

/-- The configuration in a text. -/
def ofText (text : String) : Except Fault Configuration :=
  match (Toml.parse text).bind ofEntries with
  | some configuration => .ok configuration
  | none => .error .configuration

/-- The configuration in a file; if there is none, the defaults. -/
def load {m : Type → Type} [Host m] (path : String) : m (Report Configuration) := do
  if ← Host.pathExists path then
    match ← readText path with
    | .ok text => return .ofExcept (ofText text)
    | .error fault => return .fail (.file fault)
  else return ⟨[.noConfiguration path], .ok {}⟩

/-- The path of the file of a tune: its name with the ending of wave files, in the configured
directory. -/
def outputPath (configuration : Configuration) (tune : String) : String :=
  match configuration.outputDirectory with
  | some directory => Path.join directory (tune ++ ".wav")
  | none => tune ++ ".wav"

end Configuration

end Chiptune
