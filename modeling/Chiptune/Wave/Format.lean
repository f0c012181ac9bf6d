/-!
# Sample formats

The ways in which a wave file holds an amplitude.
-/

namespace Chiptune

/-- How a wave file holds an amplitude. -/
inductive SampleFormat where
  | pcm8
  | pcm16
  | float32
deriving DecidableEq

namespace SampleFormat

instance : Inhabited SampleFormat := ⟨.pcm8⟩

/-- The number of bytes of a sample. -/
def bytes : SampleFormat → Nat
  | .pcm8 => 1
  | .pcm16 => 2
  | .float32 => 4

/-- The number of bits of a sample. -/
def bits (format : SampleFormat) : Nat := 8 * format.bytes

/-- The word for a format. -/
def word : SampleFormat → String
  | .pcm8 => "pcm8"
  | .pcm16 => "pcm16"
  | .float32 => "float32"

/-- The format that a word stands for. -/
def ofWord? : String → Option SampleFormat
  | "pcm8" => some .pcm8
  | "pcm16" => some .pcm16
  | "float32" => some .float32
  | _ => none

/-- The complaint about a word that is no format. -/
def unknown (word : String) : String :=
  s!"unknown sample format \"{word}\" (expected pcm8, pcm16 or float32)"

end SampleFormat

end Chiptune
