import Chiptune.Buffer
import Chiptune.Wave.Format
import Chiptune.Wave.Sample

/-!
# Wave files

A wave file is a chunk of kind `RIFF` that holds the word `WAVE`, a chunk that describes the samples
and a chunk of samples, left and right in turn. All numbers have their lowest byte first. Integer
samples are described in 16 bytes; binary32 samples need the extensible description of 40 bytes,
which names both ears and the kind of sample at length.
-/

namespace Chiptune.Wave

/-- The lowest `count` bytes of a number, the lowest one first. -/
def littleEndian : Nat → Nat → List UInt8
  | 0, _ => []
  | count + 1, n => n.toUInt8 :: littleEndian count (n / 256)

/-- The bytes of an ASCII text. -/
def ascii (text : String) : List UInt8 := text.toList.map fun c => c.toNat.toUInt8

/-- A chunk: its kind, its length and its content. -/
def chunk (kind : String) (content : List UInt8) : List UInt8 :=
  ascii kind ++ littleEndian 4 content.length ++ content

/-- The bytes of a sample: 8-bit samples are shifted by 128 to be positive, 16-bit samples are in
two's complement. -/
def sampleBytes (format : SampleFormat) (x : Float) : List UInt8 :=
  match format with
  | .pcm8 => littleEndian 1 (scaled 127 (limit x) + 128).toNat
  | .pcm16 => littleEndian 2 (scaled 32767 (limit x) % UInt16.size).toNat
  | .float32 => littleEndian 4 (singleBits (limit x))

/-- The kind of sample and its position, as far as every description goes. -/
def basicDescription (format : SampleFormat) (tag rate : Nat) : List UInt8 :=
  littleEndian 2 tag ++ littleEndian 2 2 ++ littleEndian 4 rate ++
    littleEndian 4 (rate * (2 * format.bytes)) ++ littleEndian 2 (2 * format.bytes) ++
    littleEndian 2 format.bits

/-- The name of binary32 samples in an extensible description. -/
def floatName : List UInt8 :=
  [0x03, 0x00, 0x00, 0x00, 0x00, 0x00, 0x10, 0x00, 0x80, 0x00, 0x00, 0xaa, 0x00, 0x38, 0x9b, 0x71]

/-- The description of the samples. -/
def description (format : SampleFormat) (rate : Nat) : List UInt8 :=
  match format with
  | .pcm8 | .pcm16 => basicDescription format 1 rate
  | .float32 =>
    basicDescription format 0xfffe rate ++ littleEndian 2 22 ++ littleEndian 2 format.bits ++
      littleEndian 4 3 ++ floatName

/-- The bytes of all samples, left and right in turn. -/
def frameBytes (format : SampleFormat) (frames : List (Frame Float)) : List UInt8 :=
  frames.flatMap fun frame => sampleBytes format frame.left ++ sampleBytes format frame.right

/-- A wave file with stereo frames at `rate` frames per second. -/
def encode (format : SampleFormat) (rate : Nat) (frames : Buffer Float) : List UInt8 :=
  chunk "RIFF" (ascii "WAVE" ++ chunk "fmt " (description format rate) ++
    chunk "data" (frameBytes format frames.toList))

end Chiptune.Wave
