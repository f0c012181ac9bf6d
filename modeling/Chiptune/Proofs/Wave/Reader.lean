import Mathlib
import Chiptune.Wave.Encode

/-!
# Reading wave files

A reader of wave files that is as strict as the layout: every chunk has its kind, its length and
just as many bytes, which are all used up, and the numbers that say the same thing twice agree. It
knows nothing of how a file is written. What a reader makes of written bytes is put together along
the way they are written: `Decodes reader written value` says that the bytes `written` are read as
`value`, whatever follows them.

* `Recording.read?`, the reader of a whole file;
* `Decodes.bind`, one after another, and `decodes_chunk`, one inside another;
* `decodes_number`, `decodes_description` and `decodes_times`, the parts of a file.
-/

namespace Chiptune.Wave

/-- A sample in a file: a whole number, or a binary32 number. -/
inductive Sample where
  | integer (value : ℤ)
  | single (value : Float32)

/-- What a wave file says of its samples: 1 for whole numbers and 3 for binary32, the number of
channels, the frames per second and the bits of a sample. -/
structure Description where
  kind : ℕ
  channels : ℕ
  rate : ℕ
  bits : ℕ

/-- What a wave file holds: the samples of all channels in turn. -/
structure Recording where
  rate : ℕ
  channels : ℕ
  bits : ℕ
  samples : List Sample

/-- Takes bytes from the front of a list and fails where they are not what they should be. -/
abbrev Reader := StateT (List UInt8) Option

namespace Reader

/-- The next `count` bytes. -/
def bytes (count : ℕ) : Reader (List UInt8) := fun rest =>
  if count ≤ rest.length then some (rest.splitAt count) else none

/-- A count in `size` bytes, the lowest first. -/
def number (size : ℕ) : Reader ℕ := do
  let digits ← bytes size
  return digits.foldr (fun digit n => digit.toNat + 256 * n) 0

/-- Nothing but these bytes. -/
def expect (expected : List UInt8) : Reader Unit := do
  let found ← bytes expected.length
  guard (found = expected)

/-- What a reader makes of bytes that it uses up. -/
def whole {α : Type} (reader : Reader α) (content : List UInt8) : Option α :=
  match reader content with
  | some (value, []) => some value
  | _ => none

/-- A chunk of one kind. A chunk of odd length is followed by an empty byte. -/
def chunk {α : Type} (kind : String) (reader : Reader α) : Reader α := do
  expect kind.toUTF8.data.toList
  let length ← number 4
  let content ← bytes length
  if length % 2 = 1 then expect [0]
  StateT.lift (reader.whole content)

/-- The same thing `count` times. -/
def times {α : Type} (reader : Reader α) : ℕ → Reader (List α)
  | 0 => return []
  | count + 1 => do
    let first ← reader
    let others ← times reader count
    return first :: others

/-- What all names of kinds of samples end in. -/
def kindSuffix : List UInt8 :=
  [0x00, 0x00, 0x00, 0x00, 0x10, 0x00, 0x80, 0x00, 0x00, 0xaa, 0x00, 0x38, 0x9b, 0x71]

/-- The kind `0xfffe` stands for the one that is named in an extension of 22 bytes, after the bits
in use and a bit for each channel. -/
def sampleKind (kind channels bits : ℕ) : Reader ℕ :=
  if kind = 0xfffe then do
    let extension ← number 2
    let used ← number 2
    let mask ← number 4
    guard (extension = 22 ∧ used = bits ∧ mask = 2 ^ channels - 1)
    let named ← number 2
    expect kindSuffix
    return named
  else return kind

/-- The description of the samples. -/
def description : Reader Description := do
  let kind ← number 2
  let channels ← number 2
  let rate ← number 4
  let bytesPerSecond ← number 4
  let bytesPerFrame ← number 2
  let bits ← number 2
  guard (8 * bytesPerFrame = channels * bits ∧ bytesPerSecond = rate * bytesPerFrame)
  let kind ← sampleKind kind channels bits
  return ⟨kind, channels, rate, bits⟩

/-- The sample that a count stands for: 8 bits are shifted by 128, 16 bits are in two's complement,
32 bits are those of a binary32 number. -/
def sampleOf (description : Description) (n : ℕ) : Option Sample :=
  match description.kind, description.bits with
  | 1, 8 => some (.integer (n - 128))
  | 1, 16 => some (.integer (if n < 2 ^ 15 then n else n - 2 ^ 16))
  | 3, 32 => some (.single (Float32.ofBits n.toUInt32))
  | _, _ => none

def sample (description : Description) : Reader Sample := do
  let n ← number (description.bits / 8)
  StateT.lift (sampleOf description n)

/-- A number of samples that makes up whole frames. -/
def wholeFrames (description : Description) (count : ℕ) : Reader (List Sample) := do
  guard (count % description.channels = 0)
  times (sample description) count

/-- All the samples that are left. -/
def samples (description : Description) : Reader (List Sample) := fun content =>
  wholeFrames description (8 * content.length / description.bits) content

/-- The content of a wave file. -/
def recording : Reader Recording := do
  expect "WAVE".toUTF8.data.toList
  let description ← chunk "fmt " description
  let samples ← chunk "data" (samples description)
  return ⟨description.rate, description.channels, description.bits, samples⟩

end Reader

/-- What a wave file holds, if it is one. -/
def Recording.read? (file : List UInt8) : Option Recording :=
  (Reader.chunk "RIFF" Reader.recording).whole file

/-! ## Reading what was written -/

/-- The bytes `written` are read as `value`, and none of those after them. -/
def Decodes {α : Type} (reader : Reader α) (written : List UInt8) (value : α) : Prop :=
  ∀ rest, reader.run (written ++ rest) = some (value, rest)

namespace Decodes

variable {α β : Type} {reader : Reader α} {written written' : List UInt8} {value : α}

theorem whole (h : Decodes reader written value) : reader.whole written = some value := by
  have h' : reader (written ++ []) = some (value, []) := h []
  rw [List.append_nil] at h'
  rw [Reader.whole, h']

protected theorem pure (value : α) : Decodes (pure value) [] value := fun _ => rfl

/-- One after another. -/
protected theorem bind {next : α → Reader β} {result : β} (h : Decodes reader written value)
    (h' : Decodes (next value) written' result) :
    Decodes (reader >>= next) (written ++ written') result := by
  intro rest
  rw [List.append_assoc, StateT.run_bind, h]
  exact h' rest

/-- What comes last may need no more bytes. -/
theorem bind_nil {next : α → Reader β} {result : β} (h : Decodes reader written value)
    (h' : Decodes (next value) [] result) : Decodes (reader >>= next) written result := by
  have hbind := h.bind h'
  rwa [List.append_nil] at hbind

/-- What holds needs no bytes. -/
protected theorem guard {p : Prop} [Decidable p] (hp : p) : Decodes (guard p) [] () := by
  rw [guard, if_pos hp]
  exact Decodes.pure ()

/-- What is known needs no bytes. -/
theorem lift {found : Option α} (h : found = some value) :
    Decodes (StateT.lift found) [] value := by
  rw [h]
  exact Decodes.pure value

theorem guard_bind {p : Prop} [Decidable p] {next : Unit → Reader β} {result : β} (hp : p)
    (h : Decodes (next ()) written result) : Decodes (guard p >>= next) written result :=
  (Decodes.guard hp).bind h

end Decodes

theorem decodes_bytes {written : List UInt8} {count : ℕ} (h : written.length = count) :
    Decodes (Reader.bytes count) written written := by
  intro rest
  show (if count ≤ (written ++ rest).length then some ((written ++ rest).splitAt count) else none)
    = some (written, rest)
  rw [if_pos (by rw [List.length_append]; omega), List.splitAt_eq, ← h, List.take_left,
    List.drop_left]

theorem length_littleEndian (size n : ℕ) : (littleEndian size n).length = size := by
  induction size generalizing n with
  | zero => rfl
  | succ size ih => rw [littleEndian, List.length_cons, ih]

theorem foldr_littleEndian (size n : ℕ) :
    (littleEndian size n).foldr (fun digit n => digit.toNat + 256 * n) 0 = n % 256 ^ size := by
  induction size generalizing n with
  | zero => rw [pow_zero, Nat.mod_one]; rfl
  | succ size ih =>
    have hdigit : n.toUInt8.toNat = n % 256 := rfl
    rw [littleEndian, List.foldr_cons, ih, hdigit, pow_succ', Nat.mod_mul]

/-- A count is read as far as its bytes go. -/
theorem decodes_number_mod (size n : ℕ) :
    Decodes (Reader.number size) (littleEndian size n) (n % 256 ^ size) := by
  rw [← foldr_littleEndian]
  exact (decodes_bytes (length_littleEndian size n)).bind_nil (Decodes.pure _)

theorem decodes_number {size n : ℕ} (h : n < 256 ^ size) :
    Decodes (Reader.number size) (littleEndian size n) n := by
  have h' := decodes_number_mod size n
  rwa [Nat.mod_eq_of_lt h] at h'

theorem decodes_expect (expected : List UInt8) :
    Decodes (Reader.expect expected) expected () :=
  (decodes_bytes rfl).bind_nil (Decodes.guard rfl)

/-! ## The parts of a file -/

/-- One inside another: the length that a chunk gives is that of its content. -/
theorem decodes_chunk {α : Type} {kind : String} {reader : Reader α} {content : List UInt8}
    {value : α} (hkind : ascii kind = kind.toUTF8.data.toList) (hlt : content.length < 2 ^ 32)
    (heven : content.length % 2 = 0) (h : reader.whole content = some value) :
    Decodes (Reader.chunk kind reader) (chunk kind content) value := by
  rw [chunk, hkind, List.append_assoc]
  refine (decodes_expect _).bind ((decodes_number (by omega)).bind
    ((decodes_bytes rfl).bind_nil ?_))
  rw [if_neg (by omega)]
  intro rest
  show (reader.whole content).bind _ = _
  rw [h]
  rfl

/-- The same thing again and again. -/
theorem decodes_times {α β : Type} {reader : Reader β} {write : α → List UInt8} {read : α → β}
    (h : ∀ a, Decodes reader (write a) (read a)) (values : List α) :
    Decodes (reader.times values.length) (values.flatMap write) (values.map read) := by
  induction values with
  | nil => exact Decodes.pure []
  | cons a values ih => exact (h a).bind (ih.bind_nil (Decodes.pure _))

/-- The kind of the samples of a format. -/
def kindOf : SampleFormat → ℕ
  | .pcm8 | .pcm16 => 1
  | .float32 => 3

/-- What a description says of a format. -/
def described (format : SampleFormat) (rate : ℕ) : Description :=
  ⟨kindOf format, 2, rate, format.bits⟩

/-- The six numbers that every description starts with. -/
theorem decodes_basicDescription (format : SampleFormat) {rate : ℕ}
    (hrate : rate * (2 * format.bytes) < 2 ^ 32) {tag kind : ℕ} (htag : tag < 256 ^ 2)
    {more : List UInt8}
    (h : Decodes (Reader.sampleKind tag 2 format.bits) more kind) :
    Decodes Reader.description (basicDescription format tag rate ++ more)
      ⟨kind, 2, rate, format.bits⟩ := by
  have hlt : rate < 2 ^ 32 := by
    have hpos : 0 < 2 * format.bytes := by cases format <;> decide
    exact (Nat.le_mul_of_pos_right rate hpos).trans_lt hrate
  have hbytes : 2 * format.bytes < 256 ^ 2 := by cases format <;> decide
  have hbits : format.bits < 256 ^ 2 := by cases format <;> decide
  have hagree : 8 * (2 * format.bytes) = 2 * format.bits := by cases format <;> rfl
  unfold basicDescription
  simp only [List.append_assoc]
  exact (decodes_number htag).bind ((decodes_number (by norm_num)).bind ((decodes_number hlt).bind
    ((decodes_number hrate).bind ((decodes_number hbytes).bind ((decodes_number hbits).bind
      (Decodes.guard_bind ⟨hagree, rfl⟩ (h.bind_nil (Decodes.pure _))))))))

/-- Both descriptions are read back, the short one and the extensible one. -/
theorem decodes_description (format : SampleFormat) {rate : ℕ}
    (hrate : rate * (2 * format.bytes) < 2 ^ 32) :
    Decodes Reader.description (description format rate) (described format rate) := by
  have hshort : Decodes (Reader.sampleKind 1 2 format.bits) [] 1 := Decodes.pure 1
  have hbasic := decodes_basicDescription format hrate (by norm_num) hshort
  rw [List.append_nil] at hbasic
  cases format with
  | pcm8 => exact hbasic
  | pcm16 => exact hbasic
  | float32 =>
    have hname : floatName = littleEndian 2 3 ++ Reader.kindSuffix := by decide
    rw [description, hname]
    simp only [List.append_assoc]
    refine decodes_basicDescription .float32 hrate (by norm_num) ?_
    exact (decodes_number (by norm_num)).bind ((decodes_number (by decide)).bind
      ((decodes_number (by norm_num)).bind (Decodes.guard_bind ⟨rfl, rfl, rfl⟩
        ((decodes_number (by norm_num)).bind ((decodes_expect _).bind_nil (Decodes.pure _))))))

end Chiptune.Wave
