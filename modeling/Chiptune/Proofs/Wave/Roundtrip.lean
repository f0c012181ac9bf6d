import Chiptune.Proofs.Wave.Reader
import Chiptune.Proofs.Wave.Sample

/-!
# Written files are read back

The parts of a file are read back in the order in which they are written, so that a whole file is,
and the samples in it are as near to the amplitudes as their format allows.

* `whole_samples` and `decodes_recording`, what is read;
* `Faithful`, how near the samples are to finite amplitudes;
* `encode_readsBack`, both for every file whose counts fit.
-/

namespace Chiptune.Wave

open Binary64 Binary32

/-! ## Samples -/

/-- The count that a sample is written as. -/
def stored (format : SampleFormat) (x : Float) : ℕ :=
  match format with
  | .pcm8 => (scaled 127 (limit x) + 128).toNat
  | .pcm16 => (scaled 32767 (limit x) % UInt16.size).toNat
  | .float32 => singleBits (limit x)

theorem sampleBytes_eq (format : SampleFormat) (x : Float) :
    sampleBytes format x = littleEndian format.bytes (stored format x) := by
  cases format <;> rfl

theorem length_sampleBytes (format : SampleFormat) (x : Float) :
    (sampleBytes format x).length = format.bytes := by
  rw [sampleBytes_eq, length_littleEndian]

/-- The sample that a stored count stands for. -/
def fromStored (format : SampleFormat) (n : ℕ) : Sample :=
  match format with
  | .pcm8 => .integer (n - 128)
  | .pcm16 => .integer (if n < 2 ^ 15 then n else n - 2 ^ 16)
  | .float32 => .single (Float32.ofBits n.toUInt32)

/-- The sample that is read where `x` was written. -/
def decoded (format : SampleFormat) (x : Float) : Sample :=
  fromStored format (stored format x % 256 ^ format.bytes)

theorem decodes_sample (format : SampleFormat) (rate : ℕ) (x : Float) :
    Decodes (Reader.sample (described format rate)) (sampleBytes format x) (decoded format x) := by
  have hsize : (described format rate).bits / 8 = format.bytes :=
    Nat.mul_div_cancel_left format.bytes (by norm_num)
  rw [sampleBytes_eq, Reader.sample, hsize]
  refine (decodes_number_mod format.bytes (stored format x)).bind_nil (Decodes.lift ?_)
  cases format <;> rfl

/-- The amplitudes of frames, left and right in turn. -/
def amplitudes (frames : List (Frame Float)) : List Float :=
  frames.flatMap fun frame => [frame.left, frame.right]

theorem length_amplitudes (frames : List (Frame Float)) :
    (amplitudes frames).length = 2 * frames.length := by
  induction frames with
  | nil => rfl
  | cons frame frames ih =>
    show (frame.left :: frame.right :: amplitudes frames).length = _
    rw [List.length_cons, List.length_cons, List.length_cons, ih]
    ring

theorem frameBytes_eq (format : SampleFormat) (frames : List (Frame Float)) :
    frameBytes format frames = (amplitudes frames).flatMap (sampleBytes format) := by
  rw [frameBytes, amplitudes, List.flatMap_assoc]
  simp

theorem length_frameBytes (format : SampleFormat) (frames : List (Frame Float)) :
    (frameBytes format frames).length = 2 * frames.length * format.bytes := by
  rw [frameBytes_eq, List.length_flatMap, ← length_amplitudes]
  simp [length_sampleBytes]

/-- The samples of all frames are read back. -/
theorem whole_samples (format : SampleFormat) (rate : ℕ) (frames : List (Frame Float)) :
    (Reader.samples (described format rate)).whole (frameBytes format frames)
      = some ((amplitudes frames).map (decoded format)) := by
  have hcount : 8 * (frameBytes format frames).length / (described format rate).bits
      = (amplitudes frames).length := by
    have hpos : 0 < 8 * format.bytes := by cases format <;> decide
    have hbits : (described format rate).bits = 8 * format.bytes := rfl
    rw [length_frameBytes, length_amplitudes, hbits]
    exact Nat.div_eq_of_eq_mul_left hpos (by ring)
  have hwhole : (amplitudes frames).length % 2 = 0 := by
    rw [length_amplitudes]
    omega
  have htimes := decodes_times (decodes_sample format rate) (amplitudes frames)
  rw [← frameBytes_eq] at htimes
  rw [Reader.whole, Reader.samples, hcount]
  exact (Decodes.guard_bind hwhole htimes).whole

/-! ## Files -/

theorem length_chunk {kind : String} (hkind : (ascii kind).length = 4) (content : List UInt8) :
    (chunk kind content).length = content.length + 8 := by
  rw [chunk, List.length_append, List.length_append, hkind, length_littleEndian]
  omega

/-- A description takes 16 bytes, or 40 with an extension. -/
theorem length_description (format : SampleFormat) (rate : ℕ) :
    (description format rate).length = if format = .float32 then 40 else 16 := by
  cases format <;>
    simp [description, basicDescription, length_littleEndian, floatName]

/-- The content of a wave file. -/
def content (format : SampleFormat) (rate : ℕ) (frames : List (Frame Float)) : List UInt8 :=
  ascii "WAVE" ++ chunk "fmt " (description format rate) ++ chunk "data" (frameBytes format frames)

theorem encode_eq (format : SampleFormat) (rate : ℕ) (frames : Buffer Float) :
    encode format rate frames = chunk "RIFF" (content format rate frames.toList) := rfl

theorem length_content (format : SampleFormat) (rate : ℕ) (frames : List (Frame Float)) :
    (content format rate frames).length = (description format rate).length +
      (frameBytes format frames).length + 20 := by
  have hwave : (ascii "WAVE").length = 4 := by decide
  rw [content, List.length_append, List.length_append, hwave, length_chunk (by decide),
    length_chunk (by decide)]
  omega

/-- The content is read back if its counts fit. -/
theorem decodes_recording (format : SampleFormat) {rate : ℕ} (frames : List (Frame Float))
    (hrate : rate * (2 * format.bytes) < 2 ^ 32)
    (hlength : (content format rate frames).length < 2 ^ 32) :
    Decodes Reader.recording (content format rate frames)
      ⟨rate, 2, format.bits, (amplitudes frames).map (decoded format)⟩ := by
  have hdescription := length_description format rate
  have hbytes := length_frameBytes format frames
  rw [length_content] at hlength
  have hword : ascii "WAVE" = "WAVE".toUTF8.data.toList := by decide
  rw [content, List.append_assoc, hword]
  refine (decodes_expect _).bind
    ((decodes_chunk (by decide) (by omega) ?_ (decodes_description format hrate).whole).bind
      ((decodes_chunk (by decide) (by omega) ?_ (whole_samples format rate frames)).bind_nil
        (Decodes.pure _)))
  · rw [hdescription]
    split_ifs <;> rfl
  · rw [hbytes, mul_assoc, Nat.mul_mod_right]

/-! ## Faithful samples -/

theorem Quantizes.congr {M : ℤ} {q q' : Float → ℤ} (h : Quantizes M q)
    (heq : ∀ x : Float, x.isFinite = true → q' x = q x) : Quantizes M q' where
  bounded x hx := by rw [heq x hx]; exact h.bounded x hx
  near x hx := by rw [heq x hx]; exact h.near x hx
  mono x y hx hy hle := by rw [heq x hx, heq y hy]; exact h.mono x y hx hy hle
  odd x y hx hy hneg := by rw [heq x hx, heq y hy]; exact h.odd x y hx hy hneg

/-- What the samples of a format are for the amplitudes they are read back for: whole numbers up to
127 or 32767, or the nearest binary32 numbers with the signs of the amplitudes. -/
def Faithful (format : SampleFormat) (decode : Float → Sample) : Prop :=
  match format with
  | .pcm8 => ∃ q, Quantizes 127 q ∧ ∀ x, decode x = .integer (q x)
  | .pcm16 => ∃ q, Quantizes 32767 q ∧ ∀ x, decode x = .integer (q x)
  | .float32 => ∃ s : Float → Float32, (∀ x, decode x = .single (s x)) ∧
      ∀ x : Float, x.isFinite = true → IsNearest (s x) (clamp (Binary64.value x)) ∧
        (s x).toBits.toNat / 2 ^ 31 = x.toBits.toNat / 2 ^ 63

theorem faithful_pcm8 : Faithful .pcm8 (decoded .pcm8) := by
  have hscale : (127 : Float) = Amplitude.ofCount 127 := by decide +kernel
  have hq := quantizes_scaled (M := 127) (by norm_num)
  rw [← hscale] at hq
  refine ⟨fun x => ((stored .pcm8 x % 256 : ℕ) : ℤ) - 128, ?_, fun x => rfl⟩
  refine Quantizes.congr (by exact_mod_cast hq) ?_
  intro x hx
  have hbound := abs_le.mp (hq.bounded x hx)
  simp only [stored]
  omega

theorem faithful_pcm16 : Faithful .pcm16 (decoded .pcm16) := by
  have hscale : (32767 : Float) = Amplitude.ofCount 32767 := by decide +kernel
  have hq := quantizes_scaled (M := 32767) (by norm_num)
  rw [← hscale] at hq
  refine ⟨fun x => if stored .pcm16 x % 256 ^ SampleFormat.pcm16.bytes < 2 ^ 15
    then (stored .pcm16 x % 256 ^ SampleFormat.pcm16.bytes : ℕ)
    else (stored .pcm16 x % 256 ^ SampleFormat.pcm16.bytes : ℕ) - 2 ^ 16, ?_, fun x => rfl⟩
  refine Quantizes.congr (by exact_mod_cast hq) ?_
  intro x hx
  have hbound := abs_le.mp (hq.bounded x hx)
  have hsize : UInt16.size = 65536 := rfl
  simp only [stored, SampleFormat.bytes, hsize]
  split_ifs <;> omega

theorem faithful_float32 : Faithful .float32 (decoded .float32) := by
  refine ⟨fun x => Float32.ofBits (stored .float32 x % 256 ^ SampleFormat.float32.bytes).toUInt32,
    fun x => rfl, ?_⟩
  intro x hx
  obtain ⟨hf, hv, hsign⟩ := limit_spec hx
  obtain ⟨hlt, hnearest, hsign'⟩ := singleBits_spec hf (by rw [hv]; exact abs_clamp_le _)
  have hmod : stored .float32 x % 256 ^ SampleFormat.float32.bytes = singleBits (limit x) :=
    Nat.mod_eq_of_lt hlt
  rw [hv] at hnearest
  rw [hsign] at hsign'
  simp only [hmod]
  exact ⟨hnearest, hsign'⟩

/-- A written file is read back as what was written: its rate, two channels, the bits of its format
and the samples of all frames, left and right in turn. The samples are as near to the amplitudes as
the format lets them be. -/
theorem encode_readsBack (format : SampleFormat) :
    ∃ decode : Float → Sample, Faithful format decode ∧
      ∀ (rate : ℕ) (frames : Buffer Float), rate * (2 * format.bytes) < 2 ^ 32 →
        (encode format rate frames).length < 2 ^ 32 + 8 →
        Recording.read? (encode format rate frames) = some {
          rate, channels := 2, bits := format.bits
          samples := frames.toList.flatMap fun frame =>
            [decode frame.left, decode frame.right] } := by
  have hfaithful : Faithful format (decoded format) := by
    cases format with
    | pcm8 => exact faithful_pcm8
    | pcm16 => exact faithful_pcm16
    | float32 => exact faithful_float32
  refine ⟨decoded format, hfaithful, ?_⟩
  intro rate frames hrate hlength
  rw [encode_eq, length_chunk (by decide)] at hlength
  have heven : (content format rate frames.toList).length % 2 = 0 := by
    rw [length_content, length_description, length_frameBytes, mul_assoc]
    split_ifs <;> omega
  have hcontent := decodes_recording format frames.toList hrate (by omega)
  have hkind : ascii "RIFF" = "RIFF".toUTF8.data.toList := by decide
  have hfile := decodes_chunk hkind (by omega) heven hcontent.whole
  have hsamples : (amplitudes frames.toList).map (decoded format) = frames.toList.flatMap
      fun frame => [decoded format frame.left, decoded format frame.right] := by
    rw [amplitudes, List.map_flatMap]
    rfl
  rw [Recording.read?, encode_eq, hfile.whole, hsamples]

/-- Two frames in 16 bits, one of them out of range. -/
theorem twoFrames_readBack : ∃ decode : Float → Sample, Faithful .pcm16 decode ∧
    Recording.read? (encode .pcm16 44100 #[⟨0.5, -0.5⟩, ⟨1.5, 0⟩]) = some {
      rate := 44100, channels := 2, bits := 16
      samples := [decode 0.5, decode (-0.5), decode 1.5, decode 0] } := by
  obtain ⟨decode, hfaithful, hread⟩ := encode_readsBack .pcm16
  exact ⟨decode, hfaithful, hread 44100 #[⟨0.5, -0.5⟩, ⟨1.5, 0⟩] (by decide) (by decide)⟩

end Chiptune.Wave
