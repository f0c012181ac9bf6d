import Chiptune.Proofs.Phrase.Playing

/-!
# What playing draws from the random source

Chance is asked for in one place: an oscillator of tone noise draws one word for a frame that is
about to be merged. An instrument of any other tone therefore sounds alike whatever the source is,
and leaves it as it was; an instrument of tone noise draws as many words as it writes frames within
the buffer.

* `Phrase.render_of_noiseFree`, a phrase without noise;
* `Part.draws` and `Phrase.draws`, the number of words drawn;
* `Phrase.render_tally`, a rendered phrase draws that many.
-/

namespace Chiptune

variable {R : Type} [Amplitude R] {σ τ : Type} [RandomSource σ] [RandomSource τ]

/-! ## Without noise -/

/-- The amplitude of a tone other than noise is the same with any two sources. -/
theorem Oscillator.valueAt_of_ne_noise {o : Oscillator R} (h : o.tone ≠ .noise) (index : ℕ)
    (source : σ) (other : τ) : o.valueAt index source = ((o.valueAt index other).1, source) := by
  unfold valueAt
  cases htone : o.tone with
  | noise => exact absurd htone h
  | square => rfl
  | sine => rfl
  | triangle => rfl
  | saw => rfl

namespace Instrument

variable {instrument : Instrument}

theorem frameAt_of_ne_noise (h : instrument.tone ≠ .noise) (cycle index : ℕ) (source : σ)
    (other : τ) :
    (instrument.frameAt (Oscillator.ofTone instrument.tone cycle) index source : Frame R × σ)
      = ((instrument.frameAt (Oscillator.ofTone instrument.tone cycle) index other).1, source) := by
  have htone : (Oscillator.ofTone instrument.tone cycle : Oscillator R).tone ≠ .noise := h
  rw [frameAt, Oscillator.valueAt_of_ne_noise htone index source other]
  rfl

theorem voices_of_ne_noise (h : instrument.tone ≠ .noise) (strokes : List Stroke) (source : σ)
    (other : τ) :
    (instrument.voices strokes source : List (ℕ × Frame R) × σ)
      = ((instrument.voices strokes other).1, source) := by
  induction strokes with
  | nil => rfl
  | cons stroke strokes ih =>
    have hother := frameAt_of_ne_noise (R := R) h stroke.cycle stroke.index other other
    rw [voices, voices, frameAt_of_ne_noise h stroke.cycle stroke.index source other, hother]
    simp only
    rw [ih]

end Instrument

namespace Part

theorem play_of_ne_noise {part : Part} (h : part.melody.instrument.tone ≠ .noise)
    (buffer : Buffer R) (source : σ) (other : τ) :
    part.play buffer source = ((part.play buffer other).1, source) := by
  have hvoices := fun size => Instrument.voices_of_ne_noise (R := R) h
    (Span.strokesOf part.spans size) source other
  unfold play
  simp only [Span.playAll_eq, hvoices]
  split_ifs <;> rfl

theorem playAll_of_ne_noise {parts : List Part}
    (h : ∀ part ∈ parts, part.melody.instrument.tone ≠ .noise) (buffer : Buffer R) (source : σ)
    (other : τ) : playAll parts buffer source = ((playAll parts buffer other).1, source) := by
  induction parts generalizing buffer other with
  | nil => rfl
  | cons part parts ih =>
    obtain ⟨hpart, hparts⟩ := List.forall_mem_cons.mp h
    rw [playAll, playAll, part.play_of_ne_noise hpart buffer source other]
    exact ih hparts _ _

end Part

/-- The parts of a score play melodies of its phrase. -/
theorem Score.melody_mem {step : ℕ} {melodies : List Melody} {part : Part}
    (h : part ∈ partsOf step melodies) : part.melody ∈ melodies := by
  induction melodies with
  | nil => exact absurd h List.not_mem_nil
  | cons melody melodies ih =>
    rw [partsOf] at h
    rcases List.mem_cons.mp h with rfl | h
    · exact List.mem_cons_self
    · split_ifs at h
      · exact absurd h List.not_mem_nil
      · exact List.mem_cons_of_mem melody (ih h)

/-- No melody of a phrase is played with noise. -/
def Phrase.NoiseFree (phrase : Phrase) : Prop :=
  ∀ melody ∈ phrase.melodies, melody.instrument.tone ≠ .noise

/-- A phrase without noise gives one report with all sources and leaves each as it was, also when
it ends in a fault. -/
theorem Phrase.render_of_noiseFree {phrase : Phrase} (h : phrase.NoiseFree) (source : σ)
    (other : τ) :
    phrase.render source
      = ((phrase.render other : Report (Buffer R) × τ).1, source) := by
  unfold render
  cases hscore : phrase.score with
  | error fault => rfl
  | ok score =>
    obtain ⟨-, rfl⟩ := score_eq_ok.mp hscore
    have hparts : ∀ part ∈ Score.partsOf phrase.stepSize phrase.melodies,
        part.melody.instrument.tone ≠ .noise :=
      fun part hpart => h part.melody (Score.melody_mem hpart)
    simp only [Score.play]
    rw [Part.playAll_of_ne_noise hparts _ source other]

/-! ## Counting draws -/

theorem Oscillator.valueAt_tally (o : Oscillator R) (index : ℕ) (source : σ) (drawn : ℕ) :
    o.valueAt index (⟨source, drawn⟩ : Tally σ)
      = ((o.valueAt index source).1,
          ⟨(o.valueAt index source).2, drawn + if o.tone = .noise then 1 else 0⟩) := by
  unfold valueAt
  cases o.tone <;> rfl

theorem Instrument.frameAt_tally (instrument : Instrument) (cycle index : ℕ) (source : σ)
    (drawn : ℕ) :
    (instrument.frameAt (Oscillator.ofTone instrument.tone cycle) index
        (⟨source, drawn⟩ : Tally σ) : Frame R × Tally σ)
      = let played := instrument.frameAt (Oscillator.ofTone instrument.tone cycle) index source
        (played.1, ⟨played.2, drawn + if instrument.tone = .noise then 1 else 0⟩) := by
  rw [frameAt, Oscillator.valueAt_tally]
  rfl

/-- Noise draws one word for each stroke. -/
theorem Instrument.voices_tally (instrument : Instrument) (strokes : List Stroke) (source : σ)
    (drawn : ℕ) :
    (instrument.voices strokes (⟨source, drawn⟩ : Tally σ) : List (ℕ × Frame R) × Tally σ)
      = let played := instrument.voices strokes source
        (played.1, ⟨played.2, drawn + if instrument.tone = .noise then strokes.length else 0⟩) := by
  induction strokes generalizing source drawn with
  | nil => simp [voices]
  | cons stroke strokes ih =>
    have hdrawn : drawn + (if instrument.tone = .noise then 1 else 0) +
          (if instrument.tone = .noise then strokes.length else 0)
        = drawn + if instrument.tone = .noise then (stroke :: strokes).length else 0 := by
      rw [List.length_cons]
      split_ifs <;> omega
    rw [voices, frameAt_tally]
    simp only [ih]
    rw [hdrawn]
    rfl

/-- The frames of a span that lie within a buffer, counted one by one. -/
theorem Span.within_eq_countP (span : Span) (size : ℕ) :
    span.within size = (List.range' span.first span.count).countP (· < size) := by
  obtain ⟨first, count, cycle⟩ := span
  induction count generalizing first with
  | zero => exact Nat.zero_min _
  | succ count ih =>
    rw [List.range'_succ, List.countP_cons, ← ih (first + 1)]
    simp only [within, decide_eq_true_eq]
    split_ifs <;> omega

namespace Part

/-- The frames that a part writes, one after the other, wherever the buffer ends. -/
def writes (part : Part) : List ℕ :=
  part.spans.flatMap fun span => List.range' span.first span.count

/-- The number of words that a part draws: with noise one for each frame that it writes within the
buffer, otherwise none. -/
def draws (part : Part) (size : ℕ) : ℕ :=
  if part.melody.instrument.tone = .noise then part.writes.countP (· < size) else 0

/-- The strokes of spans are the writes within the buffer. -/
theorem length_strokesOf (part : Part) (size : ℕ) :
    (Span.strokesOf part.spans size).length = part.writes.countP (· < size) := by
  rw [Span.strokesOf, writes, List.length_flatMap, List.countP_flatMap]
  congr 1
  refine List.map_congr_left fun span _ => ?_
  rw [Span.strokes, List.length_map, List.length_range]
  exact span.within_eq_countP size

theorem play_tally (part : Part) (buffer : Buffer R) (source : σ) (drawn : ℕ) :
    part.play buffer (⟨source, drawn⟩ : Tally σ)
      = ((part.play buffer source).1,
          ⟨(part.play buffer source).2, drawn + part.draws buffer.size⟩) := by
  unfold play
  simp only [Span.playAll_eq, Instrument.voices_tally, length_strokesOf, draws]
  split_ifs <;> simp [*]

theorem playAll_tally (parts : List Part) (buffer : Buffer R) (source : σ) (drawn : ℕ) :
    playAll parts buffer (⟨source, drawn⟩ : Tally σ)
      = ((playAll parts buffer source).1,
          ⟨(playAll parts buffer source).2,
            drawn + (parts.map (·.draws buffer.size)).sum⟩) := by
  induction parts generalizing buffer source drawn with
  | nil => rfl
  | cons part parts ih =>
    rw [playAll, play_tally]
    simp only [ih, playAll, size_play, List.map_cons, List.sum_cons, Nat.add_assoc]

end Part

namespace Phrase

/-- The number of words that a phrase draws: those of its melodies. -/
def draws (phrase : Phrase) : ℕ :=
  (phrase.melodies.map fun melody =>
    (Part.ofMelody phrase.stepSize melody).draws phrase.frameCount).sum

/-- A phrase that is rendered draws so many words, and counting them changes nothing. -/
theorem render_tally {phrase : Phrase} {source source' : σ} {buffer : Buffer R}
    (h : phrase.render.outcome source = (.ok buffer, source')) (drawn : ℕ) :
    phrase.render.outcome (⟨source, drawn⟩ : Tally σ)
      = (.ok buffer, ⟨source', drawn + phrase.draws⟩) := by
  obtain ⟨hvalid, hfault, hplay⟩ := render_eq_ok_iff.mp h
  refine render_eq_ok_iff.mpr ⟨hvalid, hfault, ?_⟩
  rw [Part.playAll_tally, hplay, List.map_map, Buffer.size_silence]
  rfl

end Phrase

end Chiptune
