import Chiptune.Proofs.Phrase.Draws
import Chiptune.Random.ChaCha

/-!
# Sound is causal

What is played from a step on cannot be heard before that step begins. A step writes at its own
origin or later, a reverb repeats a frame later than it was, and what a step hands to the next one
depends on nothing that comes after it. Two phrases whose patterns agree on their first `k` steps
are therefore alike up to the frame `k * S`, with `S` frames per step, as long as no noise is
played: the words that the noise of one melody draws would be missing for the next.

* `Part.filter_strokes_place`, the strokes of patterns that start alike;
* `Part.agreeBelow_playAll`, the melodies one after the other;
* `Phrase.render_isCausal`, the whole phrase.
-/

namespace Chiptune

/-! ## Strokes -/

namespace Part

/-- A step writes nothing before its origin. -/
theorem origin_le_first {step quarters origin resume : ℕ} {steps : List Step} {span : Span}
    (h : span ∈ (place step quarters origin resume steps).1) : origin ≤ span.first := by
  induction steps generalizing origin resume with
  | nil => exact absurd h List.not_mem_nil
  | cons s steps ih =>
    cases s with
    | rest => exact (Nat.le_add_right origin step).trans (ih h)
    | note name =>
      rw [place] at h
      cases hframes : Pitch.cycleLength name with
      | error fault =>
        rw [hframes] at h
        exact absurd h List.not_mem_nil
      | ok frames =>
        rw [hframes] at h
        rcases List.mem_cons.mp h with rfl | h
        · exact Nat.le_add_right origin resume
        · exact (Nat.le_add_right origin step).trans (ih h)

theorem filter_strokes_of_lt_origin {step quarters origin resume : ℕ} {steps : List Step}
    {j : ℕ} (hj : j < origin) (size : ℕ) :
    (Span.strokesOf (place step quarters origin resume steps).1 size).filter (·.frame = j)
      = [] := by
  refine List.filter_eq_nil_iff.mpr fun stroke hstroke hframe => ?_
  obtain ⟨span, hspan, hmem⟩ := List.mem_flatMap.mp hstroke
  obtain ⟨hfirst, -⟩ := Span.mem_strokes hmem
  have horigin := origin_le_first hspan
  have hframe : stroke.frame = j := of_decide_eq_true hframe
  omega

/-- Steps that agree at the start have the same strokes before the first one in which they
differ. -/
theorem filter_strokes_place {step quarters origin resume k : ℕ} {steps others : List Step}
    (h : steps.take k = others.take k) {j : ℕ} (hj : j < origin + k * step) (size : ℕ) :
    (Span.strokesOf (place step quarters origin resume steps).1 size).filter (·.frame = j)
      = (Span.strokesOf (place step quarters origin resume others).1 size).filter
          (·.frame = j) := by
  induction k generalizing steps others origin resume with
  | zero =>
    rw [Nat.zero_mul, Nat.add_zero] at hj
    rw [filter_strokes_of_lt_origin hj, filter_strokes_of_lt_origin hj]
  | succ k ih =>
    have hnext : j < origin + step + k * step := by
      rw [Nat.succ_mul] at hj
      omega
    cases steps with
    | nil =>
      cases others with
      | nil => rfl
      | cons t others => exact absurd h nofun
    | cons s steps =>
      cases others with
      | nil => exact absurd h nofun
      | cons t others =>
        rw [List.take_succ_cons, List.take_succ_cons] at h
        obtain ⟨rfl, hrest⟩ := List.cons_eq_cons.mp h
        -- the first step is the same and hands the same frames to what is left
        cases s with
        | rest =>
          rw [place, place]
          exact ih hrest hnext
        | note name =>
          rw [place, place]
          cases Pitch.cycleLength name with
          | error fault => rfl
          | ok frames =>
            simp only [Span.strokesOf, List.flatMap_cons, List.filter_append]
            exact congrArg _ (ih hrest hnext)

end Part

/-! ## Buffers -/

variable {R : Type} [Amplitude R] {σ τ : Type} [RandomSource σ] [RandomSource τ]

/-- Without noise the voices for a frame come from the strokes for that frame. -/
theorem Instrument.filter_voices {instrument : Instrument} (h : instrument.tone ≠ .noise)
    (strokes : List Stroke) (source : σ) (j : ℕ) :
    (instrument.voices (R := R) strokes source).1.filter (·.1 = j)
      = (instrument.voices (R := R) (strokes.filter (·.frame = j)) source).1 := by
  induction strokes with
  | nil => rfl
  | cons stroke strokes ih =>
    have hframe := frameAt_of_ne_noise (R := R) h stroke.cycle stroke.index source source
    rw [voices, hframe]
    by_cases hj : stroke.frame = j
    · rw [List.filter_cons_of_pos (by simpa using hj), List.filter_cons_of_pos (by simpa using hj),
        voices, hframe]
      exact congrArg _ ih
    · rw [List.filter_cons_of_neg (by simpa using hj), List.filter_cons_of_neg (by simpa using hj)]
      exact ih

namespace Part

/-- Two parts of one instrument have the same strokes below `n`. -/
structure StartsLike (n : ℕ) (part other : Part) : Prop where
  instrument : part.melody.instrument = other.melody.instrument
  strokes (size j : ℕ) : j < n → (Span.strokesOf part.spans size).filter (·.frame = j)
    = (Span.strokesOf other.spans size).filter (·.frame = j)

variable {n : ℕ} {part other : Part} {b d : Buffer R}

theorem agreeBelow_playAll_spans (h : StartsLike n part other)
    (hquiet : part.melody.instrument.tone ≠ .noise) (hsize : b.size = d.size)
    (hbd : b.AgreeBelow n d) (source : σ) (source' : τ) :
    Buffer.AgreeBelow n (Span.playAll part.melody.instrument part.spans b source).1
      (Span.playAll other.melody.instrument other.spans d source').1 := by
  rw [Span.playAll_eq, Span.playAll_eq, ← h.instrument, ← hsize]
  refine hbd.addAll fun j hj => ?_
  rw [Instrument.voices_of_ne_noise hquiet _ source source', Instrument.filter_voices hquiet,
    Instrument.filter_voices hquiet, h.strokes b.size j hj]

theorem agreeBelow_play (h : StartsLike n part other)
    (hquiet : part.melody.instrument.tone ≠ .noise) (hsize : b.size = d.size)
    (hbd : b.AgreeBelow n d) (source : σ) (source' : τ) :
    Buffer.AgreeBelow n (part.play b source).1 (other.play d source').1 := by
  have hsilent : (Buffer.silence b.size : Buffer R).AgreeBelow n (Buffer.silence d.size) := by
    rw [hsize]
    exact .refl _ _
  unfold play
  simp only [← h.instrument]
  split_ifs
  · have hdry := agreeBelow_playAll_spans h hquiet (by simp [hsize]) hsilent source source'
    rw [← h.instrument] at hdry
    exact hbd.overlay (hdry.echo _ _) 0
  · have hplayed := agreeBelow_playAll_spans h hquiet hsize hbd source source'
    rwa [← h.instrument] at hplayed

/-- Parts that start alike keep buffers alike. -/
theorem agreeBelow_playAll {parts others : List Part} (h : List.Forall₂ (StartsLike n) parts others)
    (hquiet : ∀ part ∈ parts, part.melody.instrument.tone ≠ .noise) (hsize : b.size = d.size)
    (hbd : b.AgreeBelow n d) (source : σ) (source' : τ) :
    Buffer.AgreeBelow n (playAll parts b source).1 (playAll others d source').1 := by
  induction h generalizing b d source source' with
  | nil => exact hbd
  | cons hpart _ ih =>
    obtain ⟨hquiet, hrest⟩ := List.forall_mem_cons.mp hquiet
    exact ih hrest (by simp [hsize]) (agreeBelow_play hpart hquiet hsize hbd source source') _ _

end Part

/-! ## Phrases -/

/-- Two melodies are for one instrument, and their patterns agree on the first `k` steps. -/
def Melody.StartsLike (k : ℕ) (melody other : Melody) : Prop :=
  melody.instrument = other.instrument ∧ melody.pattern.steps.take k = other.pattern.steps.take k

theorem Part.startsLike_ofMelody {step k : ℕ} {melody other : Melody}
    (h : melody.StartsLike k other) :
    Part.StartsLike (k * step) (ofMelody step melody) (ofMelody step other) where
  instrument := h.1
  strokes size j hj := by
    rw [spans_ofMelody, spans_ofMelody, ← h.1]
    exact filter_strokes_place h.2 (by omega) size

namespace Phrase

/-- Two phrases have the same tempo and the same grid. -/
structure SameTiming (phrase other : Phrase) : Prop where
  tempo : phrase.tempo = other.tempo
  beats : phrase.beats = other.beats
  subbeats : phrase.subbeats = other.subbeats

theorem SameTiming.frameCount {phrase other : Phrase} (h : phrase.SameTiming other) :
    phrase.frameCount = other.frameCount := by
  unfold Phrase.frameCount secondsPerMeasure secondsPerBeat
  rw [h.tempo, h.beats]

theorem SameTiming.stepSize {phrase other : Phrase} (h : phrase.SameTiming other) :
    phrase.stepSize = other.stepSize := by
  unfold Phrase.stepSize stepCount
  rw [h.frameCount, h.beats, h.subbeats]

/-- Two phrases of one timing and the same instruments, without noise, whose patterns agree on their
first `k` steps, sound alike before the step after these begins. -/
theorem render_isCausal {phrase other : Phrase} (htiming : phrase.SameTiming other)
    (hquiet : phrase.NoiseFree) {k : ℕ}
    (hmelodies : List.Forall₂ (Melody.StartsLike k) phrase.melodies other.melodies)
    {source : σ} {source' : τ} {buffer buffer' : Buffer R}
    (hrender : (phrase.render.outcome source).1 = .ok buffer)
    (hrender' : (other.render.outcome source').1 = .ok buffer') :
    ∀ j < k * phrase.stepSize, buffer[j]? = buffer'[j]? := by
  obtain ⟨-, -, hplay⟩ := render_eq_ok_iff.mp (Prod.ext hrender rfl)
  obtain ⟨-, -, hplay'⟩ := render_eq_ok_iff.mp (Prod.ext hrender' rfl)
  have hparts : List.Forall₂ (Part.StartsLike (k * phrase.stepSize))
      (phrase.melodies.map (Part.ofMelody phrase.stepSize))
      (other.melodies.map (Part.ofMelody phrase.stepSize)) := by
    rw [List.forall₂_map_left_iff, List.forall₂_map_right_iff]
    exact hmelodies.imp fun _ _ h => Part.startsLike_ofMelody h
  have hagree := Part.agreeBelow_playAll hparts (List.forall_mem_map.mpr hquiet) rfl
    (Buffer.AgreeBelow.refl _ (Buffer.silence phrase.frameCount : Buffer R)) source source'
  rw [← htiming.stepSize, ← htiming.frameCount] at hplay'
  rwa [hplay, hplay'] at hagree

/-- A square wave that is played as it is and a saw with an echo, each with a note or a rest in the
second of two steps. -/
def twoSteps (dry wet : Step) : Phrase :=
  ⟨"two", 120, 1, 2,
    [⟨{ name := "lead", tone := .square }, ⟨"dry", [.note "A4", dry]⟩⟩,
      ⟨{ name := "echo", tone := .saw, reverb := .lots }, ⟨"wet", [.rest, wet]⟩⟩]⟩

/-- The second step begins at frame 2867; the echo of a melody of rests is silence. -/
theorem twoSteps_isCausal : ∃ buffer buffer' : Buffer Float,
    ((twoSteps .rest .rest).render.outcome (ChaCha.ofSeed 1)).1 = .ok buffer ∧
    ((twoSteps (.note "C5") (.note "E3")).render.outcome (ChaCha.ofSeed 2)).1 = .ok buffer' ∧
    ∀ j < 2867, buffer[j]? = buffer'[j]? := by
  have hstep : 1 * (twoSteps .rest .rest).stepSize = 2867 := by decide +kernel
  have hrenders : ∀ (phrase : Phrase) (source : ChaCha.Generator), phrase.validate = .ok () →
      (Score.partsOf phrase.stepSize phrase.melodies).findSome? Part.fault = none →
      ∃ buffer : Buffer Float, (phrase.render.outcome source).1 = .ok buffer :=
    fun _ _ hvalid hfault =>
      ⟨_, congrArg Prod.fst (render_eq_ok_iff.mpr ⟨hvalid, hfault, Prod.mk.eta.symm⟩)⟩
  obtain ⟨buffer, hrender⟩ := hrenders (twoSteps .rest .rest) (ChaCha.ofSeed 1)
    (by decide +kernel) (by decide +kernel)
  obtain ⟨buffer', hrender'⟩ := hrenders (twoSteps (.note "C5") (.note "E3")) (ChaCha.ofSeed 2)
    (by decide +kernel) (by decide +kernel)
  have htiming : (twoSteps .rest .rest).SameTiming (twoSteps (.note "C5") (.note "E3")) :=
    ⟨rfl, rfl, rfl⟩
  have hmelodies : List.Forall₂ (Melody.StartsLike 1) (twoSteps .rest .rest).melodies
      (twoSteps (.note "C5") (.note "E3")).melodies :=
    .cons ⟨rfl, rfl⟩ (.cons ⟨rfl, rfl⟩ .nil)
  have hquiet : (twoSteps .rest .rest).NoiseFree :=
    List.forall_mem_cons.mpr ⟨nofun, List.forall_mem_singleton.mpr nofun⟩
  have hcausal := render_isCausal htiming hquiet hmelodies hrender hrender'
  rw [hstep] at hcausal
  exact ⟨buffer, buffer', hrender, hrender', hcausal⟩

end Phrase

end Chiptune
