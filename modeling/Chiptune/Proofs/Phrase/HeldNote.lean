import Chiptune.Proofs.Phrase.Placement
import Chiptune.Proofs.Phrase.Strokes

/-!
# A held note is one oscillator

A note that is held over several steps is played step by step, each step starting at the end of the
last whole cycle. With `S` frames per step and `n` frames per cycle the step `j` of the run starts
at

  `T j = n * ⌈j * S / n⌉`,

the least multiple of the cycle that is not below the start of the step, and it sounds up to
`T (j + 1)`. The spans of the run therefore follow one another without a gap, each starting on a
whole cycle, and together they are the single span of `T held` frames.

* `cycleEnd`, the ends of the steps, and `cycleEnd_succ`, one step;
* `strokesOf_held`, the run as one span;
* `OneOscillator`, what this means for the strokes, the frames of a buffer and the source;
* `heldNote_isOneOscillator`, for a run anywhere in a pattern.
-/

namespace Chiptune

/-- The least multiple of a cycle that is not below the end of `steps` steps. -/
def cycleEnd (step cycle steps : ℕ) : ℕ := cycle * (steps * step ⌈/⌉ cycle)

@[simp] theorem cycleEnd_zero (step cycle : ℕ) : cycleEnd step cycle 0 = 0 := by
  rw [cycleEnd, Nat.zero_mul, zero_ceilDiv, Nat.mul_zero]

theorem cycleEnd_bounds (step steps : ℕ) {cycle : ℕ} (hcycle : 0 < cycle) :
    steps * step ≤ cycleEnd step cycle steps ∧
      cycleEnd step cycle steps < steps * step + cycle := by
  have hdiv := Nat.div_add_mod (steps * step + cycle - 1) cycle
  have hmod := Nat.mod_lt (steps * step + cycle - 1) hcycle
  rw [cycleEnd, Nat.ceilDiv_eq_add_pred_div]
  omega

/-- A multiple of a cycle is known from the place at which its last cycle starts. -/
theorem eq_cycleEnd {step steps cycle n : ℕ} (hdvd : cycle ∣ n) (hge : steps * step ≤ n)
    (hlt : n < steps * step + cycle) : n = cycleEnd step cycle steps := by
  obtain ⟨m, rfl⟩ := hdvd
  obtain ⟨hge', hlt'⟩ := cycleEnd_bounds step steps (by omega : 0 < cycle)
  rw [cycleEnd] at *
  generalize steps * step ⌈/⌉ cycle = m' at *
  have hle : m ≤ m' := by
    by_contra h
    have := Nat.mul_le_mul_left cycle (by omega : m' + 1 ≤ m)
    rw [Nat.mul_add_one] at this
    omega
  have hle' : m' ≤ m := by
    by_contra h
    have := Nat.mul_le_mul_left cycle (by omega : m + 1 ≤ m')
    rw [Nat.mul_add_one] at this
    omega
  rw [le_antisymm hle hle']

/-- One step of a held note: from the end of a cycle to the end of a cycle. -/
theorem cycleEnd_succ (step steps : ℕ) {cycle : ℕ} (hcycle : 0 < cycle) :
    cycleEnd step cycle steps
        + Span.soundingFrames step 4 (cycleEnd step cycle steps - steps * step) cycle
      = cycleEnd step cycle (steps + 1) := by
  obtain ⟨hge, hlt⟩ := cycleEnd_bounds step steps hcycle
  obtain ⟨hdvd, hreach, hleast⟩ := Span.soundingFrames_spec step 4
    (cycleEnd step cycle steps - steps * step) hcycle
  generalize Span.soundingFrames step 4 (cycleEnd step cycle steps - steps * step) cycle = m at *
  have hsucc : (steps + 1) * step = steps * step + step := Nat.succ_mul steps step
  refine eq_cycleEnd (Nat.dvd_add (Nat.dvd_mul_right _ _) hdvd) ?_ ?_ <;> rw [hsucc] <;> omega

namespace Part

/-- The spans of a held note have the strokes of a single span. `j` steps of it lie behind, which
gives the place at which the run goes on and the frames that are handed to it. -/
theorem strokesOf_held {name : String} {n : ℕ} (hn : Pitch.cycleLength name = .ok n)
    (step origin held j size : ℕ) :
    Span.strokes ⟨origin, cycleEnd step n j, n⟩ size ++
        Span.strokesOf (place step 4 (origin + j * step) (cycleEnd step n j - j * step)
          (List.replicate held (.note name))).1 size
      = Span.strokes ⟨origin, cycleEnd step n (j + held), n⟩ size := by
  obtain ⟨hlo, -⟩ := Pitch.cycleLength_bounds hn
  have hmax : max n 1 = n := by omega
  -- the single span grows by one step at a time, while the run loses its first step
  induction held generalizing j with
  | zero => exact List.append_nil _
  | succ held ih =>
    obtain ⟨hge, -⟩ := cycleEnd_bounds step j (by omega : 0 < n)
    obtain ⟨hge', -⟩ := cycleEnd_bounds step (j + 1) (by omega : 0 < n)
    have hstep := cycleEnd_succ step j (by omega : 0 < n)
    have hsucc : (j + 1) * step = j * step + step := Nat.succ_mul j step
    have hfirst : origin + j * step + (cycleEnd step n j - j * step)
        = origin + cycleEnd step n j := by omega
    have hresume : cycleEnd step n j - j * step
          + Span.soundingFrames step 4 (cycleEnd step n j - j * step) n - step
        = cycleEnd step n (j + 1) - (j + 1) * step := by omega
    have horigin : origin + j * step + step = origin + (j + 1) * step := by omega
    rw [List.replicate_succ, place, hn]
    simp only
    rw [hmax, hfirst, hresume, horigin, Span.strokesOf, List.flatMap_cons, ← List.append_assoc,
      Span.strokes_append _ _ _ _ (hmax.symm ▸ Nat.dvd_mul_right _ _), hstep]
    have hlength : j + (held + 1) = j + 1 + held := by omega
    rw [hlength]
    exact ih (j + 1)

end Part

/-! ## A run of steps -/

/-- Spans that an instrument plays as one oscillator, from `first` on for `count` frames. -/
structure OneOscillator (instrument : Instrument) (run : List Span) (first count cycle : ℕ) :
    Prop where
  /-- Each of the frames that lie in a buffer receives one stroke, at its place in the cycle. -/
  once (size k : ℕ) : k < count → first + k < size →
    (Span.strokesOf run size).filter (·.frame = first + k) = [⟨first + k, cycle, k % cycle⟩]
  /-- No other frame receives any. -/
  only (size : ℕ) : ∀ stroke ∈ Span.strokesOf run size, ∃ k < count, stroke.frame = first + k
  /-- Playing the spans merges one voice for each of these strokes, and does nothing else. -/
  written {R : Type} [Amplitude R] {σ : Type} [RandomSource σ] (buffer : Buffer R) (source : σ) :
    Span.playAll instrument run buffer source
      = let voices := instrument.voices ((List.range (min count (buffer.size - first))).map
          fun k => (⟨first + k, cycle, k % cycle⟩ : Stroke)) source
        (buffer.addAll voices.1, voices.2)
  /-- So frame `first + k` of the buffer is merged with frame `k` of an oscillator that starts with
  a cycle and runs on, and every other frame stays. -/
  frames {R : Type} [Amplitude R] {σ : Type} [RandomSource σ] (buffer : Buffer R) (source : σ)
    (i : ℕ) : (Span.playAll instrument run buffer source).1[i]?
      = if first ≤ i ∧ i < first + count then
          buffer[i]?.map (·.add (instrument.runningFrame cycle source (i - first)))
        else buffer[i]?
  /-- The source is left as that oscillator leaves it where the buffer ends, or the run. -/
  drawn {R : Type} [Amplitude R] {σ : Type} [RandomSource σ] (buffer : Buffer R) (source : σ) :
    (Span.playAll instrument run buffer source).2
      = instrument.sourceAfter R cycle source (min count (buffer.size - first))
  /-- Playing the spans is playing one span. -/
  unbroken {R : Type} [Amplitude R] {σ : Type} [RandomSource σ] (buffer : Buffer R) (source : σ) :
    Span.playAll instrument run buffer source
      = Span.play ⟨first, count, cycle⟩ instrument buffer source

/-- Spans with the strokes of a single span are one oscillator. -/
theorem oneOscillator_of_strokes (instrument : Instrument) {run : List Span}
    {first count cycle : ℕ} (hcycle : 0 < cycle)
    (h : ∀ size, Span.strokesOf run size = Span.strokes ⟨first, count, cycle⟩ size) :
    OneOscillator instrument run first count cycle := by
  have hstrokes : ∀ size, Span.strokesOf run size
      = (List.range (min count (size - first))).map fun k => ⟨first + k, cycle, k % cycle⟩ := by
    intro size
    rw [h, Span.strokes, Nat.max_eq_left hcycle]
    rfl
  exact {
    once := fun size k hk hsize => by
      rw [h, Span.filter_strokes ⟨first, count, cycle⟩ hk hsize]
      simp only
      rw [Nat.max_eq_left hcycle]
    only := fun size stroke hstroke => by
      rw [h] at hstroke
      obtain ⟨hge, hlt, -⟩ := Span.mem_strokes hstroke
      simp only at hge hlt
      exact ⟨stroke.frame - first, by omega, by omega⟩
    written := fun buffer source => by rw [Span.playAll_eq, hstrokes]
    frames := fun buffer source i => by
      rw [Span.playAll_of_strokesOf (hstrokes buffer.size), Buffer.getElem?_addAll_within]
    drawn := fun buffer source => by
      rw [Span.playAll_of_strokesOf (hstrokes buffer.size)]
    unbroken := fun buffer source => by rw [Span.playAll_eq, Span.play_eq, h] }

/-- A note that is held at full length is one oscillator, which starts with the first of its steps
and finishes its last cycle. The run may stand anywhere in a pattern after a rest or at the start;
what comes after it does not matter. -/
theorem heldNote_isOneOscillator {phrase : Phrase} {score : Score} {part : Part}
    (hscore : phrase.score = .ok score) (hpart : part ∈ score.parts)
    (hfull : part.melody.instrument.length = .full)
    {before after : List Step} {name : String} {held n : ℕ}
    (hsteps : part.melody.pattern.steps = before ++ List.replicate held (.note name) ++ after)
    (hn : Pitch.cycleLength name = .ok n) (hplayable : Part.Playable before)
    (hrest : before = [] ∨ before.getLast? = some .rest) :
    ∃ earlier run later, part.spans = earlier ++ run ++ later ∧
      earlier.length = before.countP (fun s => !s.isRest) ∧ run.length = held ∧
      OneOscillator part.melody.instrument run (before.length * phrase.stepSize)
        (n * (held * phrase.stepSize ⌈/⌉ n)) n := by
  obtain ⟨-, rfl⟩ := Phrase.score_eq_ok.mp hscore
  obtain ⟨hlo, -⟩ := Pitch.cycleLength_bounds hn
  set S := phrase.stepSize
  have hheld : Part.Playable (List.replicate held (.note name)) := by
    intro other hother
    obtain rfl := Step.note.inj (List.eq_of_mem_replicate hother)
    exact ⟨n, hn⟩
  have hspans : part.spans = (Part.place S 4 0 0
      (before ++ (List.replicate held (.note name) ++ after))).1 := by
    rw [Score.eq_ofMelody hpart, Part.spans_ofMelody, hfull, hsteps, List.append_assoc]
    rfl
  rw [Part.place_append _ _ _ _ _ hplayable, Part.place_append _ _ _ _ _ hheld,
    Part.resumeAfter_of_rest S 4 hrest, Nat.zero_add] at hspans
  refine ⟨_, _, _, hspans.trans (List.append_assoc _ _ _).symm, Part.length_place _ _ _ _ hplayable,
    ?_, oneOscillator_of_strokes _ (by omega) fun size => ?_⟩
  · rw [Part.length_place _ _ _ _ hheld, List.countP_replicate]
    exact if_pos rfl
  · have h := Part.strokesOf_held hn S (before.length * S) held 0 size
    rw [cycleEnd_zero, Nat.zero_mul, Nat.sub_zero, Nat.add_zero, Nat.zero_add] at h
    exact h

/-- A square wave that holds a note for two of four steps of five frames. -/
def heldMelody : Melody :=
  ⟨{ name := "lead", tone := .square }, ⟨"held", [.rest, .note "A4", .note "A4", .rest]⟩⟩

/-- A measure of one beat with that melody alone. -/
def heldPhrase : Phrase := ⟨"hold", 40000, 1, 4, [heldMelody]⟩

/-- Ten frames of a note with 27 frames per cycle are one whole cycle. -/
theorem heldMelody_isOneOscillator : ∃ earlier run later,
    (Part.ofMelody heldPhrase.stepSize heldMelody).spans = earlier ++ run ++ later ∧
      earlier.length = 0 ∧ run.length = 2 ∧ OneOscillator heldMelody.instrument run 5 27 27 := by
  have hn : Pitch.cycleLength "A4" = .ok 27 := by decide +kernel
  have hstep : heldPhrase.stepSize = 5 := by decide +kernel
  have hscore : heldPhrase.score
      = .ok ⟨heldPhrase, Score.partsOf heldPhrase.stepSize heldPhrase.melodies⟩ := rfl
  set part := Part.ofMelody heldPhrase.stepSize heldMelody
  have hpart : part ∈ Score.partsOf heldPhrase.stepSize heldPhrase.melodies := List.mem_cons_self
  have hsteps : part.melody.pattern.steps
      = [.rest] ++ List.replicate 2 (.note "A4") ++ [.rest] := rfl
  have hplayable : Part.Playable [.rest] := fun name hname =>
    absurd (List.mem_singleton.mp hname) nofun
  have h := heldNote_isOneOscillator hscore hpart rfl hsteps hn
    hplayable (Or.inr rfl)
  rw [hstep] at h
  exact h

end Chiptune
