import Chiptune.Phrase.Render
import Chiptune.Proofs.Buffer
import Chiptune.Proofs.Phrase.Placement
import Mathlib.Data.List.Nodup

/-!
# Playing as a list of strokes

A *stroke* is one contribution to one frame: the frame, the cycle of the oscillator and the position
in it. What an instrument plays is determined by its strokes: each gives a frame, drawn from the
random source in order, and the buffer receives those frames one after the other. Two lists of
spans with the same strokes are therefore played alike.

* `Span.strokes`, the strokes of a span that lie within a buffer, and `Span.nodup_strokesOf`;
* `Instrument.voices`, the frames of strokes, and `Instrument.voices_range`, those of an oscillator
  that runs on;
* `Span.playAll_eq`, playing is merging the voices of the strokes.
-/

namespace Chiptune

/-- One contribution to a frame. -/
structure Stroke where
  frame : ℕ
  /-- The number of frames in a cycle. -/
  cycle : ℕ
  /-- The position in the cycle. -/
  index : ℕ
deriving DecidableEq

namespace Span

/-- The strokes of a span that lie within a buffer. -/
def strokes (span : Span) (size : ℕ) : List Stroke :=
  (List.range (span.within size)).map fun i => ⟨span.first + i, span.cycle, i % max span.cycle 1⟩

/-- The strokes of spans, one span after the other. -/
def strokesOf (spans : List Span) (size : ℕ) : List Stroke := spans.flatMap (·.strokes size)

/-- The frames that a span writes. -/
theorem mem_strokes {span : Span} {size : ℕ} {stroke : Stroke} (h : stroke ∈ span.strokes size) :
    span.first ≤ stroke.frame ∧ stroke.frame < span.first + span.count ∧ stroke.frame < size ∧
      stroke.cycle = span.cycle ∧
      stroke.index = (stroke.frame - span.first) % max span.cycle 1 := by
  obtain ⟨i, hi, rfl⟩ := List.mem_map.mp h
  rw [List.mem_range, within] at hi
  refine ⟨by simp, by simp only; omega, by simp only; omega, rfl, by simp⟩

/-- A span writes each of its frames once. -/
theorem filter_strokes (span : Span) {size k : ℕ} (hk : k < span.count)
    (hsize : span.first + k < size) :
    (span.strokes size).filter (·.frame = span.first + k)
      = [⟨span.first + k, span.cycle, k % max span.cycle 1⟩] := by
  have hwithin : k < span.within size := by
    rw [within]
    omega
  rw [strokes, List.filter_map]
  have hfilter : (List.range (span.within size)).filter
      ((fun stroke : Stroke => decide (stroke.frame = span.first + k)) ∘ fun i =>
        (⟨span.first + i, span.cycle, i % max span.cycle 1⟩ : Stroke)) = [k] := by
    have hdec : ((fun stroke : Stroke => decide (stroke.frame = span.first + k)) ∘ fun i =>
        (⟨span.first + i, span.cycle, i % max span.cycle 1⟩ : Stroke)) = (· == k) := by
      funext i
      rw [Function.comp_apply, Bool.eq_iff_iff, decide_eq_true_iff, beq_iff_eq]
      exact Nat.add_left_cancel_iff
    rw [hdec, List.filter_beq,
      List.count_eq_one_of_mem List.nodup_range (List.mem_range.mpr hwithin)]
    rfl
  rw [hfilter]
  rfl

/-- A span that starts where whole cycles end goes on with them. -/
theorem strokes_append (first cycle size : ℕ) {count : ℕ} (rest : ℕ) (h : max cycle 1 ∣ count) :
    Span.strokes ⟨first, count, cycle⟩ size ++ Span.strokes ⟨first + count, rest, cycle⟩ size
      = Span.strokes ⟨first, count + rest, cycle⟩ size := by
  rcases Nat.le_total (size - first) count with hle | hge
  · have hnone : Span.within ⟨first + count, rest, cycle⟩ size = 0 := by
      simp only [within]
      omega
    have hsame : Span.within ⟨first, count, cycle⟩ size
        = Span.within ⟨first, count + rest, cycle⟩ size := by
      simp only [within]
      omega
    rw [strokes, strokes, strokes, hnone, hsame, List.range_zero, List.map_nil, List.append_nil]
  · have hall : Span.within ⟨first, count, cycle⟩ size = count := by
      simp only [within]
      omega
    have hsum : Span.within ⟨first, count + rest, cycle⟩ size
        = count + Span.within ⟨first + count, rest, cycle⟩ size := by
      simp only [within]
      omega
    rw [strokes, strokes, strokes, hall, hsum, List.range_add, List.map_append, List.map_map]
    congr 1
    refine List.map_congr_left fun i _ => ?_
    obtain ⟨m, rfl⟩ := h
    rw [Function.comp_apply, Nat.mul_add_mod, Nat.add_assoc]

/-- Spans that follow one another write no frame twice. -/
theorem nodup_strokesOf {spans : List Span} (h : InOrder spans) (size : ℕ) :
    ((strokesOf spans size).map (·.frame)).Nodup := by
  have hlt : (strokesOf spans size).Pairwise fun s t => s.frame < t.frame := by
    rw [strokesOf, List.pairwise_flatMap]
    constructor
    -- a span counts its frames up, and the next one starts where it ends or later
    · intro span _
      rw [strokes, List.pairwise_map]
      exact List.pairwise_lt_range.imp fun hij => Nat.add_lt_add_left hij _
    · refine List.Pairwise.imp (fun hab s hs t ht => ?_) h
      obtain ⟨-, hend, -⟩ := mem_strokes hs
      obtain ⟨hstart, -⟩ := mem_strokes ht
      omega
  exact List.pairwise_map.mpr (hlt.imp fun hst => hst.ne)

end Span

variable {R : Type} [Amplitude R] {σ : Type} [RandomSource σ]

/-- The frames of strokes, each with its place. -/
def Instrument.voices (instrument : Instrument) : List Stroke → σ → List (ℕ × Frame R) × σ
  | [], source => ([], source)
  | stroke :: strokes, source =>
    let (frame, source) :=
      instrument.frameAt (Oscillator.ofTone instrument.tone stroke.cycle) stroke.index source
    let (voices, source) := voices instrument strokes source
    ((stroke.frame, frame) :: voices, source)

namespace Instrument

theorem voices_append (instrument : Instrument) (ss ts : List Stroke) (source : σ) :
    (instrument.voices (ss ++ ts) source : List (ℕ × Frame R) × σ)
      = ((instrument.voices ss source).1 ++
          (instrument.voices (R := R) ts (instrument.voices (R := R) ss source).2).1,
        (instrument.voices (R := R) ts (instrument.voices (R := R) ss source).2).2) := by
  induction ss generalizing source with
  | nil => rfl
  | cons s ss ih =>
    simp only [List.cons_append, voices]
    rw [ih]

/-- Every stroke has a voice in its place. -/
theorem map_fst_voices (instrument : Instrument) (ss : List Stroke) (source : σ) :
    (instrument.voices (R := R) ss source).1.map (·.1) = ss.map (·.frame) := by
  induction ss generalizing source with
  | nil => rfl
  | cons s ss ih => exact congrArg (s.frame :: ·) (ih _)

/-- A property of every frame that strokes can give is one of their voices. -/
theorem forall_mem_voices {Q : Frame R → Prop} (instrument : Instrument) {ss : List Stroke}
    (h : ∀ s ∈ ss, ∀ source : σ,
      Q (instrument.frameAt (Oscillator.ofTone instrument.tone s.cycle) s.index source).1)
    (source : σ) : ∀ v ∈ (instrument.voices ss source).1, Q v.2 := by
  induction ss generalizing source with
  | nil => exact fun v hv => absurd hv List.not_mem_nil
  | cons s ss ih =>
    intro v hv
    rcases List.mem_cons.mp hv with rfl | hv
    · exact h s List.mem_cons_self source
    · exact ih (fun t ht => h t (List.mem_cons_of_mem s ht)) _ v hv

/-- Playing frames is merging the voices of their strokes. -/
theorem playFrames_eq (instrument : Instrument) (cycle first index count : ℕ) (buffer : Buffer R)
    (source : σ) :
    instrument.playFrames (Oscillator.ofTone instrument.tone cycle) first index count buffer source
      = let voices := instrument.voices ((List.range' index count).map fun i =>
          (⟨first + i, cycle, i % max cycle 1⟩ : Stroke)) source
        (buffer.addAll voices.1, voices.2) := by
  induction count generalizing index buffer source with
  | zero => rfl
  | succ count ih =>
    rw [playFrames, List.range'_succ, List.map_cons, voices]
    simp only
    rw [ih]
    rfl

/-! ## One oscillator -/

/-- The source after `count` frames of an oscillator that has started with a cycle and runs on. -/
def sourceAfter (R : Type) [Amplitude R] (instrument : Instrument) (cycle : ℕ) (source : σ) : ℕ → σ
  | 0 => source
  | count + 1 =>
    (instrument.frameAt (Oscillator.ofTone (R := R) instrument.tone cycle) (count % cycle)
      (sourceAfter R instrument cycle source count)).2

/-- Frame `k` of an oscillator that has started with a cycle and runs on. -/
def runningFrame (instrument : Instrument) (cycle : ℕ) (source : σ) (k : ℕ) : Frame R :=
  (instrument.frameAt (Oscillator.ofTone instrument.tone cycle) (k % cycle)
    (instrument.sourceAfter R cycle source k)).1

/-- Strokes that follow one another give the frames of an oscillator that runs on. -/
theorem voices_range (instrument : Instrument) (first cycle count : ℕ) (source : σ) :
    (instrument.voices ((List.range count).map fun k =>
        (⟨first + k, cycle, k % cycle⟩ : Stroke)) source : List (ℕ × Frame R) × σ)
      = ((List.range count).map fun k => (first + k, instrument.runningFrame cycle source k),
        instrument.sourceAfter R cycle source count) := by
  induction count with
  | zero => rfl
  | succ count ih =>
    rw [List.range_succ, List.map_append, voices_append, ih, List.map_append]
    rfl

end Instrument

/-- Playing a span is merging the voices of its strokes. -/
theorem Span.play_eq (span : Span) (instrument : Instrument) (buffer : Buffer R) (source : σ) :
    span.play instrument buffer source
      = let voices := instrument.voices (span.strokes buffer.size) source
        (buffer.addAll voices.1, voices.2) := by
  rw [Span.play, Instrument.playFrames_eq, Span.strokes, List.range_eq_range']

/-- Playing spans is merging the voices of their strokes. -/
theorem Span.playAll_eq (instrument : Instrument) (spans : List Span) (buffer : Buffer R)
    (source : σ) :
    Span.playAll instrument spans buffer source
      = let voices := instrument.voices (Span.strokesOf spans buffer.size) source
        (buffer.addAll voices.1, voices.2) := by
  induction spans generalizing buffer source with
  | nil => rfl
  | cons span spans ih =>
    rw [Span.playAll, Span.play_eq]
    simp only
    rw [ih, Buffer.size_addAll, Span.strokesOf, Span.strokesOf, List.flatMap_cons,
      Instrument.voices_append]
    simp only [Buffer.addAll_append]

/-- Spans whose strokes follow one another are played as an oscillator that runs on. -/
theorem Span.playAll_of_strokesOf {instrument : Instrument} {spans : List Span}
    {first count cycle : ℕ} {buffer : Buffer R}
    (h : strokesOf spans buffer.size
      = (List.range count).map fun k => ⟨first + k, cycle, k % cycle⟩) (source : σ) :
    Span.playAll instrument spans buffer source
      = (buffer.addAll ((List.range count).map fun k =>
          (first + k, instrument.runningFrame cycle source k)),
        instrument.sourceAfter R cycle source count) := by
  rw [Span.playAll_eq, h, Instrument.voices_range]

end Chiptune
