import Chiptune.Proofs.Phrase.StepLoop
import Chiptune.Proofs.Phrase.Strokes
import Mathlib.Order.Bounds.Basic
import Mathlib.Order.Interval.Finset.Nat

/-!
# The steps of a melody on their grid

Every step of a melody that sounds has a place: where it resumes, where it ends and the cycle of its
note, counted from the origin of the step. `LiesOn` says how one place follows from the one before
it, and everything about the frames of a run of sounding steps follows from that: they are written
in increasing order, so none is written twice, and at full length they leave no gap.

* `LiesOn`, the places of a melody, and `place_eq`, the spans at these places;
* `LiesOn.pairwise_frames`, a run of sounding steps writes its frames in increasing order;
* `LiesOn.union_of_full`, a run at full length is one interval;
* `Part.liesOn_placeOf`, the places of a pattern, and `Part.exists_onGrid`, all of it for the parts
  of a score, with the loop of every step.
-/

namespace Chiptune

/-- Where a step stands, counted from its origin. -/
structure StepPlace where
  resume : ℕ
  finish : ℕ
  /-- The number of frames in a cycle. -/
  cycle : ℕ

namespace StepPlace

/-- The span of a step with this place. -/
def span (place : StepPlace) (origin : ℕ) : Span :=
  ⟨origin + place.resume, place.finish - place.resume, place.cycle⟩

/-- The frames of the measure that a step with this place writes. -/
def frames (place : StepPlace) (origin : ℕ) : List ℕ :=
  List.range' (origin + place.resume) (place.finish - place.resume)

theorem mem_frames {place : StepPlace} {origin frame : ℕ} :
    frame ∈ place.frames origin ↔
      origin + place.resume ≤ frame ∧ frame < origin + place.finish := by
  rw [frames, List.mem_range'_1]
  omega

/-- The frames that lie past the end of a buffer are dropped. -/
theorem map_frame_strokes (place : StepPlace) (origin size : ℕ) :
    ((place.span origin).strokes size).map (·.frame)
      = (place.frames origin).filter (· < size) := by
  have hkept : ∀ first count : ℕ, (List.range' first count).filter (· < size)
      = List.range' first (min count (size - first)) := by
    intro first count
    induction count generalizing first with
    | zero => rw [Nat.zero_min, List.range'_zero, List.filter_nil]
    | succ count ih =>
      rw [List.range'_succ, List.filter_cons, ih]
      split_ifs with hfirst
      · have hmin : min (count + 1) (size - first) = min count (size - (first + 1)) + 1 := by
          have := of_decide_eq_true hfirst
          omega
        rw [hmin, List.range'_succ]
      · have hmin : min (count + 1) (size - first) = min count (size - (first + 1)) := by
          have := of_decide_eq_true (by simpa using hfirst : decide (size ≤ first) = true)
          omega
        rw [hmin, (by omega : min count (size - (first + 1)) = 0), List.range'_zero,
          List.range'_zero]
  rw [frames, hkept, Span.strokes, List.map_map, List.range'_eq_map_range]
  rfl

end StepPlace

/-! ## Places -/

/-- Step `i` is a note. -/
def Sounds (steps : List Step) (i : ℕ) : Prop := ∃ name, steps[i]? = some (.note name)

/-- The steps that sound, in order. -/
def soundingSteps (steps : List Step) : List ℕ :=
  (List.range steps.length).filter fun i => steps[i]?.any (!·.isRest)

/-- Where the steps of a melody stand on a grid of `step` frames, if they sound for `quarters` of
each. -/
structure LiesOn (step quarters : ℕ) (steps : List Step) (places : ℕ → StepPlace) : Prop where
  /-- The cycle is that of the note. -/
  cycle_eq : ∀ i name, steps[i]? = some (.note name) →
    Pitch.cycleLength name = .ok (places i).cycle
  /-- The first step of a run resumes at its origin. -/
  resume_first : ∀ i, Sounds steps i → (∀ j, i = j + 1 → ¬ Sounds steps j) →
    (places i).resume = 0
  /-- Any other step resumes where the one before it ended. -/
  resume_succ : ∀ i, Sounds steps i → Sounds steps (i + 1) →
    (places (i + 1)).resume = (places i).finish - step
  /-- A step that resumes past its quarters writes nothing. -/
  finish_of_le : ∀ i, Sounds steps i → quarters * step ≤ 4 * (places i).resume →
    (places i).finish = (places i).resume
  /-- Any other step writes the least number of whole cycles that reach its quarters. -/
  finish_of_lt : ∀ i, Sounds steps i → 4 * (places i).resume < quarters * step →
    ∃ m, IsLeast {m | quarters * step ≤ 4 * ((places i).resume + m * (places i).cycle)} m ∧
      (places i).finish = (places i).resume + m * (places i).cycle

namespace Part

/-- The cycle of step `i`, which means something only for a note. -/
def cycleAt (steps : List Step) (i : ℕ) : ℕ :=
  ((steps[i]?.bind Step.note?).bind fun name => (Pitch.cycleLength name).toOption).getD 0

/-- The place of step `i`, if the first step resumes `resume` frames after its origin. -/
def placeOf (step quarters resume : ℕ) (steps : List Step) (i : ℕ) : StepPlace :=
  let start := resumeAfter step quarters resume (steps.take i)
  let cycle := cycleAt steps i
  ⟨start, start + Span.soundingFrames step quarters start cycle, cycle⟩

theorem cycleAt_eq {steps : List Step} {i n : ℕ} {name : String}
    (hname : steps[i]? = some (.note name)) (hn : Pitch.cycleLength name = .ok n) :
    cycleAt steps i = n := by
  rw [cycleAt, hname, Option.bind_some, Step.note?, Option.bind_some, hn]
  rfl

theorem soundingSteps_cons (s : Step) (steps : List Step) :
    soundingSteps (s :: steps)
      = (if s.isRest then [] else [0]) ++ (soundingSteps steps).map (· + 1) := by
  rw [soundingSteps, List.length_cons, List.range_succ_eq_map, List.filter_cons, List.filter_map]
  cases s <;> rfl

theorem resumeAfter_note (step quarters resume : ℕ) {name : String} {n : ℕ} (steps : List Step)
    (hn : Pitch.cycleLength name = .ok n) :
    resumeAfter step quarters resume (.note name :: steps) = resumeAfter step quarters
      (resume + Span.soundingFrames step quarters resume n - step) steps := by
  rw [resumeAfter, hn]
  simp only
  rw [Pitch.max_cycleLength hn]

/-- After a rest the steps stand as in a pattern of their own. -/
theorem placeOf_rest (step quarters resume : ℕ) (steps : List Step) (i : ℕ) :
    placeOf step quarters resume (.rest :: steps) (i + 1) = placeOf step quarters 0 steps i := rfl

theorem placeOf_note_zero (step quarters resume : ℕ) {name : String} {n : ℕ} (steps : List Step)
    (hn : Pitch.cycleLength name = .ok n) :
    placeOf step quarters resume (.note name :: steps) 0
      = ⟨resume, resume + Span.soundingFrames step quarters resume n, n⟩ := by
  have hcycle : cycleAt (.note name :: steps) 0 = n := cycleAt_eq rfl hn
  rw [placeOf, hcycle]
  rfl

/-- After a note they resume where it ended. -/
theorem placeOf_note_succ (step quarters resume : ℕ) {name : String} {n : ℕ} (steps : List Step)
    (hn : Pitch.cycleLength name = .ok n) (i : ℕ) :
    placeOf step quarters resume (.note name :: steps) (i + 1)
      = placeOf step quarters (resume + Span.soundingFrames step quarters resume n - step) steps
          i := by
  rw [placeOf, List.take_succ_cons, resumeAfter_note _ _ _ _ hn]
  rfl

/-- The spans of a playable pattern stand at the places of its sounding steps. -/
theorem place_eq (step quarters origin resume : ℕ) {steps : List Step} (h : Playable steps) :
    (place step quarters origin resume steps).1 = (soundingSteps steps).map fun i =>
      (placeOf step quarters resume steps i).span (origin + i * step) := by
  induction steps generalizing origin resume with
  | nil => rfl
  | cons s steps ih =>
    have horigin : ∀ i, origin + (i + 1) * step = origin + step + i * step := by
      intro i
      rw [Nat.succ_mul]
      omega
    rw [soundingSteps_cons, List.map_append, List.map_map]
    cases s with
    | rest =>
      rw [place, ih _ _ h.of_cons]
      refine List.map_congr_left fun i _ => ?_
      rw [Function.comp_apply, horigin, placeOf_rest]
    | note name =>
      obtain ⟨n, hn⟩ := h name List.mem_cons_self
      have hfirst : (⟨origin + resume, Span.soundingFrames step quarters resume n, n⟩ : Span)
          = (placeOf step quarters resume (.note name :: steps) 0).span (origin + 0 * step) := by
        rw [placeOf_note_zero _ _ _ _ hn, StepPlace.span, Nat.zero_mul, Nat.add_zero,
          Nat.add_sub_cancel_left]
      rw [place, hn]
      simp only
      rw [ih _ _ h.of_cons, Pitch.max_cycleLength hn]
      refine congrArg₂ List.cons hfirst (List.map_congr_left fun i _ => ?_)
      rw [Function.comp_apply, horigin, placeOf_note_succ _ _ _ _ hn]

/-- What a step hands over is less than a cycle, so a step resumes within the longest cycle. -/
theorem resumeAfter_le (step quarters : ℕ) {resume : ℕ} {steps : List Step}
    (hquarters : quarters ≤ 4) (hresume : resume ≤ 351) :
    resumeAfter step quarters resume steps ≤ 351 := by
  induction steps generalizing resume with
  | nil => exact hresume
  | cons s steps ih =>
    cases s with
    | rest => exact ih (Nat.zero_le 351)
    | note name =>
      rw [resumeAfter]
      cases hn : Pitch.cycleLength name with
      | error fault => exact ih hresume
      | ok n =>
        obtain ⟨hlo, hhi⟩ := Pitch.cycleLength_bounds hn
        obtain ⟨-, -, hleast⟩ := Span.soundingFrames_spec step quarters resume
          (by omega : 0 < max n 1)
        have hstep : quarters * step ≤ 4 * step := Nat.mul_le_mul_right step hquarters
        exact ih (by omega)

/-- A step that resumes past its quarters takes no frame. -/
theorem soundingFrames_of_le {step quarters resume : ℕ} (cycle : ℕ) (hcycle : 0 < cycle)
    (h : quarters * step ≤ 4 * resume) :
    Span.soundingFrames step quarters resume cycle = 0 := by
  rw [Span.soundingFrames, Nat.sub_eq_zero_of_le h, Nat.zero_add, Nat.div_eq_of_lt (by omega),
    Nat.mul_zero]

/-- Any other step takes the least number of whole cycles. -/
theorem exists_isLeast_soundingFrames (step quarters resume : ℕ) {cycle : ℕ} (hcycle : 0 < cycle) :
    ∃ m, IsLeast {m | quarters * step ≤ 4 * (resume + m * cycle)} m ∧
      Span.soundingFrames step quarters resume cycle = m * cycle := by
  obtain ⟨⟨m, hm⟩, hreach, hleast⟩ := Span.soundingFrames_spec step quarters resume hcycle
  rw [Nat.mul_comm] at hm
  rw [hm] at hreach hleast ⊢
  refine ⟨m, ⟨hreach, fun k hk => ?_⟩, rfl⟩
  by_contra hlt
  rw [not_le] at hlt
  have hk' : quarters * step ≤ 4 * (resume + k * cycle) := hk
  have hnext : k * cycle + cycle ≤ m * cycle := by
    rw [← Nat.succ_mul]
    exact Nat.mul_le_mul_right cycle hlt
  omega

/-- The steps of a playable pattern lie on the grid at their places. -/
theorem liesOn_placeOf (step quarters : ℕ) {steps : List Step} (h : Playable steps) :
    LiesOn step quarters steps (placeOf step quarters 0 steps) := by
  have hcycle : ∀ i name, steps[i]? = some (.note name) →
      Pitch.cycleLength name = .ok (cycleAt steps i) := by
    intro i name hname
    obtain ⟨n, hn⟩ := h name (List.mem_of_getElem? hname)
    rw [cycleAt_eq hname hn, hn]
  have hpos : ∀ i, Sounds steps i → 0 < cycleAt steps i := by
    rintro i ⟨name, hname⟩
    have := Pitch.cycleLength_bounds (hcycle i name hname)
    omega
  refine ⟨hcycle, fun i hi hfirst => ?_, fun i hi _ => ?_, fun i hi hle => ?_, fun i hi _ => ?_⟩
  -- before the first step of a run stands a rest, if anything
  · refine resumeAfter_of_rest step quarters ?_
    cases i with
    | zero => exact Or.inl rfl
    | succ j =>
      obtain ⟨name, hname⟩ := hi
      obtain ⟨hlt, -⟩ := List.getElem?_eq_some_iff.mp hname
      have hj : j < steps.length := Nat.lt_of_succ_lt hlt
      have hrest : steps[j]? = some .rest := by
        rw [List.getElem?_eq_getElem hj]
        cases hs : steps[j] with
        | rest => rfl
        | note other =>
          exact absurd ⟨other, by rw [List.getElem?_eq_getElem hj, hs]⟩ (hfirst j rfl)
      refine Or.inr ?_
      rw [List.take_add_one, hrest]
      exact List.getLast?_concat
  · obtain ⟨name, hname⟩ := hi
    have hn := hcycle i name hname
    show resumeAfter step quarters 0 (steps.take (i + 1)) = _
    rw [List.take_add_one, hname, Option.toList_some, resumeAfter_append,
      resumeAfter_note _ _ _ _ hn]
    rfl
  · have hnone : Span.soundingFrames step quarters (placeOf step quarters 0 steps i).resume
        (cycleAt steps i) = 0 := soundingFrames_of_le _ (hpos i hi) hle
    exact congrArg ((placeOf step quarters 0 steps i).resume + ·) hnone
  · obtain ⟨m, hleast, hframes⟩ := exists_isLeast_soundingFrames step quarters
      (resumeAfter step quarters 0 (steps.take i)) (hpos i hi)
    exact ⟨m, hleast, congrArg (_ + ·) hframes⟩

end Part

/-! ## Runs of sounding steps -/

namespace LiesOn

variable {step quarters : ℕ} {steps : List Step} {places : ℕ → StepPlace}

theorem cycle_pos (h : LiesOn step quarters steps places) {i : ℕ} (hi : Sounds steps i) :
    0 < (places i).cycle := by
  obtain ⟨name, hname⟩ := hi
  have := Pitch.cycleLength_bounds (h.cycle_eq i name hname)
  omega

/-- A step reaches its quarters, and by less than a cycle if it writes anything. -/
theorem finish_spec (h : LiesOn step quarters steps places) {i : ℕ} (hi : Sounds steps i) :
    (places i).resume ≤ (places i).finish ∧ quarters * step ≤ 4 * (places i).finish ∧
      ((places i).finish = (places i).resume ∨
        4 * (places i).finish < quarters * step + 4 * (places i).cycle) := by
  rcases Nat.lt_or_ge (4 * (places i).resume) (quarters * step) with hlt | hle
  · obtain ⟨m, ⟨hreach, hleast⟩, hfinish⟩ := h.finish_of_lt i hi hlt
    have hreach' : quarters * step ≤ 4 * ((places i).resume + m * (places i).cycle) := hreach
    rw [hfinish]
    refine ⟨Nat.le_add_right _ _, hreach', Or.inr ?_⟩
    cases m with
    | zero =>
      rw [Nat.zero_mul, Nat.add_zero] at hreach'
      exact absurd hreach' (not_le.mpr hlt)
    -- one cycle less does not reach
    | succ m =>
      have hless : ¬ quarters * step ≤ 4 * ((places i).resume + m * (places i).cycle) := fun hm =>
        absurd (hleast hm) (Nat.not_succ_le_self m)
      rw [Nat.succ_mul m]
      omega
  · have hfinish := h.finish_of_le i hi hle
    exact ⟨hfinish.ge, hfinish ▸ hle, Or.inl hfinish⟩

/-- Within a run a step ends before any later one resumes. -/
theorem finish_le_resume (h : LiesOn step quarters steps places) {i j : ℕ} (hij : i < j)
    (hrun : ∀ k, i ≤ k → k ≤ j → Sounds steps k) :
    i * step + (places i).finish ≤ j * step + (places j).resume := by
  have hnext : ∀ k, i ≤ k → k + 1 ≤ j →
      k * step + (places k).finish ≤ (k + 1) * step + (places (k + 1)).resume := by
    intro k hik hkj
    rw [h.resume_succ k (hrun k hik (Nat.le_of_succ_le hkj)) (hrun (k + 1) (by omega) hkj),
      Nat.succ_mul]
    omega
  induction j, hij using Nat.le_induction with
  | base => exact hnext i le_rfl le_rfl
  | succ j hij ih =>
    have hbefore := ih (fun k hik hkj => hrun k hik (Nat.le_succ_of_le hkj))
      (fun k hik hkj => hnext k hik (Nat.le_succ_of_le hkj))
    obtain ⟨hle, -⟩ := h.finish_spec (hrun j (Nat.le_of_succ_le hij) (Nat.le_succ j))
    have := hnext j (Nat.le_of_succ_le hij) le_rfl
    omega

/-- A run of sounding steps writes its frames in increasing order, none of them twice. -/
theorem pairwise_frames (h : LiesOn step quarters steps places) {a n : ℕ}
    (hrun : ∀ k, a ≤ k → k < a + n → Sounds steps k) :
    ((List.range' a n).flatMap fun i => (places i).frames (i * step)).Pairwise (· < ·) := by
  rw [List.pairwise_flatMap]
  have hrange : (List.range' a n).Pairwise (· < ·) := List.pairwise_lt_range'
  refine ⟨fun i _ => List.pairwise_lt_range', hrange.imp_of_mem fun {i j} hi hj hij x hx y hy => ?_⟩
  obtain ⟨-, hxi⟩ := StepPlace.mem_frames.mp hx
  obtain ⟨hyj, -⟩ := StepPlace.mem_frames.mp hy
  rw [List.mem_range'_1] at hi hj
  have hle := h.finish_le_resume hij fun k hik hkj => hrun k (by omega) (by omega)
  omega

theorem exists_le_succ_iff {P : ℕ → Prop} {a b : ℕ} (hab : a ≤ b + 1) :
    (∃ i, a ≤ i ∧ i ≤ b + 1 ∧ P i) ↔ (∃ i, a ≤ i ∧ i ≤ b ∧ P i) ∨ P (b + 1) := by
  constructor
  · rintro ⟨i, hai, hib, hi⟩
    rcases hib.lt_or_eq with hlt | rfl
    · exact Or.inl ⟨i, hai, Nat.le_of_lt_succ hlt, hi⟩
    · exact Or.inr hi
  · rintro (⟨i, hai, hib, hi⟩ | hi)
    · exact ⟨i, hai, Nat.le_succ_of_le hib, hi⟩
    · exact ⟨b + 1, hab, le_rfl, hi⟩

/-- At full length a run that starts at its origin is one interval. It reaches the end of its last
step, and by less than the longest of its cycles. -/
theorem union_of_full (h : LiesOn step 4 steps places) {a b : ℕ} (hab : a ≤ b)
    (hrun : ∀ k, a ≤ k → k ≤ b → Sounds steps k) (hfirst : ∀ j, a = j + 1 → ¬ Sounds steps j) :
    ∃ stop, (∀ frame, (∃ i, a ≤ i ∧ i ≤ b ∧ frame ∈ (places i).frames (i * step)) ↔
        a * step ≤ frame ∧ frame < stop) ∧
      (b + 1) * step ≤ stop ∧
      stop < (b + 1) * step + (Finset.Icc a b).sup fun i => (places i).cycle := by
  -- the interval ends where the last step does
  refine ⟨b * step + (places b).finish, ?_⟩
  induction b, hab using Nat.le_induction with
  | base =>
    have ha := hrun a le_rfl le_rfl
    have hzero := h.resume_first a ha hfirst
    have hcycle := h.cycle_pos ha
    obtain ⟨-, hreach, hless⟩ := h.finish_spec ha
    rw [Finset.Icc_self, Finset.sup_singleton, Nat.succ_mul]
    refine ⟨fun frame => ?_, by omega, by omega⟩
    constructor
    · rintro ⟨i, hai, hia, hframe⟩
      obtain rfl := le_antisymm hai hia
      have := StepPlace.mem_frames.mp hframe
      omega
    · intro hframe
      exact ⟨a, le_rfl, le_rfl, StepPlace.mem_frames.mpr (by omega)⟩
  | succ b hab ih =>
    obtain ⟨hunion, hge, hlt⟩ := ih fun k hak hkb => hrun k hak (Nat.le_succ_of_le hkb)
    have hlast := hrun (b + 1) (Nat.le_succ_of_le hab) le_rfl
    have hresume := h.resume_succ b (hrun b hab (Nat.le_succ b)) hlast
    obtain ⟨hle, hreach, hless⟩ := h.finish_spec hlast
    have hsucc : (b + 1) * step = b * step + step := Nat.succ_mul b step
    have hsucc' : (b + 1 + 1) * step = (b + 1) * step + step := Nat.succ_mul (b + 1) step
    have hmono : (Finset.Icc a b).sup (fun i => (places i).cycle)
        ≤ (Finset.Icc a (b + 1)).sup fun i => (places i).cycle :=
      Finset.sup_mono (Finset.Icc_subset_Icc_right (Nat.le_succ b))
    have hcycle : (places (b + 1)).cycle
        ≤ (Finset.Icc a (b + 1)).sup fun i => (places i).cycle :=
      Finset.le_sup (f := fun i => (places i).cycle)
        (Finset.mem_Icc.mpr ⟨Nat.le_succ_of_le hab, le_rfl⟩)
    refine ⟨fun frame => ?_, by omega, by omega⟩
    have hstart : a * step ≤ (b + 1) * step := Nat.mul_le_mul_right step (Nat.le_succ_of_le hab)
    -- the frames of the last step go on where those before it end
    rw [exists_le_succ_iff (Nat.le_succ_of_le hab), hunion, StepPlace.mem_frames]
    omega

end LiesOn

/-! ## Parts on their grid -/

/-- The frame-by-frame loop of a step with this place ends, and in one way only: it writes whole
cycles from `resume` up to `finish`, and hands the next step the frames past the end of its own. -/
structure StepPlace.Loops (place : StepPlace) (step : ℕ) (level : Level) : Prop where
  ends : ∃ last : Playhead, last.frame = place.finish ∧
    Playhead.carry step place.resume last = place.finish - step ∧
    ∀ written stop, Playhead.Run step place.cycle (noteEnd level step) ⟨place.resume, 0, 0⟩
        written stop ↔
      written = (List.range (place.finish - place.resume)).map
          (fun k => (place.resume + k, k % place.cycle)) ∧ stop = last

/-- The steps of a part stand at `places` on a grid of `step` frames. -/
structure Part.OnGrid (part : Part) (step : ℕ) (places : ℕ → StepPlace) : Prop where
  liesOn : LiesOn step part.melody.instrument.length.quarters part.melody.pattern.steps places
  loops : ∀ i, Sounds part.melody.pattern.steps i →
    (places i).Loops step part.melody.instrument.length
  /-- Playing the part writes the frames of its sounding steps in order, up to the end of the
  buffer. -/
  written {R : Type} [Amplitude R] {σ : Type} [RandomSource σ] (buffer : Buffer R) (source : σ) :
    ∃ voices, (Span.playAll part.melody.instrument part.spans buffer source).1
        = buffer.addAll voices ∧
      voices.map (·.1) = ((soundingSteps part.melody.pattern.steps).flatMap fun i =>
        (places i).frames (i * step)).filter (· < buffer.size)
  /-- Within a run of sounding steps a step ends before any later one resumes. -/
  disjoint : ∀ i j, i < j → (∀ k, i ≤ k → k ≤ j → Sounds part.melody.pattern.steps k) →
    i * step + (places i).finish ≤ j * step + (places j).resume
  /-- A run of sounding steps writes no frame twice. -/
  increasing : ∀ a n, (∀ k, a ≤ k → k < a + n → Sounds part.melody.pattern.steps k) →
    ((List.range' a n).flatMap fun i => (places i).frames (i * step)).Pairwise (· < ·)
  /-- At full length a run leaves no gap. -/
  gapless : part.melody.instrument.length = .full → ∀ a b, a ≤ b →
    (∀ k, a ≤ k → k ≤ b → Sounds part.melody.pattern.steps k) →
    (∀ j, a = j + 1 → ¬ Sounds part.melody.pattern.steps j) →
    ∃ stop, (∀ frame, (∃ i, a ≤ i ∧ i ≤ b ∧ frame ∈ (places i).frames (i * step)) ↔
        a * step ≤ frame ∧ frame < stop) ∧
      (b + 1) * step ≤ stop ∧
      stop < (b + 1) * step + (Finset.Icc a b).sup fun i => (places i).cycle

namespace Part

/-- The loop of a step ends where the score has its end. -/
theorem loops_placeOf {step : ℕ} (level : Level) {steps : List Step} (h : Playable steps)
    (hstep : 3 * step < 2 ^ 53) {i : ℕ} (hi : Sounds steps i) :
    (placeOf step level.quarters 0 steps i).Loops step level := by
  have hlies := liesOn_placeOf step level.quarters h
  have hcycle : 0 < cycleAt steps i := hlies.cycle_pos hi
  set resume := resumeAfter step level.quarters 0 (steps.take i) with hresume
  have hfinish : (placeOf step level.quarters 0 steps i).finish
      = resume + Span.soundingFrames step level.quarters resume (cycleAt steps i) := rfl
  -- all frames of the step are small enough to be exact
  have hframe : resume + Span.soundingFrames step level.quarters resume (cycleAt steps i)
      ≤ 2 ^ 53 := by
    obtain ⟨name, hname⟩ := hi
    obtain ⟨-, hlongest⟩ := Pitch.cycleLength_bounds (hlies.cycle_eq i name hname)
    obtain ⟨-, -, hless⟩ := hlies.finish_spec ⟨name, hname⟩
    have hearly : resume ≤ 351 := resumeAfter_le step _ level.quarters_le (Nat.zero_le 351)
    have hquarters : level.quarters * step ≤ 4 * step :=
      Nat.mul_le_mul_right step level.quarters_le
    rw [hfinish] at hless
    rcases hless with hnone | hless
    · exact (hnone.le.trans hearly).trans (by norm_num)
    · omega
  refine ⟨_, rfl, Playhead.carry_eq hcycle, fun written stop => ?_⟩
  rw [hfinish]
  show Playhead.Run step (cycleAt steps i) (noteEnd level step) ⟨resume, 0, 0⟩ written stop ↔
    written = (List.range (resume
      + Span.soundingFrames step level.quarters resume (cycleAt steps i) - resume)).map
        (fun k => (resume + k, k % cycleAt steps i)) ∧ _
  rw [Nat.add_sub_cancel_left]
  exact Playhead.run_iff hstep hcycle hframe

/-- Playing spans at places writes the frames of the places. -/
theorem exists_voices {R : Type} [Amplitude R] {σ : Type} [RandomSource σ] (instrument : Instrument)
    (indices : List ℕ) (places : ℕ → StepPlace) (step : ℕ) (buffer : Buffer R) (source : σ) :
    ∃ voices, (Span.playAll instrument (indices.map fun i => (places i).span (i * step)) buffer
        source).1 = buffer.addAll voices ∧
      voices.map (·.1)
        = (indices.flatMap fun i => (places i).frames (i * step)).filter (· < buffer.size) := by
  refine ⟨_, by rw [Span.playAll_eq], ?_⟩
  rw [Instrument.map_fst_voices, Span.strokesOf, List.flatMap_map, List.map_flatMap,
    List.filter_flatMap]
  exact congrArg (indices.flatMap ·) (funext fun i => StepPlace.map_frame_strokes _ _ _)

/-- The steps of every part of a score stand on the grid of its phrase. The settings of the phrase
are the 32-bit numbers that a text can give. -/
theorem exists_onGrid {phrase : Phrase} {score : Score} {part : Part}
    (hsettings : phrase.Within32Bits) (hscore : phrase.score = .ok score)
    (hpart : part ∈ score.parts) (hplayable : Playable part.melody.pattern.steps) :
    ∃ places, part.OnGrid phrase.stepSize places := by
  obtain ⟨hvalid, rfl⟩ := Phrase.score_eq_ok.mp hscore
  obtain ⟨⟨htempo, hbeats, hsubbeats⟩, -⟩ := Phrase.validate_eq_ok.mp hvalid
  have hspans : part.spans = (soundingSteps part.melody.pattern.steps).map fun i =>
      (placeOf phrase.stepSize part.melody.instrument.length.quarters 0 part.melody.pattern.steps
        i).span (i * phrase.stepSize) := by
    rw [Score.eq_ofMelody hpart, spans_ofMelody, place_eq _ _ _ _ hplayable]
    simp only [Nat.zero_add]
    rfl
  have hstep : 3 * phrase.stepSize < 2 ^ 53 := by
    have hframes := Phrase.frameCount_le htempo hsettings
    have hlt := hsettings.beats_lt
    have hle := Phrase.stepSize_le hbeats hsubbeats hsettings (by omega)
    omega
  have hlies := liesOn_placeOf phrase.stepSize part.melody.instrument.length.quarters hplayable
  refine ⟨_, hlies, fun i hi => loops_placeOf _ hplayable hstep hi, fun buffer source => ?_,
    fun i j => hlies.finish_le_resume, fun a n => hlies.pairwise_frames, fun hfull a b => ?_⟩
  · rw [hspans]
    exact exists_voices _ _ _ _ buffer source
  · rw [hfull] at hlies ⊢
    exact hlies.union_of_full

/-- A square wave with steps of five frames and cycles of 27: the first note reaches over all of
the second step. -/
def longMelody : Melody :=
  ⟨{ name := "lead", tone := .square }, ⟨"long", [.note "A4", .note "A4", .rest, .note "E5"]⟩⟩

/-- A measure of one beat with that melody alone. -/
def longPhrase : Phrase := ⟨"long", 40000, 1, 4, [longMelody]⟩

/-- The second step of the melody is passed over, and the last one reaches past the measure. -/
theorem longMelody_onGrid :
    (ofMelody longPhrase.stepSize longMelody).spans
        = [⟨0, 27, 27⟩, ⟨27, 0, 27⟩, ⟨15, 18, 18⟩] ∧
      ∃ places, (ofMelody longPhrase.stepSize longMelody).OnGrid longPhrase.stepSize places := by
  have hplayable : Playable longMelody.pattern.steps := by
    intro name hname
    have hnames : name = "A4" ∨ name = "E5" := by simpa [longMelody] using hname
    rcases hnames with rfl | rfl
    · exact ⟨27, by decide +kernel⟩
    · exact ⟨18, by decide +kernel⟩
  have hscore : longPhrase.score
      = .ok ⟨longPhrase, Score.partsOf longPhrase.stepSize longPhrase.melodies⟩ := rfl
  exact ⟨by decide +kernel, exists_onGrid ⟨by decide, by decide, by decide⟩ hscore
    List.mem_cons_self hplayable⟩

end Part

end Chiptune
