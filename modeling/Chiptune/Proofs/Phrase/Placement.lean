import Chiptune.Phrase.Score
import Chiptune.Proofs.Pitch
import Mathlib.Algebra.Order.Floor.Div

/-!
# Placing the steps of a melody

Each note of a pattern becomes one span, and all that one step hands to the next is the number of
frames by which its last cycle reaches over the end. A pattern can therefore be cut anywhere: what
follows the cut is placed as a pattern of its own that resumes where the first part stopped.

* `soundingFrames_spec`, the frames of one step;
* `place_append`, cutting a pattern, with `resumeAfter` for what is handed over;
* `place_fault_eq_none`, patterns without faulty notes;
* `inOrder_place`, patterns in which no frame is written twice;
* `Phrase.score_eq_ok` and `Score.partsOf_of_playable`, the score of a valid phrase.
-/

namespace Chiptune

theorem Level.quarters_le (level : Level) : level.quarters ≤ 4 := by
  cases level <;> decide

/-- A step sounds for the least number of whole cycles that reach its quarters. -/
theorem Span.soundingFrames_spec (step quarters resume : ℕ) {cycle : ℕ} (hcycle : 0 < cycle) :
    cycle ∣ soundingFrames step quarters resume cycle ∧
      quarters * step ≤ 4 * (resume + soundingFrames step quarters resume cycle) ∧
      (soundingFrames step quarters resume cycle = 0 ∨
        4 * (resume + soundingFrames step quarters resume cycle)
          < quarters * step + 4 * cycle) := by
  set cycles := (quarters * step - 4 * resume + (4 * cycle - 1)) / (4 * cycle) with hcycles
  have hsounding : soundingFrames step quarters resume cycle = cycle * cycles := rfl
  have hdiv := Nat.div_add_mod (quarters * step - 4 * resume + (4 * cycle - 1)) (4 * cycle)
  have hmod := Nat.mod_lt (quarters * step - 4 * resume + (4 * cycle - 1))
    (by omega : 0 < 4 * cycle)
  rw [← hcycles, Nat.mul_assoc] at hdiv
  rw [hsounding]
  refine ⟨Nat.dvd_mul_right _ _, by omega, ?_⟩
  rcases Nat.eq_zero_or_pos cycles with hzero | hpos
  · exact Or.inl (by rw [hzero, Nat.mul_zero])
  · have hle : cycle ≤ cycle * cycles := Nat.le_mul_of_pos_right cycle hpos
    right
    omega

/-- Spans that follow one another without overlapping. -/
def Span.InOrder (spans : List Span) : Prop :=
  spans.Pairwise fun a b => a.first + a.count ≤ b.first

namespace Part

/-- What a step hands to the next one after the given steps. A note that cannot be played hands
over what it was given, but nothing is placed after it. -/
def resumeAfter (step quarters : ℕ) : ℕ → List Step → ℕ
  | resume, [] => resume
  | _, .rest :: steps => resumeAfter step quarters 0 steps
  | resume, .note name :: steps =>
    match Pitch.cycleLength name with
    | .error _ => resumeAfter step quarters resume steps
    | .ok frames =>
      resumeAfter step quarters
        (resume + Span.soundingFrames step quarters resume (max frames 1) - step) steps

/-- Every note of the steps can be played. -/
def Playable (steps : List Step) : Prop :=
  ∀ name, Step.note name ∈ steps → ∃ frames, Pitch.cycleLength name = .ok frames

theorem Playable.of_cons {s : Step} {steps : List Step} (h : Playable (s :: steps)) :
    Playable steps :=
  fun name hname => h name (List.mem_cons_of_mem s hname)

theorem resumeAfter_append (step quarters resume : ℕ) (before after : List Step) :
    resumeAfter step quarters resume (before ++ after)
      = resumeAfter step quarters (resumeAfter step quarters resume before) after := by
  induction before generalizing resume with
  | nil => rfl
  | cons s before ih =>
    cases s with
    | rest => exact ih 0
    | note name =>
      rw [List.cons_append, resumeAfter, resumeAfter]
      cases Pitch.cycleLength name with
      | error fault => exact ih resume
      | ok frames => exact ih _

/-- A rest hands over nothing, and neither does the start of a pattern. -/
theorem resumeAfter_of_rest (step quarters : ℕ) {before : List Step}
    (h : before = [] ∨ before.getLast? = some .rest) : resumeAfter step quarters 0 before = 0 := by
  rcases h with rfl | h
  · rfl
  · obtain ⟨init, rfl⟩ := List.getLast?_eq_some_iff.mp h
    rw [resumeAfter_append]
    rfl

/-- A playable pattern has no fault. -/
theorem place_fault_eq_none (step quarters origin resume : ℕ) {steps : List Step}
    (h : Playable steps) : (place step quarters origin resume steps).2 = none := by
  induction steps generalizing origin resume with
  | nil => rfl
  | cons s steps ih =>
    cases s with
    | rest => exact ih _ _ h.of_cons
    | note name =>
      obtain ⟨frames, hframes⟩ := h name List.mem_cons_self
      rw [place, hframes]
      exact ih _ _ h.of_cons

/-- Every step of a playable pattern that is not a rest has a span. -/
theorem length_place (step quarters origin resume : ℕ) {steps : List Step} (h : Playable steps) :
    (place step quarters origin resume steps).1.length
      = steps.countP (fun s => !s.isRest) := by
  induction steps generalizing origin resume with
  | nil => rfl
  | cons s steps ih =>
    cases s with
    | rest => exact ih _ _ h.of_cons
    | note name =>
      obtain ⟨frames, hframes⟩ := h name List.mem_cons_self
      rw [place, hframes]
      simp only [List.length_cons]
      rw [ih _ _ h.of_cons, List.countP_cons_of_pos rfl]

/-- The cycle of a span is that of one of the notes. -/
theorem exists_note_of_mem_place {step quarters origin resume : ℕ} {steps : List Step} {span : Span}
    (h : span ∈ (place step quarters origin resume steps).1) :
    ∃ name, Step.note name ∈ steps ∧ Pitch.cycleLength name = .ok span.cycle := by
  induction steps generalizing origin resume with
  | nil => exact absurd h List.not_mem_nil
  | cons s steps ih =>
    cases s with
    | rest =>
      obtain ⟨name, hname, hcycle⟩ := ih h
      exact ⟨name, List.mem_cons_of_mem _ hname, hcycle⟩
    | note name =>
      rw [place] at h
      cases hframes : Pitch.cycleLength name with
      | error fault =>
        rw [hframes] at h
        exact absurd h List.not_mem_nil
      | ok frames =>
        rw [hframes] at h
        rcases List.mem_cons.mp h with rfl | h
        · have hmax : max frames 1 = frames := by
            have := Pitch.cycleLength_bounds hframes
            omega
          exact ⟨name, List.mem_cons_self, by rw [hframes, hmax]⟩
        · obtain ⟨other, hother, hcycle⟩ := ih h
          exact ⟨other, List.mem_cons_of_mem _ hother, hcycle⟩

/-- A playable pattern can be cut anywhere. -/
theorem place_append (step quarters origin resume : ℕ) {before : List Step} (after : List Step)
    (h : Playable before) :
    place step quarters origin resume (before ++ after)
      = let rest := place step quarters (origin + before.length * step)
          (resumeAfter step quarters resume before) after
        ((place step quarters origin resume before).1 ++ rest.1, rest.2) := by
  induction before generalizing origin resume with
  | nil => simp [place, resumeAfter]
  | cons s before ih =>
    have hlength : origin + (s :: before).length * step
        = origin + step + before.length * step := by
      rw [List.length_cons, Nat.succ_mul]
      omega
    rw [hlength]
    cases s with
    | rest => exact ih _ _ h.of_cons
    | note name =>
      obtain ⟨frames, hframes⟩ := h name List.mem_cons_self
      rw [List.cons_append, place, place, resumeAfter, hframes]
      simp only
      rw [ih _ _ h.of_cons]
      rfl

/-- The spans of a melody. -/
theorem spans_ofMelody (step : ℕ) (melody : Melody) :
    (ofMelody step melody).spans
      = (place step melody.instrument.length.quarters 0 0 melody.pattern.steps).1 := rfl

/-- The cycles of a part are those of notes. -/
theorem cycle_bounds {step : ℕ} {melody : Melody} {span : Span}
    (h : span ∈ (ofMelody step melody).spans) : 2 ≤ span.cycle ∧ span.cycle ≤ 351 := by
  obtain ⟨name, -, hcycle⟩ := exists_note_of_mem_place h
  exact Pitch.cycleLength_bounds hcycle

/-! ## Places -/

/-- Every note of the steps has a cycle of at most one step. -/
def CyclesWithin (step : ℕ) (steps : List Step) : Prop :=
  ∀ name frames, Step.note name ∈ steps → Pitch.cycleLength name = .ok frames → frames ≤ step

theorem CyclesWithin.of_cons {step : ℕ} {s : Step} {steps : List Step}
    (h : CyclesWithin step (s :: steps)) : CyclesWithin step steps :=
  fun name frames hname => h name frames (List.mem_cons_of_mem s hname)

/-- With such cycles a step hands over no more frames than the next one has. -/
theorem resume_le_step {step quarters resume cycle : ℕ} (hcycle : 0 < cycle) (hle : cycle ≤ step)
    (hquarters : quarters ≤ 4) (hresume : resume ≤ step) :
    resume + Span.soundingFrames step quarters resume cycle - step ≤ step := by
  obtain ⟨-, -, hleast⟩ := Span.soundingFrames_spec step quarters resume hcycle
  have hreach : quarters * step ≤ 4 * step := Nat.mul_le_mul_right step hquarters
  omega

/-- Nothing is placed before the frame at which the first step resumes. -/
theorem le_first_of_mem_place {step quarters origin resume : ℕ} {steps : List Step}
    (hquarters : quarters ≤ 4) (hcycles : CyclesWithin step steps) (hresume : resume ≤ step)
    {span : Span} (h : span ∈ (place step quarters origin resume steps).1) :
    origin + resume ≤ span.first := by
  induction steps generalizing origin resume with
  | nil => exact absurd h List.not_mem_nil
  | cons s steps ih =>
    cases s with
    | rest =>
      have hle := ih hcycles.of_cons (Nat.zero_le step) h
      omega
    | note name =>
      rw [place] at h
      cases hframes : Pitch.cycleLength name with
      | error fault =>
        rw [hframes] at h
        exact absurd h List.not_mem_nil
      | ok frames =>
        rw [hframes] at h
        rcases List.mem_cons.mp h with rfl | h
        · exact le_rfl
        -- where the next step resumes is no earlier than where this one ends
        · obtain ⟨hlo, -⟩ := Pitch.cycleLength_bounds hframes
          have hle := hcycles name frames List.mem_cons_self hframes
          have hnext := ih hcycles.of_cons
            (resume_le_step (by omega) (by omega) hquarters hresume) h
          omega

/-- Spans with such cycles do not overlap: what a rest cuts off would end before the rest does. -/
theorem inOrder_place {step quarters origin resume : ℕ} {steps : List Step}
    (hquarters : quarters ≤ 4) (hcycles : CyclesWithin step steps) (hresume : resume ≤ step) :
    Span.InOrder (place step quarters origin resume steps).1 := by
  induction steps generalizing origin resume with
  | nil => exact List.Pairwise.nil
  | cons s steps ih =>
    cases s with
    | rest => exact ih hcycles.of_cons (Nat.zero_le step)
    | note name =>
      rw [place]
      cases hframes : Pitch.cycleLength name with
      | error fault => exact List.Pairwise.nil
      | ok frames =>
        obtain ⟨hlo, -⟩ := Pitch.cycleLength_bounds hframes
        have hle := hcycles name frames List.mem_cons_self hframes
        have hnext : resume + Span.soundingFrames step quarters resume (max frames 1) - step
            ≤ step := resume_le_step (by omega) (by omega) hquarters hresume
        refine List.Pairwise.cons (fun span hspan => ?_) (ih hcycles.of_cons hnext)
        have hfirst := le_first_of_mem_place hquarters hcycles.of_cons hnext hspan
        simp only
        omega

/-- A melody with such cycles writes no frame twice. -/
theorem inOrder_ofMelody {step : ℕ} {melody : Melody}
    (hcycles : CyclesWithin step melody.pattern.steps) :
    Span.InOrder (ofMelody step melody).spans := by
  rw [spans_ofMelody]
  exact inOrder_place melody.instrument.length.quarters_le hcycles (Nat.zero_le _)

end Part

/-! ## Scores -/

/-- Every part of a score is the part of its melody. -/
theorem Score.eq_ofMelody {step : ℕ} {melodies : List Melody} {part : Part}
    (h : part ∈ partsOf step melodies) : part = Part.ofMelody step part.melody := by
  induction melodies with
  | nil => exact absurd h List.not_mem_nil
  | cons melody melodies ih =>
    rw [partsOf] at h
    rcases List.mem_cons.mp h with rfl | h
    · rfl
    · split_ifs at h
      · exact absurd h List.not_mem_nil
      · exact ih h

/-- Without a faulty note every melody has its part. -/
theorem Score.partsOf_of_playable (step : ℕ) {melodies : List Melody}
    (h : ∀ melody ∈ melodies, Part.Playable melody.pattern.steps) :
    partsOf step melodies = melodies.map (Part.ofMelody step) := by
  induction melodies with
  | nil => rfl
  | cons melody melodies ih =>
    have hfault : (Part.ofMelody step melody).fault = none :=
      Part.place_fault_eq_none _ _ _ _ (h melody List.mem_cons_self)
    rw [partsOf, hfault]
    exact congrArg _ (ih fun m hm => h m (List.mem_cons_of_mem melody hm))

/-- A score that ends in no fault has a part for every melody. -/
theorem Score.partsOf_of_fault_eq_none {step : ℕ} {melodies : List Melody}
    (h : (partsOf step melodies).findSome? Part.fault = none) :
    partsOf step melodies = melodies.map (Part.ofMelody step) := by
  induction melodies with
  | nil => rfl
  | cons melody melodies ih =>
    rw [partsOf] at h ⊢
    rw [List.findSome?_cons] at h
    cases hfault : (Part.ofMelody step melody).fault with
    | some fault =>
      rw [hfault] at h
      exact absurd h nofun
    | none =>
      rw [hfault] at h
      exact congrArg _ (ih h)

/-- A score of playable melodies has no fault. -/
theorem Score.fault?_of_playable {phrase : Phrase}
    (h : ∀ melody ∈ phrase.melodies, Part.Playable melody.pattern.steps) :
    Score.fault? ⟨phrase, partsOf phrase.stepSize phrase.melodies⟩ = none := by
  rw [fault?, partsOf_of_playable _ h, List.findSome?_eq_none_iff]
  intro part hpart
  obtain ⟨melody, hmelody, rfl⟩ := List.mem_map.mp hpart
  exact Part.place_fault_eq_none _ _ _ _ (h melody hmelody)

/-- A phrase is valid when none of its timing settings is zero and every pattern fits the grid. -/
theorem Phrase.validate_eq_ok {phrase : Phrase} :
    phrase.validate = .ok () ↔
      (phrase.tempo ≠ 0 ∧ phrase.beats ≠ 0 ∧ phrase.subbeats ≠ 0) ∧
        ∀ melody ∈ phrase.melodies, melody.pattern.length = phrase.stepCount := by
  have hsetting : ∀ (setting : String) (value : ℕ) (next : Except Fault Unit),
      (phrase.checkPositive setting value >>= fun _ => next) = .ok () ↔
        value ≠ 0 ∧ next = .ok () := by
    intro setting value next
    unfold checkPositive
    split_ifs with hzero
    · exact ⟨nofun, fun h => absurd hzero h.1⟩
    · exact ⟨fun h => ⟨hzero, h⟩, fun h => h.2⟩
  have hmelodies : ∀ melodies : List Melody, melodies.forM phrase.checkSteps = .ok () ↔
      ∀ melody ∈ melodies, melody.pattern.length = phrase.stepCount := by
    intro melodies
    induction melodies with
    | nil => exact ⟨fun _ melody hmelody => absurd hmelody List.not_mem_nil, fun _ => rfl⟩
    | cons melody melodies ih =>
      have hcons : (melody :: melodies).forM phrase.checkSteps
          = (phrase.checkSteps melody >>= fun _ => melodies.forM phrase.checkSteps) := rfl
      rw [hcons, List.forall_mem_cons, ← ih, checkSteps]
      split_ifs with hfits
      · exact ⟨fun h => ⟨hfits, h⟩, fun h => h.2⟩
      · exact ⟨nofun, fun h => absurd h.1 hfits⟩
  unfold validate
  rw [hsetting, hsetting, hsetting, hmelodies]
  tauto

/-- A valid phrase has the score of its melodies, any other phrase has none. -/
theorem Phrase.score_eq_ok {phrase : Phrase} {score : Score} :
    phrase.score = .ok score ↔
      phrase.validate = .ok () ∧
        score = ⟨phrase, Score.partsOf phrase.stepSize phrase.melodies⟩ := by
  unfold Phrase.score
  cases phrase.validate with
  | error fault => exact ⟨nofun, fun h => absurd h.1 nofun⟩
  | ok u =>
    exact ⟨fun h => ⟨rfl, (Except.ok.inj h).symm⟩, fun h => congrArg Except.ok h.2.symm⟩

end Chiptune
