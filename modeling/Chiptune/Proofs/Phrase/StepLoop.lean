import Chiptune.Phrase.Score
import Chiptune.Proofs.Phrase.Length
import Chiptune.Proofs.Phrase.Placement

/-!
# A step frame by frame

A score gives the frames of a step in closed form. Here the step is written the long way: a loop
goes from frame to frame, in binary64 arithmetic, as long as the note lasts or a cycle is not
finished, and counts the frames that lie past the end of the step. On every step of less than
`2 ^ 53 / 3` frames the loop ends, it writes the frames of the closed form, and what it hands to the
next step is what the score hands on.

* `noteEnd_spec`, the binary64 end of a note is exact;
* `Playhead.Run`, the loop;
* `Playhead.run_iff`, what it writes and where it ends, and `Playhead.carry_eq`, what it hands on.
-/

namespace Chiptune

open Binary64

/-! ## The end of a note -/

/-- The end of a note, counted from the origin of its step. -/
def noteEnd (level : Level) (step : ℕ) : Float :=
  asFloat step - (1 - level.value) * asFloat step

/-- Up to four quarters of a step are exact. -/
theorem representable_quarters {n : ℕ} (step : ℕ) (hstep : 3 * step < 2 ^ 53) (hn : n ≤ 4) :
    Representable ((n * step : ℕ) / 4 : ℚ) ∧ |((n * step : ℕ) / 4 : ℚ)| < 2 ^ (1024 : ℤ) := by
  have hbelow : |((n * step : ℕ) / 4 : ℚ)| < 2 ^ (1024 : ℤ) := by
    have hle : ((n * step : ℕ) / 4 : ℚ) ≤ ((step : ℤ) : ℚ) := by
      rw [div_le_iff₀ (by norm_num)]
      have : n * step ≤ step * 4 := by rw [Nat.mul_comm step 4]; exact Nat.mul_le_mul_right step hn
      exact_mod_cast this
    rw [abs_of_nonneg (by positivity)]
    refine hle.trans_lt ((le_abs_self _).trans_lt (abs_intCast_lt ?_))
    rw [Nat.abs_cast]
    omega
  refine ⟨?_, hbelow⟩
  rcases hn.lt_or_eq with hlt | rfl
  · refine ⟨(n * step : ℕ), -2, ?_, by norm_num, ?_⟩
    · rw [Nat.abs_cast]
      have : n * step ≤ 3 * step := Nat.mul_le_mul_right step (Nat.le_of_lt_succ hlt)
      omega
    · rw [Int.cast_natCast, div_eq_mul_inv]
      norm_num
  · have hfour : ((4 * step : ℕ) / 4 : ℚ) = ((step : ℤ) : ℚ) := by
      push_cast
      ring
    rw [hfour]
    refine representable_intCast ?_
    rw [Nat.abs_cast]
    omega

/-- Whole quarters are exact levels. -/
theorem level_spec (level : Level) : (level.value : Float).isFinite = true ∧
    value (level.value : Float) = level.quarters / 4 := by
  have hquarters := level.quarters_le
  obtain ⟨hnfinite, hnvalue⟩ := count_spec (n := level.quarters) (by omega)
  obtain ⟨hfourfinite, hfourvalue⟩ := count_spec (n := 4) (by norm_num)
  obtain ⟨hrep, hbelow⟩ := representable_quarters 1 (by norm_num) hquarters
  rw [Nat.mul_one] at hrep hbelow
  have hquotient := rounds_div_of_one_le hnfinite hfourfinite
    (fun hne => by
      rw [hnvalue] at hne ⊢
      rw [Nat.abs_cast]
      exact_mod_cast Nat.one_le_iff_ne_zero.mpr (by exact_mod_cast hne))
    (by rw [hfourvalue]; norm_num) (by rw [hfourvalue]; norm_num)
  rw [hnvalue, hfourvalue] at hquotient
  exact hquotient.exact hrep hbelow

/-- The binary64 end of a note is exact. -/
theorem noteEnd_spec (level : Level) {step : ℕ} (hstep : 3 * step < 2 ^ 53) :
    (noteEnd level step).isFinite = true ∧
      value (noteEnd level step) = ((level.quarters * step : ℕ) / 4 : ℚ) := by
  have hquarters := level.quarters_le
  obtain ⟨missing, hmissing⟩ := Nat.exists_eq_add_of_le hquarters
  have hsum : (4 : ℚ) = level.quarters + missing := by exact_mod_cast hmissing
  obtain ⟨hlfinite, hlvalue⟩ := level_spec level
  obtain ⟨hsfinite, hsvalue⟩ : (asFloat step).isFinite = true ∧ value (asFloat step) = step :=
    count_spec (by omega)
  obtain ⟨hofinite, hovalue⟩ := one_spec
  -- what the level lacks, and with it what the note leaves of the step, are quarters again
  have hlack : (1 - level.value : Float).isFinite = true ∧
      value (1 - level.value : Float) = missing / 4 := by
    obtain ⟨hrep, hbelow⟩ := representable_quarters (n := missing) 1 (by norm_num)
      (by omega)
    have hexact : value 1 - value (level.value : Float) = ((missing * 1 : ℕ) / 4 : ℚ) := by
      rw [hovalue, hlvalue, Nat.mul_one]
      linarith
    have hdiff := rounds_sub hofinite hlfinite
    rw [hexact] at hdiff
    simpa only [Nat.mul_one] using hdiff.exact hrep hbelow
  have hoffset : ((1 - level.value) * asFloat step).isFinite = true ∧
      value ((1 - level.value) * asFloat step) = ((missing * step : ℕ) / 4 : ℚ) := by
    obtain ⟨hrep, hbelow⟩ := representable_quarters (n := missing) step hstep (by omega)
    have hexact : value (1 - level.value : Float) * value (asFloat step)
        = ((missing * step : ℕ) / 4 : ℚ) := by
      rw [hlack.2, hsvalue, Nat.cast_mul]
      ring
    have hproduct := rounds_mul hlack.1 hsfinite
    rw [hexact] at hproduct
    exact hproduct.exact hrep hbelow
  obtain ⟨hrep, hbelow⟩ := representable_quarters step hstep hquarters
  have hexact : value (asFloat step) - value ((1 - level.value) * asFloat step)
      = ((level.quarters * step : ℕ) / 4 : ℚ) := by
    have hfour : (step : ℚ) = (level.quarters + missing) * step / 4 := by
      rw [← hsum]
      ring
    rw [hsvalue, hoffset.2, Nat.cast_mul, Nat.cast_mul]
    linarith
  have hdiff := rounds_sub hsfinite hoffset.1
  rw [hexact] at hdiff
  exact hdiff.exact hrep hbelow

/-- A frame is before the end of a note exactly if it is before its quarters of the step. -/
theorem lt_noteEnd_iff (level : Level) {step frame : ℕ} (hstep : 3 * step < 2 ^ 53)
    (hframe : frame ≤ 2 ^ 53) :
    asFloat frame < noteEnd level step ↔ 4 * frame < level.quarters * step := by
  obtain ⟨hffinite, hfvalue⟩ : (asFloat frame).isFinite = true ∧ value (asFloat frame) = frame :=
    count_spec hframe
  obtain ⟨hnfinite, hnvalue⟩ := noteEnd_spec level hstep
  rw [lt_iff hffinite hnfinite, hfvalue, hnvalue, lt_div_iff₀ (by norm_num), Nat.mul_comm 4 frame]
  exact_mod_cast Iff.rfl

/-! ## The loop -/

/-- Where the loop that writes a step stands. -/
structure Playhead where
  /-- The next frame, counted from the origin of the step. -/
  frame : ℕ
  /-- The position in the cycle. -/
  index : ℕ
  /-- The number of frames written past the end of the step. -/
  beyond : ℕ

namespace Playhead

/-- The next frame. -/
def advance (step cycle : ℕ) (head : Playhead) : Playhead where
  frame := head.frame + 1
  index := if cycle ≤ head.index + 1 then 0 else head.index + 1
  beyond := if step ≤ head.frame then head.beyond + 1 else head.beyond

/-- The loop goes on up to the end of the note and then to the end of the cycle. -/
def GoesOn (noteEnd : Float) (head : Playhead) : Prop :=
  asFloat head.frame < noteEnd ∨ head.index ≠ 0

/-- A run of the loop: the frames that it writes, each with its position in the cycle, and where it
ends. -/
inductive Run (step cycle : ℕ) (noteEnd : Float) : Playhead → List (ℕ × ℕ) → Playhead → Prop
  | stop {head : Playhead} : ¬ head.GoesOn noteEnd → Run step cycle noteEnd head [] head
  | next {head last : Playhead} {written : List (ℕ × ℕ)} : head.GoesOn noteEnd →
      Run step cycle noteEnd (head.advance step cycle) written last →
      Run step cycle noteEnd head ((head.frame, head.index) :: written) last

/-- A loop has one run at most. -/
theorem Run.unique {step cycle : ℕ} {noteEnd : Float} {head last last' : Playhead}
    {written written' : List (ℕ × ℕ)} (h : Run step cycle noteEnd head written last)
    (h' : Run step cycle noteEnd head written' last') : written = written' ∧ last = last' := by
  induction h generalizing written' last' with
  | stop hstop =>
    cases h' with
    | stop => exact ⟨rfl, rfl⟩
    | next hnext => exact absurd hnext hstop
  | next hnext _ ih =>
    cases h' with
    | stop hstop => exact absurd hnext hstop
    | next _ hrest =>
      obtain ⟨rfl, rfl⟩ := ih hrest
      exact ⟨rfl, rfl⟩

/-- Where the loop stands after `k` frames. -/
def after (step cycle resume k : ℕ) : Playhead :=
  ⟨resume + k, k % cycle, resume + k - max resume step⟩

theorem advance_after {step cycle : ℕ} (hcycle : 0 < cycle) (resume k : ℕ) :
    (after step cycle resume k).advance step cycle = after step cycle resume (k + 1) := by
  have hindex : (if cycle ≤ k % cycle + 1 then 0 else k % cycle + 1) = (k + 1) % cycle := by
    have hlt := Nat.mod_lt k hcycle
    rw [← Nat.mod_add_mod k cycle 1]
    split_ifs with hlast
    · rw [le_antisymm hlt hlast, Nat.mod_self]
    · rw [Nat.mod_eq_of_lt (not_le.mp hlast)]
  have hbeyond : (if step ≤ resume + k then resume + k - max resume step + 1
      else resume + k - max resume step) = resume + (k + 1) - max resume step := by
    split_ifs <;> omega
  rw [advance, after, after]
  simp only [hindex, hbeyond, Nat.add_assoc]

variable {level : Level} {step resume cycle : ℕ}

/-- The loop goes on until it has written the frames of the closed form. -/
theorem goesOn_after (hstep : 3 * step < 2 ^ 53) (hcycle : 0 < cycle) {k : ℕ}
    (hk : k < Span.soundingFrames step level.quarters resume cycle)
    (hframe : resume + k ≤ 2 ^ 53) : (after step cycle resume k).GoesOn (noteEnd level step) := by
  obtain ⟨hdvd, -, hleast⟩ := Span.soundingFrames_spec step level.quarters resume hcycle
  by_cases hindex : k % cycle = 0
  -- at the end of a cycle there is room for another one before the last cycle ends
  · refine Or.inl ((lt_noteEnd_iff level hstep hframe).mpr ?_)
    have hroom : k + cycle ≤ Span.soundingFrames step level.quarters resume cycle := by
      obtain ⟨cycles, hcycles⟩ := hdvd
      obtain ⟨j, rfl⟩ := Nat.dvd_of_mod_eq_zero hindex
      rw [hcycles] at hk ⊢
      have hj : j < cycles := Nat.lt_of_mul_lt_mul_left hk
      calc cycle * j + cycle = cycle * (j + 1) := (Nat.mul_succ cycle j).symm
        _ ≤ cycle * cycles := Nat.mul_le_mul_left cycle hj
    show 4 * (resume + k) < level.quarters * step
    omega
  · exact Or.inr hindex

theorem not_goesOn_after (hstep : 3 * step < 2 ^ 53) (hcycle : 0 < cycle)
    (hframe : resume + Span.soundingFrames step level.quarters resume cycle ≤ 2 ^ 53) :
    ¬ (after step cycle resume (Span.soundingFrames step level.quarters resume cycle)).GoesOn
      (noteEnd level step) := by
  obtain ⟨hdvd, hreach, -⟩ := Span.soundingFrames_spec step level.quarters resume hcycle
  rintro (hbefore | hwithin)
  · rw [after, lt_noteEnd_iff level hstep hframe] at hbefore
    omega
  · exact hwithin (Nat.mod_eq_zero_of_dvd hdvd)

/-- What is left of the loop after `k` frames. -/
theorem run_after (hstep : 3 * step < 2 ^ 53) (hcycle : 0 < cycle)
    (hframe : resume + Span.soundingFrames step level.quarters resume cycle ≤ 2 ^ 53)
    {k rest : ℕ} (hrest : k + rest = Span.soundingFrames step level.quarters resume cycle) :
    Run step cycle (noteEnd level step) (after step cycle resume k)
      ((List.range' k rest).map fun i => (resume + i, i % cycle))
      (after step cycle resume (Span.soundingFrames step level.quarters resume cycle)) := by
  induction rest generalizing k with
  | zero =>
    obtain rfl : k = _ := hrest
    exact Run.stop (not_goesOn_after hstep hcycle hframe)
  | succ rest ih =>
    rw [List.range'_succ, List.map_cons]
    refine Run.next (goesOn_after hstep hcycle (by omega) (by omega)) ?_
    rw [advance_after hcycle]
    exact ih (by omega)

/-- The loop of a step ends, and it writes the frames of the closed form. -/
theorem run_iff (hstep : 3 * step < 2 ^ 53) (hcycle : 0 < cycle)
    (hframe : resume + Span.soundingFrames step level.quarters resume cycle ≤ 2 ^ 53)
    {written : List (ℕ × ℕ)} {last : Playhead} :
    Run step cycle (noteEnd level step) ⟨resume, 0, 0⟩ written last ↔
      written = (List.range (Span.soundingFrames step level.quarters resume cycle)).map
          (fun i => (resume + i, i % cycle)) ∧
        last = after step cycle resume (Span.soundingFrames step level.quarters resume cycle) := by
  have hstart : after step cycle resume 0 = ⟨resume, 0, 0⟩ := by
    rw [after, Nat.zero_mod, Nat.add_zero, Nat.sub_eq_zero_of_le (le_max_left _ _)]
  have hrun := run_after (k := 0) hstep hcycle hframe (Nat.zero_add _)
  rw [hstart, ← List.range_eq_range'] at hrun
  constructor
  · exact fun h => h.unique hrun
  · rintro ⟨rfl, rfl⟩
    exact hrun

/-- What a step hands to the next one: the frames written past its end, or what is left of the
frames that it was given if it wrote none. -/
def carry (step resume : ℕ) (last : Playhead) : ℕ :=
  if last.frame = resume then resume - step else last.beyond

/-- The loop hands on the frames by which it ends past the step. -/
theorem carry_eq (hcycle : 0 < cycle) :
    carry step resume
        (after step cycle resume (Span.soundingFrames step level.quarters resume cycle))
      = resume + Span.soundingFrames step level.quarters resume cycle - step := by
  obtain ⟨hdvd, -, hleast⟩ := Span.soundingFrames_spec step level.quarters resume hcycle
  have hfour : level.quarters * step ≤ 4 * step := Nat.mul_le_mul_right step level.quarters_le
  rw [carry, after]
  simp only
  split_ifs with hnone
  · omega
  -- a step that writes frames resumes before its end
  · have hcount : cycle ≤ Span.soundingFrames step level.quarters resume cycle :=
      Nat.le_of_dvd (by omega) hdvd
    omega

end Playhead

end Chiptune
