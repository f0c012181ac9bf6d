import Chiptune.Proofs.Binary64.Optimal
import Chiptune.Proofs.Phrase.Length
import Chiptune.Proofs.Phrase.Placement

/-!
# Measures and grids against exact arithmetic

A measure has the length that exact arithmetic gives it, up to three quarters of a frame: half a
frame is lost where the length becomes a count, and the three roundings before that take less than
a quarter. Whole beats take nothing at all, and only they can be long.

A grid of steps covers its measure, and it reaches past the end by less than one frame for each
step, because a step is rounded up. Where a grid has more steps than a step has frames, that can be
more than a step: then the last steps begin when the measure is over.

* `Phrase.abs_roundedLength_sub_lt`, the three roundings, and `Phrase.timing_upToRounding`;
* `Phrase.frameCount_le_grid` and `Phrase.grid_lt`, the length of the grid;
* `Phrase.steps_beginWithin`, the steps that begin within the measure, and
  `Phrase.latePhrase_beginsLate`, a measure in which not all of them do.
-/

namespace Chiptune.Phrase

open Binary64

variable {phrase : Phrase}

/-! ## The length of the measure -/

/-- Beats of a whole number of seconds are not rounded. -/
theorem roundedLength_of_dvd (hsettings : phrase.Within32Bits) {seconds : ℕ} (hle : seconds ≤ 60)
    (h : (60 / phrase.tempo : ℚ) = seconds) :
    phrase.roundedLength = seconds * phrase.beats * sampleRate := by
  have hbeats := hsettings.beats_lt
  have hwhole : ∀ n : ℕ, n < 2 ^ 53 → nearest (n : ℚ) = n := by
    intro n hn
    apply nearest_of_representable
    exact_mod_cast representable_intCast (n := (n : ℤ)) (by rw [Nat.abs_cast]; exact_mod_cast hn)
  have hmeasure : seconds * phrase.beats ≤ 60 * phrase.beats :=
    Nat.mul_le_mul_right phrase.beats hle
  have hbeat := hwhole seconds (by omega)
  have hseconds := hwhole (seconds * phrase.beats) (by omega)
  have hframes := hwhole (seconds * phrase.beats * sampleRate) (by rw [sampleRate]; omega)
  push_cast at hseconds hframes
  rw [roundedLength, h, hbeat, hseconds, hframes]

/-- Three roundings move the length by at most three parts in `2 ^ 53`, roughly. -/
theorem drifts_roundedLength (htempo : phrase.tempo ≠ 0) (hbeats : phrase.beats ≠ 0)
    (hsettings : phrase.Within32Bits) :
    Drifts 3 phrase.roundedLength (60 / phrase.tempo * phrase.beats * sampleRate) := by
  have htempo' : (0 : ℚ) < phrase.tempo := by exact_mod_cast Nat.pos_of_ne_zero htempo
  have hbeats' : (1 : ℚ) ≤ phrase.beats := by exact_mod_cast Nat.one_le_iff_ne_zero.mpr hbeats
  have hrate : (1 : ℚ) ≤ sampleRate := by exact_mod_cast (by decide : 1 ≤ sampleRate)
  -- nothing on the way comes near to the numbers that have fewer bits
  have hsmall : (2 : ℚ) ^ (-1022 : ℤ) ≤ 2 ^ (-32 : ℤ) :=
    zpow_le_zpow_right₀ (by norm_num) (by norm_num)
  have hkeep : ∀ {q c : ℚ}, (2 : ℚ) ^ (-32 : ℤ) ≤ q → 1 ≤ c →
      (2 : ℚ) ^ (-32 : ℤ) ≤ nearest q * c := by
    intro q c hq hc
    have hnearest := le_nearest (representable_two_zpow (by norm_num)) hq
    exact hnearest.trans (le_mul_of_one_le_right ((two_zpow_pos _).le.trans hnearest) hc)
  have hbeat : (2 : ℚ) ^ (-32 : ℤ) ≤ 60 / phrase.tempo := by
    have hlt : (phrase.tempo : ℚ) ≤ 2 ^ 32 := by exact_mod_cast hsettings.tempo_lt.le
    rw [le_div_iff₀ htempo']
    calc (2 : ℚ) ^ (-32 : ℤ) * phrase.tempo ≤ 2 ^ (-32 : ℤ) * 2 ^ 32 :=
          mul_le_mul_of_nonneg_left hlt (two_zpow_pos _).le
      _ ≤ 60 := by norm_num
  have hmeasure := hkeep hbeat hbeats'
  have hframes := hkeep hmeasure hrate
  have hdrift := (((Drifts.refl _).nearest (hsmall.trans hbeat)).mul (by linarith)).nearest
    (hsmall.trans hmeasure)
  exact (hdrift.mul (by linarith)).nearest (hsmall.trans hframes)

/-- The three roundings move the length by less than a quarter of a frame. -/
theorem abs_roundedLength_sub_lt (htempo : phrase.tempo ≠ 0) (hbeats : phrase.beats ≠ 0)
    (hsettings : phrase.Within32Bits) :
    |phrase.roundedLength - 688080 * phrase.beats / phrase.tempo| < 1 / 4 := by
  have htempo' : (0 : ℚ) < phrase.tempo := by exact_mod_cast Nat.pos_of_ne_zero htempo
  have hexact : (60 / phrase.tempo * phrase.beats * sampleRate : ℚ)
      = 688080 * phrase.beats / phrase.tempo := by
    rw [sampleRate]
    push_cast
    ring
  by_cases hslow : phrase.tempo ≤ 6
  -- the slowest tempos have whole seconds, and no other measure is long
  · have hdvd : phrase.tempo ∣ 60 := by
      have hpos := Nat.pos_of_ne_zero htempo
      interval_cases phrase.tempo <;> norm_num
    have hseconds : (60 / phrase.tempo : ℚ) = (60 / phrase.tempo : ℕ) := by
      rw [Nat.cast_div hdvd htempo'.ne']
      norm_num
    have hlength := roundedLength_of_dvd hsettings (Nat.div_le_self 60 phrase.tempo) hseconds
    rw [← hexact, hlength, hseconds, sub_self, abs_zero]
    norm_num
  · have hseven : (7 : ℚ) ≤ phrase.tempo := by
      have : 7 ≤ phrase.tempo := by omega
      exact_mod_cast this
    have hlong : (688080 * phrase.beats / phrase.tempo : ℚ) ≤ 688080 * 2 ^ 32 / 7 := by
      have hlt : (phrase.beats : ℚ) ≤ 2 ^ 32 := by exact_mod_cast hsettings.beats_lt.le
      exact div_le_div₀ (by positivity) (mul_le_mul_of_nonneg_left hlt (by norm_num))
        (by norm_num) hseven
    have hdrift := drifts_roundedLength htempo hbeats hsettings
    rw [hexact] at hdrift
    unfold Drifts at hdrift
    calc |phrase.roundedLength - 688080 * phrase.beats / phrase.tempo|
        ≤ ((1 + 1 / 2 ^ 53) ^ 3 - 1) * (688080 * phrase.beats / phrase.tempo) := hdrift
      _ ≤ ((1 + 1 / 2 ^ 53) ^ 3 - 1) * (688080 * 2 ^ 32 / 7) :=
          mul_le_mul_of_nonneg_left hlong (by norm_num)
      _ < 1 / 4 := by norm_num

/-! ## The length of the grid -/

/-- The measure of a text is short enough for exact steps. -/
theorem frameCount_lt (htempo : phrase.tempo ≠ 0) (hsettings : phrase.Within32Bits) :
    phrase.frameCount < 2 ^ 52 := by
  have hle := frameCount_le htempo hsettings
  have hbeats := hsettings.beats_lt
  omega

/-- The steps cover the measure. -/
theorem frameCount_le_grid (htempo : phrase.tempo ≠ 0) (hbeats : phrase.beats ≠ 0)
    (hsubbeats : phrase.subbeats ≠ 0) (hsettings : phrase.Within32Bits) :
    phrase.frameCount ≤ phrase.stepCount * phrase.stepSize := by
  obtain ⟨hpos, -⟩ := stepCount_bounds hbeats hsubbeats hsettings
  have hpos' : (0 : ℚ) < phrase.stepCount := by exact_mod_cast hpos
  have hceil := Nat.le_ceil (phrase.frameCount / phrase.stepCount : ℚ)
  rw [← stepSize_eq hbeats hsubbeats hsettings (frameCount_lt htempo hsettings),
    div_le_iff₀ hpos', mul_comm] at hceil
  exact_mod_cast hceil

/-- The steps reach past the measure by less than one frame each. -/
theorem grid_lt (htempo : phrase.tempo ≠ 0) (hbeats : phrase.beats ≠ 0)
    (hsubbeats : phrase.subbeats ≠ 0) (hsettings : phrase.Within32Bits) :
    phrase.stepCount * phrase.stepSize < phrase.frameCount + phrase.stepCount := by
  obtain ⟨hpos, -⟩ := stepCount_bounds hbeats hsubbeats hsettings
  have hpos' : (0 : ℚ) < phrase.stepCount := by exact_mod_cast hpos
  have hceil := Nat.ceil_lt_add_one
    (div_nonneg (Nat.cast_nonneg (α := ℚ) phrase.frameCount) hpos'.le)
  rw [← stepSize_eq hbeats hsubbeats hsettings (frameCount_lt htempo hsettings),
    ← sub_lt_iff_lt_add, lt_div_iff₀ hpos', sub_mul, one_mul, sub_lt_iff_lt_add, mul_comm] at hceil
  exact_mod_cast hceil

/-- The timing of a phrase is exact up to rounding. A measure is within three quarters of a frame of
its exact length; a step is the exact quotient rounded up, so that the grid covers the measure and
reaches past it by less than one frame for each step. -/
theorem timing_upToRounding (htempo : 1 ≤ phrase.tempo) (hbeats : 1 ≤ phrase.beats)
    (hsubbeats : 1 ≤ phrase.subbeats) (hsettings : phrase.Within32Bits) :
    (phrase.frameCount = ⌊phrase.roundedLength + 1 / 2⌋₊ ∧
      |(phrase.frameCount : ℚ) - 688080 * phrase.beats / phrase.tempo| < 3 / 4) ∧
    (phrase.stepCount = phrase.beats * phrase.subbeats ∧ phrase.stepCount < UInt64.size) ∧
    phrase.stepSize = ⌈(phrase.frameCount / phrase.stepCount : ℚ)⌉₊ ∧
    phrase.frameCount ≤ phrase.stepCount * phrase.stepSize ∧
    phrase.stepCount * phrase.stepSize < phrase.frameCount + phrase.stepCount := by
  rw [Nat.one_le_iff_ne_zero] at htempo hbeats hsubbeats
  obtain ⟨hcount, hnonneg, -⟩ := frameCount_spec htempo hsettings
  have hnear := abs_lt.mp (abs_roundedLength_sub_lt htempo hbeats hsettings)
  -- making a count of the length moves it by half a frame at most
  have hlo : (phrase.frameCount : ℚ) ≤ phrase.roundedLength + 1 / 2 := by
    rw [hcount]
    exact Nat.floor_le (by linarith)
  have hhi : phrase.roundedLength + 1 / 2 < phrase.frameCount + 1 := by
    rw [hcount]
    exact Nat.lt_floor_add_one _
  have hframes : |(phrase.frameCount : ℚ) - 688080 * phrase.beats / phrase.tempo| < 3 / 4 := by
    rw [abs_lt]
    constructor <;> linarith
  exact ⟨⟨hcount, hframes⟩, ⟨rfl, (stepCount_bounds hbeats hsubbeats hsettings).2⟩,
    stepSize_eq hbeats hsubbeats hsettings (frameCount_lt htempo hsettings),
    frameCount_le_grid htempo hbeats hsubbeats hsettings, grid_lt htempo hbeats hsubbeats hsettings⟩

/-- A measure of seconds that are not whole, with as many steps as a grid can have. -/
def widePhrase : Phrase := ⟨"wide", 7, 4294967295, 4294967295, []⟩

/-- The exact length is `422183013763371 + 3/7`, and every step is a single frame. -/
theorem widePhrase_upToRounding : widePhrase.Within32Bits ∧
    |(widePhrase.frameCount : ℚ) - 688080 * 4294967295 / 7| < 3 / 4 ∧
    widePhrase.stepSize = ⌈(widePhrase.frameCount / 18446744065119617025 : ℚ)⌉₊ ∧
    widePhrase.stepCount * widePhrase.stepSize
      < widePhrase.frameCount + widePhrase.stepCount := by
  have hsettings : widePhrase.Within32Bits := ⟨by decide, by decide, by decide⟩
  obtain ⟨⟨-, hframes⟩, -, hstep, -, hgrid⟩ :=
    timing_upToRounding (show 1 ≤ widePhrase.tempo by decide) (by decide) (by decide) hsettings
  have hsteps : widePhrase.stepCount = 18446744065119617025 := by decide
  rw [hsteps] at hstep
  exact ⟨hsettings, by exact_mod_cast hframes, by exact_mod_cast hstep, hgrid⟩

/-! ## Steps within the measure -/

/-- The step begins before the measure ends. -/
def BeginsWithin (phrase : Phrase) (number : ℕ) : Prop :=
  number * phrase.stepSize < phrase.frameCount

/-- Where a measure has at least one frame for each step, the steps of its first half begin within
it. All of them do exactly if the grid reaches past the measure by less than a step; it does so
where a grid has no more steps than a step has frames. -/
theorem steps_beginWithin (hvalid : phrase.validate = .ok ()) (hsettings : phrase.Within32Bits)
    (hgrid : phrase.stepCount ≤ phrase.frameCount) :
    (∀ number, 2 * number ≤ phrase.stepCount → phrase.BeginsWithin number) ∧
    ((∀ number < phrase.stepCount, phrase.BeginsWithin number) ↔
      phrase.stepCount * phrase.stepSize < phrase.frameCount + phrase.stepSize) ∧
    (phrase.stepCount ≤ phrase.stepSize →
      ∀ number < phrase.stepCount, phrase.BeginsWithin number) := by
  obtain ⟨⟨htempo, hbeats, hsubbeats⟩, -⟩ := validate_eq_ok.mp hvalid
  obtain ⟨hpos, -⟩ := stepCount_bounds hbeats hsubbeats hsettings
  have hlt := grid_lt htempo hbeats hsubbeats hsettings
  unfold BeginsWithin
  -- all steps begin within the measure if the last one does
  have hall : (∀ number < phrase.stepCount, number * phrase.stepSize < phrase.frameCount) ↔
      phrase.stepCount * phrase.stepSize < phrase.frameCount + phrase.stepSize := by
    obtain ⟨last, hlast⟩ : ∃ last, phrase.stepCount = last + 1 := Nat.exists_eq_add_one.mpr hpos
    rw [hlast, Nat.succ_mul, Nat.add_lt_add_iff_right]
    constructor
    · intro h
      exact h last (Nat.lt_succ_self last)
    · intro h number hnumber
      have hle : number * phrase.stepSize ≤ last * phrase.stepSize :=
        Nat.mul_le_mul_right _ (Nat.le_of_lt_succ hnumber)
      omega
  refine ⟨?_, hall, ?_⟩
  · intro number hnumber
    have hhalf : 2 * number * phrase.stepSize ≤ phrase.stepCount * phrase.stepSize :=
      Nat.mul_le_mul_right _ hnumber
    rw [Nat.mul_assoc] at hhalf
    omega
  · intro hshort
    apply hall.mpr
    omega

/-- Ten frames with seven steps: a step is rounded up to two frames. -/
def latePhrase : Phrase := ⟨"late", 68808, 1, 7, []⟩

theorem stepSize_latePhrase : latePhrase.frameCount = 10 ∧ latePhrase.stepSize = 2 := by
  decide +kernel

/-- Its last two steps begin when the measure is over. -/
theorem latePhrase_beginsLate : latePhrase.validate = .ok () ∧ latePhrase.Within32Bits ∧
    latePhrase.stepCount ≤ latePhrase.frameCount ∧
    ¬∀ number < latePhrase.stepCount, latePhrase.BeginsWithin number := by
  obtain ⟨hframes, hstep⟩ := stepSize_latePhrase
  refine ⟨by decide, ⟨by decide, by decide, by decide⟩, ?_, ?_⟩
  · rw [hframes]
    decide
  · intro hall
    have hlast := hall 6 (by decide)
    rw [BeginsWithin, hframes, hstep] at hlast
    omega

/-- Its first four steps begin within the measure. -/
theorem latePhrase_beginsWithin : latePhrase.validate = .ok () ∧ latePhrase.Within32Bits ∧
    latePhrase.stepCount ≤ latePhrase.frameCount ∧
    ∀ number ≤ 3, latePhrase.BeginsWithin number := by
  have hvalid : latePhrase.validate = .ok () := by decide
  have hsettings : latePhrase.Within32Bits := ⟨by decide, by decide, by decide⟩
  have hgrid : latePhrase.stepCount ≤ latePhrase.frameCount := by
    rw [stepSize_latePhrase.1]
    decide
  refine ⟨hvalid, hsettings, hgrid, fun number hnumber => ?_⟩
  apply (steps_beginWithin hvalid hsettings hgrid).1
  have hsteps : latePhrase.stepCount = 7 := by decide
  omega

end Chiptune.Phrase
