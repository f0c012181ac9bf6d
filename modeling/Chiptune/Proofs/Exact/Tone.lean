import Chiptune.Proofs.Exact.Reflection
import Chiptune.Proofs.Tone

/-!
# What an instrument contributes, without rounding

Without rounding, no tone but a triangle exceeds its amplitude, and a triangle at most doubles it.
With the amplitudes that tones have nothing is louder than 1, and volume and position make nothing
louder. Frames in range are those that merging them into silence leaves alone.

* `Oscillator.abs_valueAt_exact_le`, the tones, and `Instrument.frameAt_exact`, the frames;
* `Frame.settled_exact_iff`, `Amplitude.lawfulFolding_exact` and `Frame.WithinOne.direct`, what
  merging does to them.
-/

namespace Chiptune

variable {K : Type} [Field K]

/-- Without rounding the distance of a triangle from its zero is a count. -/
theorem Oscillator.fromZero_natCast {cycle index : ℕ} (hi : index < cycle) :
    fromZero (Nat.cast : ℕ → K) cycle index = (fromZero id cycle index : ℕ) := by
  unfold fromZero
  simp only [id]
  split_ifs with h₁
  · rfl
  · exact (Nat.cast_sub h₁).symm
  · rfl
  · exact (Nat.cast_sub hi.le).symm

variable [LinearOrder K] [IsStrictOrderedRing K]

/-! ## Tones -/

/-- A share of 1. -/
theorem abs_ratio_le {m n : ℕ} (h : m ≤ n) : |(m : K) / n| ≤ 1 := by
  rw [abs_of_nonneg (by positivity)]
  exact div_le_one_of_le₀ (by exact_mod_cast h) (Nat.cast_nonneg n)

theorem abs_mul_le_mul {x y a b : K} (hx : |x| ≤ a) (hy : |y| ≤ b) : |x * y| ≤ a * b := by
  rw [abs_mul]
  exact mul_le_mul hx hy (abs_nonneg y) ((abs_nonneg x).trans hx)

namespace Oscillator

/-- A triangle climbs for one frame more than a quarter at most, to less than twice its height. -/
theorem abs_climb_le {cycle index : ℕ} (hi : index < cycle) :
    |fromZero (Nat.cast : ℕ → K) cycle index * (((1 : ℕ) : K) / (max (cycle / 4) 1 : ℕ))| ≤ 2 := by
  have hle := fromZero_le hi
  rw [fromZero_natCast hi]
  set quarter := max (cycle / 4) 1 with hquarter
  have hpos : (0 : K) < quarter := by exact_mod_cast (by omega : 0 < quarter)
  have htwice : ((fromZero id cycle index : ℕ) : K) ≤ 2 * quarter := by
    exact_mod_cast (by omega : fromZero id cycle index ≤ 2 * quarter)
  rw [Nat.cast_one, mul_one_div, abs_of_nonneg (by positivity), div_le_iff₀ hpos]
  exact htwice

variable [FloorRing K] {sine : K → K} {halfTurn : K} {σ : Type} [RandomSource σ]

variable (sine halfTurn) in
/-- It is a quarter for a square and a half for the other tones. -/
theorem abs_defaultAmplitude_le (tone : Tone) :
    |@Tone.defaultAmplitude K (.exact sine halfTurn) tone| ≤ 1 / 2 := by
  cases tone with
  | square =>
    show |((1 : ℕ) : K) / (4 : ℕ)| ≤ 1 / 2
    norm_num [abs_of_nonneg]
  | _ =>
    show |((1 : ℕ) : K) / (2 : ℕ)| ≤ 1 / 2
    norm_num [abs_of_nonneg]

/-- No tone without chance is louder than 1, if no sine is. -/
theorem abs_valueAt_exact_le (hsine : ∀ x, |sine x| ≤ 1) {tone : Tone} (htone : tone ≠ .noise)
    {cycle index : ℕ} (hi : index < max cycle 1) (source : σ) :
    |(@valueAt K (.exact sine halfTurn) σ _ (@ofTone K (.exact sine halfTurn) tone cycle) index
      source).1| ≤ 1 := by
  have hamplitude := abs_defaultAmplitude_le sine halfTurn tone
  set amplitude := @Tone.defaultAmplitude K (.exact sine halfTurn) tone with hdef
  have hlevel : ∀ level : K, |level| ≤ 2 → |level * amplitude| ≤ 1 := by
    intro level h
    have hprod := abs_mul_le_mul h hamplitude
    linarith
  cases tone with
  | square =>
    refine hlevel (if index ≤ max cycle 1 / 2 then ((1 : ℕ) : K) else -((1 : ℕ) : K)) ?_
    split_ifs <;> norm_num
  | sine => exact hlevel _ ((hsine _).trans one_le_two)
  | triangle =>
    let := Amplitude.exact sine halfTurn
    have hclimb := abs_climb_le (K := K) hi
    show |(ofTone .triangle cycle : Oscillator K).triangleAt index| ≤ 1
    rw [triangleAt_eq]
    refine hlevel _ ?_
    split_ifs
    · exact hclimb
    · rwa [abs_neg]
  | noise => exact absurd rfl htone
  | saw =>
    set interval := max (max cycle 1 / 2) 1
    set moved := (index + interval / 2) % UInt64.size
    have hphase := abs_le.mp (abs_ratio_le (K := K)
      (Nat.mod_lt moved (by omega : 0 < interval)).le)
    refine hlevel (((6 : ℕ) : K) / (10 : ℕ) * ((moved % interval : ℕ) / interval)
      - ((3 : ℕ) : K) / (10 : ℕ)) ?_
    push_cast
    rw [abs_le]
    constructor <;> linarith

end Oscillator

/-! ## Frames -/

/-- Both channels are in range. -/
def Frame.WithinOne (frame : Frame K) : Prop := |frame.left| ≤ 1 ∧ |frame.right| ≤ 1

section

variable [FloorRing K] {sine : K → K} {halfTurn : K}

variable (sine halfTurn) in
theorem Level.abs_value_exact_le (level : Level) :
    |@Level.value K (.exact sine halfTurn) level| ≤ 1 :=
  abs_ratio_le (n := 4) (by cases level <;> decide)

variable (sine halfTurn) in
theorem Pan.rightGain_exact_bounds (pan : Pan) :
    0 ≤ @Pan.rightGain K (.exact sine halfTurn) pan ∧
      @Pan.rightGain K (.exact sine halfTurn) pan ≤ 1 := by
  have hle := abs_ratio_le (K := K) (m := pan.index) (n := 4) (by cases pan <;> decide)
  exact ⟨div_nonneg (Nat.cast_nonneg _) (Nat.cast_nonneg 4), (le_abs_self _).trans hle⟩

/-- Neither volume nor position makes an amplitude larger. -/
theorem Instrument.place_exact (instrument : Instrument) {v : K} (hv : |v| ≤ 1) :
    (@Instrument.place K (.exact sine halfTurn) instrument v).WithinOne := by
  have hloud := abs_mul_le_mul hv (Level.abs_value_exact_le sine halfTurn instrument.volume)
  obtain ⟨h0, h1⟩ := Pan.rightGain_exact_bounds sine halfTurn instrument.pan
  have hright := abs_mul_le_mul hloud ((abs_of_nonneg h0).trans_le h1)
  have hleft : |@Pan.leftGain K (.exact sine halfTurn) instrument.pan| ≤ 1 := by
    show |((1 : ℕ) : K) - _| ≤ 1
    rw [Nat.cast_one, abs_le]
    constructor <;> linarith
  have hleft := abs_mul_le_mul hloud hleft
  rw [mul_one, mul_one] at hleft hright
  exact ⟨hleft, hright⟩

/-- The frames of an instrument without chance are in range, if the sine is. -/
theorem Instrument.frameAt_exact (hsine : ∀ x, |sine x| ≤ 1) {instrument : Instrument}
    (htone : instrument.tone ≠ .noise) {cycle index : ℕ} (hi : index < max cycle 1) {σ : Type}
    [RandomSource σ] (source : σ) :
    (@frameAt K (.exact sine halfTurn) σ _ instrument
      (@Oscillator.ofTone K (.exact sine halfTurn) instrument.tone cycle) index
        source).1.WithinOne :=
  instrument.place_exact (Oscillator.abs_valueAt_exact_le hsine htone hi source)

/-! ## Merging -/

omit [IsStrictOrderedRing K] in
/-- Merging into silence folds both channels. -/
theorem Frame.silent_add_exact (frame : Frame K) :
    @Frame.add K (.exact sine halfTurn) (@Frame.silent K (.exact sine halfTurn)) frame
      = ⟨foldExact frame.left, foldExact frame.right⟩ := by
  show Frame.mk (foldExact (((0 : ℕ) : K) + frame.left)) (foldExact (((0 : ℕ) : K) + frame.right))
    = _
  rw [Nat.cast_zero, zero_add, zero_add]

/-- Frames in range are those that stay. -/
theorem Frame.settled_exact_iff {frame : Frame K} :
    @Frame.Settled K (.exact sine halfTurn) frame ↔ frame.WithinOne := by
  unfold Frame.Settled
  rw [silent_add_exact]
  constructor
  · intro h
    rw [← h]
    exact ⟨abs_foldExact_le _, abs_foldExact_le _⟩
  · rintro ⟨hl, hr⟩
    rw [foldExact_of_inRange hl, foldExact_of_inRange hr]

/-- Merging without rounding keeps frames in range. -/
theorem Amplitude.lawfulFolding_exact (sine : K → K) (halfTurn : K) :
    @LawfulFolding K (.exact sine halfTurn) := by
  let := Amplitude.exact sine halfTurn
  refine @LawfulFolding.mk K _ ?_ (fun a b _ => ?_) (fun a ha => ?_)
  · rw [Frame.settled_exact_iff]
    show |((0 : ℕ) : K)| ≤ 1 ∧ |((0 : ℕ) : K)| ≤ 1
    rw [Nat.cast_zero, abs_zero]
    exact ⟨zero_le_one, zero_le_one⟩
  · exact Frame.settled_exact_iff.mpr ⟨abs_foldExact_le _, abs_foldExact_le _⟩
  · obtain ⟨hl, hr⟩ := Frame.settled_exact_iff.mp ha
    show Frame.mk (foldExact (a.left + ((0 : ℕ) : K))) (foldExact (a.right + ((0 : ℕ) : K))) = a
    rw [Nat.cast_zero, add_zero, add_zero, foldExact_of_inRange hl, foldExact_of_inRange hr]

/-- Silence leaves a frame in range as it is. -/
theorem Frame.WithinOne.direct {frame : Frame K} (h : frame.WithinOne) :
    @Frame.Direct K (.exact sine halfTurn) frame := by
  have hsettled : @Frame.Settled K (.exact sine halfTurn) frame := Frame.settled_exact_iff.mpr h
  intro a _
  rw [hsettled]

end

end Chiptune
