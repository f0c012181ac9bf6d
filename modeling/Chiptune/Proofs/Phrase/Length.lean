import Chiptune.Phrase.Basic
import Chiptune.Proofs.WholePart
import Mathlib.Algebra.Order.Field.Rat
import Mathlib.Tactic.Linarith

/-!
# The length of a measure and of its steps

The length of a measure comes out of three binary64 operations on its tempo and its beats, and that
of a step out of one more. A beat lasts at most a minute, the slowest tempo being one beat per
minute, and a minute has 688080 frames. So a measure of `beats` beats has at most `688080 * beats`
frames, a bound that passes through every rounding because it is a whole number of less than 53
bits. That leaves room enough for the steps: no quotient is rounded down to a whole number.

* `roundCount_eq` and `ceilCount_eq`, counts as roundings of rational numbers;
* `Phrase.frameCount_spec` and `Phrase.frameCount_le`, the measure;
* `Phrase.stepSize_eq`, the step, the exact quotient rounded up.
-/

namespace Chiptune

open Binary64

/-! ## Counts -/

/-- The whole part of a number up to `2 ^ 53`. -/
theorem floorCount_spec {x : Float} (hx : x.isFinite = true) (hnonneg : 0 ≤ value x)
    (hlt : value x ≤ 2 ^ 53) :
    floorCount x = ⌊value x⌋₊ ∧ (asFloat (floorCount x)).isFinite = true ∧
      value (asFloat (floorCount x)) = ⌊value x⌋₊ := by
  have hfloor : floorCount x = ⌊value x⌋₊ :=
    toNat_toUInt64 hx hnonneg (hlt.trans_lt (by norm_num))
  have hsmall : ⌊value x⌋₊ ≤ 2 ^ 53 := Nat.floor_le_of_le (by exact_mod_cast hlt)
  rw [hfloor]
  exact ⟨rfl, count_spec hsmall⟩

/-- The count nearest to a number, a half going up. -/
theorem roundCount_eq {x : Float} (hx : x.isFinite = true) (hnonneg : 0 ≤ value x)
    (hle : value x ≤ 2 ^ 53) : roundCount x = ⌊value x + 1 / 2⌋₊ := by
  obtain ⟨hfloor, hfinite, hvalue⟩ := floorCount_spec hx hnonneg hle
  have hlo := Nat.floor_le hnonneg
  have hhi := Nat.lt_floor_add_one (value x)
  -- taking off the whole part is exact
  have hrest : (x - asFloat (floorCount x)).isFinite = true ∧
      value (x - asFloat (floorCount x)) = value x - ⌊value x⌋₊ := by
    have hdiff := rounds_sub hx hfinite
    rw [hvalue] at hdiff
    apply hdiff.exact ((representable_value x).sub_floor hnonneg)
    have hone : (1 : ℚ) < 2 ^ (1024 : ℤ) := one_lt_zpow₀ (by norm_num) (by norm_num)
    have hbelow : value x - ⌊value x⌋₊ < 1 := by linarith
    rw [abs_of_nonneg (by linarith)]
    exact hbelow.trans hone
  have hsmall : ⌊value x⌋₊ + 1 ≤ maxCount := by
    have h53 : ⌊value x⌋₊ ≤ 2 ^ 53 := Nat.floor_le_of_le (by exact_mod_cast hle)
    exact (Nat.add_le_add_right h53 1).trans (by decide)
  show (if 0.5 ≤ x - asFloat (floorCount x) then min (floorCount x + 1) maxCount
    else floorCount x) = _
  rw [hfloor] at hrest ⊢
  rw [min_eq_left hsmall]
  by_cases hhalf : 0.5 ≤ x - asFloat ⌊value x⌋₊
  · rw [if_pos hhalf]
    rw [le_iff half_spec.1 hrest.1, half_spec.2, hrest.2] at hhalf
    symm
    rw [Nat.floor_eq_iff (by linarith)]
    push_cast
    constructor <;> linarith
  · rw [if_neg hhalf]
    rw [le_iff half_spec.1 hrest.1, half_spec.2, hrest.2] at hhalf
    symm
    rw [Nat.floor_eq_iff (by linarith)]
    constructor <;> linarith

/-- The least count that is not below a number. -/
theorem ceilCount_eq {x : Float} (hx : x.isFinite = true) (hnonneg : 0 ≤ value x)
    (hle : value x ≤ 2 ^ 53) : ceilCount x = ⌈value x⌉₊ := by
  obtain ⟨hfloor, hfinite, hvalue⟩ := floorCount_spec hx hnonneg hle
  have hlo := Nat.floor_le hnonneg
  have hhi := Nat.lt_floor_add_one (value x)
  have hsmall : ⌊value x⌋₊ + 1 ≤ maxCount := by
    have h53 : ⌊value x⌋₊ ≤ 2 ^ 53 := Nat.floor_le_of_le (by exact_mod_cast hle)
    exact (Nat.add_le_add_right h53 1).trans (by decide)
  show (if asFloat (floorCount x) < x then min (floorCount x + 1) maxCount else floorCount x) = _
  by_cases habove : asFloat (floorCount x) < x
  · rw [if_pos habove, hfloor, min_eq_left hsmall]
    rw [lt_iff hfinite hx, hvalue] at habove
    symm
    rw [Nat.ceil_eq_iff (by omega)]
    push_cast
    exact ⟨habove, hhi.le⟩
  · rw [if_neg habove, hfloor]
    rw [lt_iff hfinite hx, hvalue, not_lt] at habove
    have hwhole : value x = ⌊value x⌋₊ := le_antisymm habove hlo
    rw [hwhole, Nat.floor_natCast, Nat.ceil_natCast]

namespace Phrase

/-! ## The measure -/

/-- The settings are 32-bit numbers. -/
structure Within32Bits (phrase : Phrase) : Prop where
  tempo_lt : phrase.tempo < 2 ^ 32
  beats_lt : phrase.beats < 2 ^ 32
  subbeats_lt : phrase.subbeats < 2 ^ 32

/-- A beat lasts at most a minute. -/
theorem secondsPerBeat_spec {phrase : Phrase} (htempo : phrase.tempo ≠ 0)
    (hsmall : phrase.tempo < 2 ^ 32) :
    phrase.secondsPerBeat.isFinite = true ∧
      value phrase.secondsPerBeat = nearest (60 / phrase.tempo) ∧
      0 ≤ value phrase.secondsPerBeat ∧ value phrase.secondsPerBeat ≤ 60 := by
  have hminute : (60 : Float) = Amplitude.ofCount 60 := by decide
  obtain ⟨hfinite, hvalue⟩ := count_spec (n := 60) (by norm_num)
  rw [← hminute] at hfinite hvalue
  obtain ⟨htfinite, htvalue⟩ : (asFloat phrase.tempo).isFinite = true ∧
      value (asFloat phrase.tempo) = phrase.tempo := count_spec (by omega)
  have hone : (1 : ℚ) ≤ phrase.tempo := by exact_mod_cast Nat.one_le_iff_ne_zero.mpr htempo
  have hquotient : Rounds phrase.secondsPerBeat (60 / phrase.tempo) := by
    have h := rounds_div_of_one_le hfinite htfinite (fun _ => by rw [hvalue]; norm_num)
      (by rw [htvalue]; positivity) (by
        rw [htvalue, abs_of_pos (by positivity)]
        exact_mod_cast hsmall.le.trans (by norm_num))
    rwa [hvalue, htvalue, Nat.cast_ofNat] at h
  have hle : (60 : ℚ) / phrase.tempo ≤ (60 : ℤ) := by
    rw [div_le_iff₀ (by positivity)]
    push_cast
    linarith
  have hnonneg : ((0 : ℤ) : ℚ) ≤ 60 / phrase.tempo := by
    rw [Int.cast_zero]
    positivity
  obtain ⟨hx, hlo, hhi⟩ := hquotient.between_int 0 60 (by norm_num) (by norm_num) hnonneg hle
  have hsize : |(60 : ℚ) / phrase.tempo| ≤ 2 ^ (64 : ℤ) := by
    rw [abs_of_nonneg (by exact_mod_cast hnonneg)]
    exact hle.trans (by norm_num)
  exact ⟨hx, (hquotient.of_abs_le hsize).2, by exact_mod_cast hlo, by exact_mod_cast hhi⟩

/-- The product of a number up to `n` with the count `m`. -/
theorem mul_count_spec {x : Float} {n m : ℕ} (hm : m ≤ 2 ^ 53) (hnm : n * m < 2 ^ 53)
    (hx : x.isFinite = true) (hnonneg : 0 ≤ value x) (hle : value x ≤ n) :
    (x * asFloat m).isFinite = true ∧ value (x * asFloat m) = nearest (value x * m) ∧
      0 ≤ value (x * asFloat m) ∧ value (x * asFloat m) ≤ (n * m : ℕ) := by
  obtain ⟨hmfinite, hmvalue⟩ : (asFloat m).isFinite = true ∧ value (asFloat m) = m :=
    count_spec hm
  have hproduct := rounds_mul hx hmfinite
  rw [hmvalue] at hproduct
  have hmul : value x * m ≤ ((n * m : ℕ) : ℤ) := by
    push_cast
    exact mul_le_mul_of_nonneg_right hle (Nat.cast_nonneg m)
  have hmul0 : 0 ≤ value x * m := mul_nonneg hnonneg (Nat.cast_nonneg m)
  obtain ⟨hfinite, hlo, hhi⟩ := hproduct.between_int 0 (n * m : ℕ) (by norm_num)
    (by rw [Nat.abs_cast]; exact_mod_cast hnm) (by exact_mod_cast hmul0) hmul
  have hsize : |value x * m| ≤ 2 ^ (64 : ℤ) := by
    rw [abs_of_nonneg hmul0]
    calc value x * m ≤ ((n * m : ℕ) : ℚ) := by exact_mod_cast hmul
      _ ≤ 2 ^ 53 := by exact_mod_cast hnm.le
      _ ≤ 2 ^ (64 : ℤ) := by norm_num
  exact ⟨hfinite, (hproduct.of_abs_le hsize).2, by exact_mod_cast hlo, by exact_mod_cast hhi⟩

/-- The length of the measure in frames after three operations, each rounded to 53 bits, and before
it is made a count. -/
def roundedLength (phrase : Phrase) : ℚ :=
  nearest (nearest (nearest (60 / phrase.tempo) * phrase.beats) * sampleRate)

/-- The length of a measure is its rounded length as a count, a half going up. -/
theorem frameCount_spec {phrase : Phrase} (htempo : phrase.tempo ≠ 0)
    (hsettings : phrase.Within32Bits) :
    phrase.frameCount = ⌊phrase.roundedLength + 1 / 2⌋₊ ∧ 0 ≤ phrase.roundedLength ∧
      phrase.roundedLength ≤ (60 * phrase.beats * sampleRate : ℕ) := by
  have hbeats := hsettings.beats_lt
  obtain ⟨hbeat, hbeatvalue, hbeat0, hbeat60⟩ := secondsPerBeat_spec htempo hsettings.tempo_lt
  obtain ⟨hmeasure, hmeasurevalue, hmeasure0, hmeasurele⟩ :=
    mul_count_spec (n := 60) (m := phrase.beats) (by omega) (by omega) hbeat hbeat0
      (by exact_mod_cast hbeat60)
  obtain ⟨hframes, hframesvalue, hframes0, hframesle⟩ :=
    mul_count_spec (n := 60 * phrase.beats) (m := sampleRate)
      (by decide) (by rw [sampleRate]; omega) hmeasure hmeasure0 hmeasurele
  have hlength : value (phrase.secondsPerBeat * asFloat phrase.beats * asFloat sampleRate)
      = phrase.roundedLength := by
    rw [hframesvalue, hmeasurevalue, hbeatvalue, roundedLength]
  rw [hlength] at hframes0 hframesle
  refine ⟨?_, hframes0, hframesle⟩
  rw [← hlength]
  apply roundCount_eq hframes
  · rwa [hlength]
  · rw [hlength]
    refine hframesle.trans ?_
    have h53 : 60 * phrase.beats * sampleRate ≤ 2 ^ 53 := by
      rw [sampleRate]
      omega
    exact_mod_cast h53

/-- A measure has at most `688080` frames for each of its beats. -/
theorem frameCount_le {phrase : Phrase} (htempo : phrase.tempo ≠ 0)
    (hsettings : phrase.Within32Bits) : phrase.frameCount ≤ 688080 * phrase.beats := by
  obtain ⟨hcount, hnonneg, hle⟩ := frameCount_spec htempo hsettings
  have hlt : phrase.frameCount < 60 * phrase.beats * sampleRate + 1 := by
    rw [hcount, Nat.floor_lt (by linarith)]
    push_cast at hle ⊢
    linarith
  rw [sampleRate] at hlt
  omega

/-! ## The step -/

/-- No quotient of counts is rounded down to a whole number below it: between the two there is a
number of 53 bits. -/
theorem lt_nearest_div {b k n : ℕ} (hk : 0 < k) (hk64 : k ≤ 2 ^ 64) (hb : b < 2 ^ 52)
    (hn : (n : ℚ) < b / k) : (n : ℚ) < nearest (b / k) := by
  have hk' : (0 : ℚ) < k := by exact_mod_cast hk
  have hroom : n * k + 1 ≤ b := by
    rw [lt_div_iff₀ hk'] at hn
    exact_mod_cast hn
  have hlog : k ≤ 2 ^ (k.log2 + 1) := Nat.lt_log2_self.le
  have hlog2 : 2 ^ (k.log2 + 1) ≤ 2 * k := by
    rw [pow_succ, mul_comm]
    exact Nat.mul_le_mul_left 2 (Nat.log2_self_le hk.ne')
  have h64 : k.log2 ≤ 64 := by
    by_contra h
    have hpow : 2 ^ 65 ≤ 2 ^ k.log2 := Nat.pow_le_pow_right (by norm_num) (by omega)
    have hself := Nat.log2_self_le hk.ne'
    omega
  set d := 2 ^ (k.log2 + 1) with hd
  have hd' : (0 : ℚ) < d := by
    rw [hd]
    positivity
  have hrep : Representable (n + 1 / d) := by
    refine ⟨(n * d + 1 : ℕ), -((k.log2 + 1 : ℕ) : ℤ), ?_, by omega, ?_⟩
    · rw [Nat.abs_cast]
      have hnd : n * d ≤ n * (2 * k) := Nat.mul_le_mul_left n hlog2
      have hnk : n * (2 * k) = 2 * (n * k) := Nat.mul_left_comm n 2 k
      omega
    · rw [zpow_neg, zpow_natCast, ← div_eq_mul_inv, eq_div_iff (by positivity)]
      have hcast : (d : ℚ) = 2 ^ (k.log2 + 1) := by rw [hd, Nat.cast_pow, Nat.cast_ofNat]
      rw [← hcast]
      push_cast
      rw [add_mul, one_div_mul_cancel hd'.ne']
  have hbelow : (n : ℚ) + 1 / d ≤ b / k := by
    have hone : (1 : ℚ) / d ≤ 1 / k := one_div_le_one_div_of_le hk' (by exact_mod_cast hlog)
    have hquot : (n : ℚ) + 1 / k ≤ b / k := by
      rw [le_div_iff₀ hk', add_mul, one_div_mul_cancel hk'.ne']
      exact_mod_cast hroom
    linarith
  calc (n : ℚ) < n + 1 / d := lt_add_of_pos_right _ (by positivity)
    _ ≤ nearest (b / k) := le_nearest hrep hbelow

/-- Rounding a quotient up is exact, even if the divisor has been rounded. -/
theorem ceil_nearest_div {b k : ℕ} (hk : 0 < k) (hk64 : k ≤ 2 ^ 64) (hb : b < 2 ^ 52) :
    ⌈nearest (b / nearest k)⌉₊ = ⌈(b / k : ℚ)⌉₊ := by
  have hk' : (0 : ℚ) < k := by exact_mod_cast hk
  have hbrep : Representable b := by
    exact_mod_cast representable_intCast (n := (b : ℤ)) (by rw [Nat.abs_cast]; omega)
  rcases Nat.eq_zero_or_pos b with rfl | hb0
  · simp
  have hb' : (1 : ℚ) ≤ b := by exact_mod_cast hb0
  by_cases hle : k ≤ b
  · have hexact : nearest (k : ℚ) = k :=
      nearest_of_representable
        (by exact_mod_cast representable_intCast (n := (k : ℤ)) (by rw [Nat.abs_cast]; omega))
    rw [hexact]
    apply le_antisymm
    · rw [Nat.ceil_le]
      refine nearest_le ?_ (Nat.le_ceil _)
      have hsmall : ⌈(b / k : ℚ)⌉₊ ≤ b := by
        rw [Nat.ceil_le]
        exact div_le_self (by linarith) (by exact_mod_cast hk)
      exact_mod_cast representable_intCast (n := (⌈(b / k : ℚ)⌉₊ : ℤ))
        (by rw [Nat.abs_cast]; omega)
    · by_contra hlt
      rw [not_le, Nat.lt_ceil] at hlt
      exact (lt_nearest_div hk hk64 hb hlt).not_ge (Nat.le_ceil _)
  -- a divisor above `b` may be rounded, but not to below `b`
  · have hkb : (b : ℚ) ≤ k := by exact_mod_cast (not_le.mp hle).le
    have hbk : (b : ℚ) ≤ nearest k := le_nearest hbrep hkb
    have hk64' : nearest (k : ℚ) ≤ 2 ^ (64 : ℤ) :=
      nearest_le (representable_two_zpow (by norm_num)) (by exact_mod_cast hk64)
    have hpos : (0 : ℚ) < nearest k := by linarith
    have hlow : (2 : ℚ) ^ (-64 : ℤ) ≤ b / nearest k := by
      rw [zpow_neg, ← one_div]
      exact div_le_div₀ (by linarith) hb' hpos hk64'
    have hone : nearest (b / nearest k) ≤ 1 := by
      refine nearest_le ?_ ((div_le_one hpos).mpr hbk)
      exact_mod_cast representable_intCast (n := 1) (by norm_num)
    have hzero : 0 < nearest (b / nearest k) :=
      (two_zpow_pos _).trans_le (le_nearest (representable_two_zpow (by norm_num)) hlow)
    have hleft : ⌈nearest (b / nearest k)⌉₊ = 1 := by
      rw [Nat.ceil_eq_iff one_ne_zero]
      exact ⟨by simpa using hzero, by simpa using hone⟩
    have hright : ⌈(b / k : ℚ)⌉₊ = 1 := by
      rw [Nat.ceil_eq_iff one_ne_zero]
      have hquot : (0 : ℚ) < b / k := by positivity
      exact ⟨by simpa using hquot, by simpa using (div_le_one hk').mpr hkb⟩
    rw [hleft, hright]

/-- A grid has at least one step, and less than `2 ^ 64` of them. -/
theorem stepCount_bounds {phrase : Phrase} (hbeats : phrase.beats ≠ 0)
    (hsubbeats : phrase.subbeats ≠ 0) (hsettings : phrase.Within32Bits) :
    0 < phrase.stepCount ∧ phrase.stepCount < 2 ^ 64 := by
  constructor
  · exact Nat.mul_pos (Nat.pos_of_ne_zero hbeats) (Nat.pos_of_ne_zero hsubbeats)
  · exact (Nat.mul_lt_mul'' hsettings.beats_lt hsettings.subbeats_lt).trans_eq (by norm_num)

/-- The length of a step is the exact quotient rounded up, also where the number of steps has more
than 53 bits. -/
theorem stepSize_eq {phrase : Phrase} (hbeats : phrase.beats ≠ 0) (hsubbeats : phrase.subbeats ≠ 0)
    (hsettings : phrase.Within32Bits) (hframes : phrase.frameCount < 2 ^ 52) :
    phrase.stepSize = ⌈(phrase.frameCount / phrase.stepCount : ℚ)⌉₊ := by
  obtain ⟨hpos, hlt⟩ := stepCount_bounds hbeats hsubbeats hsettings
  obtain ⟨hffinite, hfvalue⟩ : (asFloat phrase.frameCount).isFinite = true ∧
      value (asFloat phrase.frameCount) = phrase.frameCount := count_spec (by omega)
  obtain ⟨hcfinite, hcvalue⟩ : (asFloat phrase.stepCount).isFinite = true ∧
      value (asFloat phrase.stepCount) = nearest phrase.stepCount := wideCount_spec hlt
  have hrep1 : Representable 1 := by exact_mod_cast representable_intCast (n := 1) (by norm_num)
  have hc1 : (1 : ℚ) ≤ nearest phrase.stepCount := le_nearest hrep1 (by exact_mod_cast hpos)
  have hc64 : nearest (phrase.stepCount : ℚ) ≤ 2 ^ (64 : ℤ) :=
    nearest_le (representable_two_zpow (by norm_num)) (by exact_mod_cast hlt.le)
  have hquotient := rounds_div_of_one_le hffinite hcfinite
    (fun hne => by
      rw [hfvalue] at hne ⊢
      rw [Nat.abs_cast]
      exact_mod_cast Nat.one_le_iff_ne_zero.mpr (by exact_mod_cast hne))
    (by rw [hcvalue]; linarith) (by rwa [hcvalue, abs_of_pos (by linarith)])
  rw [hfvalue, hcvalue] at hquotient
  have hle := div_le_self (Nat.cast_nonneg (α := ℚ) phrase.frameCount) hc1
  have hnonneg : 0 ≤ (phrase.frameCount : ℚ) / nearest phrase.stepCount :=
    div_nonneg (Nat.cast_nonneg _) (by linarith)
  have hsmall : (phrase.frameCount : ℚ) ≤ 2 ^ 53 := by
    have h53 : phrase.frameCount ≤ 2 ^ 53 := by omega
    exact_mod_cast h53
  obtain ⟨hfinite, hlo, hhi⟩ := hquotient.between_int 0 phrase.frameCount (by norm_num)
    (by rw [Nat.abs_cast]; omega) (by exact_mod_cast hnonneg) (by exact_mod_cast hle)
  have hvalue := (hquotient.of_abs_le (by
    rw [abs_of_nonneg hnonneg]
    exact (hle.trans hsmall).trans (by norm_num))).2
  have hceil : phrase.stepSize = ⌈value (asFloat phrase.frameCount / asFloat phrase.stepCount)⌉₊ :=
    ceilCount_eq hfinite (by exact_mod_cast hlo) (le_trans (by exact_mod_cast hhi) hsmall)
  rw [hceil, hvalue]
  exact ceil_nearest_div hpos hlt.le hframes

/-- A step is no longer than its measure. -/
theorem stepSize_le {phrase : Phrase} (hbeats : phrase.beats ≠ 0) (hsubbeats : phrase.subbeats ≠ 0)
    (hsettings : phrase.Within32Bits) (hframes : phrase.frameCount < 2 ^ 52) :
    phrase.stepSize ≤ phrase.frameCount := by
  obtain ⟨hpos, -⟩ := stepCount_bounds hbeats hsubbeats hsettings
  rw [stepSize_eq hbeats hsubbeats hsettings hframes, Nat.ceil_le]
  exact div_le_self (Nat.cast_nonneg _) (by exact_mod_cast hpos)

end Phrase

end Chiptune
