import Chiptune.Proofs.Binary64.Fields
import Chiptune.Proofs.Binary64.Optimal
import Chiptune.Wave.Sample

/-!
# Rounding to binary32

A binary32 number has 24 significant bits, and its least place is `2 ^ (-149)`. A binary64 number is
rounded by rounding its mantissa to the last place that binary32 has for its size. A mantissa that
is rounded up to 25 bits carries into the exponent field, which is just what the next power of two
needs.

* `IsNearest`, what rounding to binary32 has to give;
* `fieldValue_of_carry`, the number behind an exponent field and a rounded mantissa added together;
* `singleBits_spec`, the bits of a number within `[-1, 1]`.
-/

namespace Chiptune.Binary32

open Binary64 Wave Float.Model Float.Model.UnpackedFloat

/-- The rational number that a binary32 number stands for; what is not finite counts as zero. -/
def value (s : Float32) : ℚ := rational s.toModel.unpack

/-- `s` is the finite number nearest to `q`; of two equally near ones the one with an even last
bit. -/
structure IsNearest (s : Float32) (q : ℚ) : Prop where
  finite : s.isFinite = true
  nearest : ∀ t : Float32, t.isFinite = true → |value s - q| ≤ |value t - q|
  even : ∀ t : Float32, t.isFinite = true → |value t - q| = |value s - q| → value t ≠ value s →
    s.toBits.toNat % 2 = 0

/-! ## Bits -/

theorem value_eq_fieldValue {s : Float32} (hs : s.isFinite = true) :
    value s = fieldValue .binary32 s.toBits.toNat :=
  @rational_unpack .binary32 s.toBits.toBitVec hs

/-- A finite number has at most 24 significant bits, at or above the least place. -/
theorem exists_value_eq {s : Float32} (hs : s.isFinite = true) :
    ∃ k e : ℤ, |k| < 2 ^ 24 ∧ -149 ≤ e ∧ value s = k * 2 ^ e := by
  have hlt : significand .binary32 s.toBits.toNat < 2 ^ 24 := significand_lt _ _
  have hmin : Format.binary32.minExponent = -149 := by decide
  refine ⟨(-1) ^ (s.toBits.toNat / 2 ^ 31) * significand .binary32 s.toBits.toNat,
    ((exponentField .binary32 s.toBits.toNat - 1 : ℕ) : ℤ) + -149, ?_, by omega, ?_⟩
  · rw [abs_mul, abs_pow, abs_neg, abs_one, one_pow, one_mul, Nat.abs_cast]
    exact_mod_cast hlt
  · rw [value_eq_fieldValue hs, fieldValue, hmin]
    push_cast
    rw [mul_assoc]

/-- Bits whose exponent field is not all ones are the bits of a finite number. -/
theorem ofBits_spec {b : UInt32} (hb : exponentField .binary32 b.toNat ≠ 255) :
    (Float32.ofBits b).toBits = b ∧ (Float32.ofBits b).isFinite = true ∧
      value (Float32.ofBits b) = fieldValue .binary32 b.toNat := by
  have hvalid : Format.binary32.Valid b.toBitVec :=
    ⟨fun hones => absurd ((@exponent_ones_iff .binary32 b.toBitVec).mp hones) hb⟩
  have hbits : (Float32.ofBits b).toBits = b := by
    have h := pack_unpack_of_valid hvalid
    show UInt32.ofBitVec (UnpackedFloat.pack Format.binary32
      (UnpackedFloat.unpack Format.binary32 b.toBitVec)) = b
    rw [h]
  have hfinite : (Float32.ofBits b).isFinite = true := by
    show (UnpackedFloat.unpack Format.binary32 (Float32.ofBits b).toBits.toBitVec).isFinite = true
    rw [hbits]
    exact (@isFinite_unpack_iff .binary32 b.toBitVec).mpr hb
  exact ⟨hbits, hfinite, by rw [value_eq_fieldValue hfinite, hbits]⟩

/-- A mantissa that is added to the exponent field, with its leading one, counts in units of that
field, also when it has carried. -/
theorem fieldValue_of_carry (s : ℕ) {e r : ℕ} (he : e ≤ 126) (hr : r ≤ 2 ^ 24)
    (hlead : e = 0 ∨ 2 ^ 23 ≤ r) :
    exponentField .binary32 (s * 2 ^ 31 + e * 2 ^ 23 + r) ≠ 255 ∧
      fieldValue .binary32 (s * 2 ^ 31 + e * 2 ^ 23 + r)
        = (-1) ^ s * (r * 2 ^ ((e : ℤ) - 149)) := by
  have hmin : Format.binary32.minExponent = -149 := by decide
  have hsign : (s * 2 ^ 31 + e * 2 ^ 23 + r) / 2 ^ (23 + 8) = s := by omega
  rw [fieldValue, hmin]
  simp only
  rw [hsign]
  rcases lt_or_ge r (2 ^ 23) with hsub | hnormal
  -- below the normal numbers the exponent field stays empty
  · obtain rfl : e = 0 := by omega
    have hfield : exponentField .binary32 (s * 2 ^ 31 + 0 * 2 ^ 23 + r) = 0 := by
      simp only [exponentField]
      omega
    have hmant : significand .binary32 (s * 2 ^ 31 + 0 * 2 ^ 23 + r) = r := by
      rw [significand, if_pos hfield]
      simp only
      omega
    rw [hfield, hmant]
    exact ⟨by norm_num, by norm_num⟩
  rcases hr.lt_or_eq with hlt | rfl
  · have hfield : exponentField .binary32 (s * 2 ^ 31 + e * 2 ^ 23 + r) = e + 1 := by
      simp only [exponentField]
      omega
    have hmant : significand .binary32 (s * 2 ^ 31 + e * 2 ^ 23 + r) = r := by
      rw [significand, hfield, if_neg (by omega)]
      simp only
      omega
    rw [hfield, hmant, Nat.add_sub_cancel, ← sub_eq_add_neg]
    exact ⟨by omega, rfl⟩
  -- the carry: twice as large a unit, half as large a mantissa
  · have hfield : exponentField .binary32 (s * 2 ^ 31 + e * 2 ^ 23 + 2 ^ 24) = e + 2 := by
      simp only [exponentField]
      omega
    have hmant : significand .binary32 (s * 2 ^ 31 + e * 2 ^ 23 + 2 ^ 24) = 2 ^ 23 := by
      rw [significand, hfield, if_neg (by omega)]
      simp only
      omega
    have hunit : (2 : ℚ) ^ (((e + 2 - 1 : ℕ) : ℤ) + -149) = 2 ^ ((e : ℤ) - 149) * 2 := by
      rw [← zpow_add_one₀ (by norm_num)]
      congr 1
      omega
    rw [hfield, hmant, hunit]
    refine ⟨by omega, ?_⟩
    push_cast
    ring

/-! ## Rounding -/

/-- Dividing with rounding rounds the quotient. -/
theorem roundDiv_eq (a : ℕ) {b : ℕ} (hb : 0 < b) :
    (roundDiv a b : ℤ) = roundEven ((a : ℚ) / b) := by
  have hb' : (0 : ℚ) < b := by exact_mod_cast hb
  have hfloor : ⌊(a : ℚ) / b⌋ = ((a / b : ℕ) : ℤ) := Rat.floor_natCast_div_natCast a b
  have hfract : Int.fract ((a : ℚ) / b) = ((a % b : ℕ) : ℚ) / b :=
    Int.fract_div_natCast_eq_div_natCast_mod
  have hlt : Int.fract ((a : ℚ) / b) < 1 / 2 ↔ 2 * (a % b) < b := by
    rw [hfract, div_lt_div_iff₀ hb' (by norm_num), one_mul, mul_comm]
    exact_mod_cast Iff.rfl
  have hgt : 1 / 2 < Int.fract ((a : ℚ) / b) ↔ b < 2 * (a % b) := by
    rw [hfract, div_lt_div_iff₀ (by norm_num) hb', one_mul, mul_comm _ (2 : ℚ)]
    exact_mod_cast Iff.rfl
  unfold roundEven roundDiv
  simp only [hfloor, hlt, hgt]
  split_ifs <;> push_cast <;> rfl

/-- The parts of a finite number. -/
theorem ofFloat?_eq_some {x : Float} (hx : x.isFinite = true) :
    Dyadic.ofFloat? x = some {
      negative := decide (1 <<< 63 ≤ x.toBits.toNat)
      mantissa := significand .binary64 x.toBits.toNat
      power := exponentField .binary64 x.toBits.toNat - 1 } := by
  have hfield : (x.toBits.toNat >>> 52) % (1 <<< 11) = exponentField .binary64 x.toBits.toNat := by
    rw [Nat.shiftRight_eq_div_pow]
    rfl
  have hfinite : exponentField .binary64 x.toBits.toNat ≠ 2047 :=
    (@isFinite_unpack_iff .binary64 x.toBits.toBitVec).mp hx
  unfold Dyadic.ofFloat?
  simp only [hfield]
  rw [if_neg hfinite]
  rfl

/-- A number is a multiple of any power of two, unless that is above its own last place. -/
theorem on_grid_or_lt {t : Float32} (ht : t.isFinite = true) (g : ℤ) :
    (∃ n : ℤ, value t = n * 2 ^ g) ∨ (-149 < g ∧ |value t| < (2 ^ 23 : ℤ) * 2 ^ g) := by
  obtain ⟨k, e, hk, he, hv⟩ := exists_value_eq ht
  rcases le_or_gt g e with hle | hgt
  · refine Or.inl ⟨k * 2 ^ (e - g).toNat, ?_⟩
    have hexp : (2 : ℚ) ^ (e - g).toNat * 2 ^ g = 2 ^ e := by
      rw [← zpow_natCast, ← zpow_add₀ (by norm_num)]
      congr 1
      omega
    rw [hv]
    push_cast
    rw [mul_assoc, hexp]
  · refine Or.inr ⟨by omega, ?_⟩
    have hk' : |(k : ℚ)| < 2 ^ 24 := by exact_mod_cast hk
    rw [hv, abs_mul, abs_of_pos (two_zpow_pos e)]
    calc |(k : ℚ)| * 2 ^ e < 2 ^ 24 * 2 ^ e := mul_lt_mul_of_pos_right hk' (two_zpow_pos e)
      _ = 2 ^ 23 * 2 ^ (e + 1) := by rw [zpow_add₀ (by norm_num)]; ring
      _ ≤ 2 ^ 23 * 2 ^ g := mul_le_mul_of_nonneg_left
          (zpow_le_zpow_right₀ (by norm_num) (by omega)) (by norm_num)
      _ = ((2 ^ 23 : ℤ) : ℚ) * 2 ^ g := by norm_num

/-- What rounding to the grid of `2 ^ g` gives, with either sign. -/
theorem isNearest_of_grid {s : Float32} (sign : ℕ) {q : ℚ} {g : ℤ} (hs : s.isFinite = true)
    (hv : value s = (-1) ^ sign * (roundEven (q / 2 ^ g) * 2 ^ g))
    (hbit : (s.toBits.toNat : ℤ) % 2 = roundEven (q / 2 ^ g) % 2)
    (hq : g = -149 ∨ ((2 ^ 23 : ℤ) : ℚ) * 2 ^ g ≤ q) : IsNearest s ((-1) ^ sign * q) := by
  have habs : |((-1) ^ sign : ℚ)| = 1 := by rw [abs_pow, abs_neg, abs_one, one_pow]
  have hself : ((-1) ^ sign * (-1) ^ sign : ℚ) = 1 := by rw [← abs_mul_abs_self, habs, one_mul]
  -- distances stay when both numbers change their signs
  have hdist : ∀ v : ℚ, |v - (-1) ^ sign * q| = |(-1) ^ sign * v - q| := by
    intro v
    calc |v - (-1) ^ sign * q| = |(-1) ^ sign * (v - (-1) ^ sign * q)| := by
          rw [abs_mul, habs, one_mul]
      _ = |(-1) ^ sign * v - q| := by rw [mul_sub, ← mul_assoc _ _ q, hself, one_mul]
  have hvalue : (-1) ^ sign * value s = roundEven (q / 2 ^ g) * 2 ^ g := by
    rw [hv, ← mul_assoc, hself, one_mul]
  have hcases : ∀ t : Float32, t.isFinite = true →
      (∃ n : ℤ, (-1) ^ sign * value t = n * 2 ^ g) ∨
        ((-1) ^ sign * value t < (2 ^ 23 : ℤ) * 2 ^ g ∧ ((2 ^ 23 : ℤ) : ℚ) * 2 ^ g ≤ q) := by
    intro t ht
    rcases on_grid_or_lt ht g with ⟨n, hn⟩ | ⟨hg, hlt⟩
    · exact Or.inl ⟨(-1) ^ sign * n, by rw [hn]; push_cast; rw [mul_assoc]⟩
    · refine Or.inr ⟨(le_abs_self _).trans_lt ?_, hq.resolve_left hg.ne'⟩
      rwa [abs_mul, habs, one_mul]
  refine ⟨hs, ?_, ?_⟩
  · intro t ht
    rw [hdist, hdist, hvalue]
    rcases hcases t ht with ⟨n, hn⟩ | ⟨hlt, hle⟩
    · rw [hn]
      exact abs_roundEven_mul_sub_le (two_zpow_pos g) q n
    · exact (abs_roundEven_mul_sub_lt (two_zpow_pos g) hlt hle).le
  · intro t ht htie hne
    rw [hdist, hdist, hvalue] at htie
    rcases hcases t ht with ⟨n, hn⟩ | ⟨hlt, hle⟩
    · have hne' : (n : ℚ) * 2 ^ g ≠ roundEven (q / 2 ^ g) * 2 ^ g := by
        rw [← hn, ← hvalue]
        exact fun heq => hne (mul_left_cancel₀ (by rw [← abs_pos, habs]; exact one_pos) heq)
      rw [hn] at htie
      have heven := roundEven_div_even_of_tie (two_zpow_pos g) htie hne'
      omega
    · exact absurd htie (abs_roundEven_mul_sub_lt (two_zpow_pos g) hlt hle).ne'

/-- The unit of the rounded mantissa is `2 ^ 29` units of the mantissa `m`, and more below the
smallest normal number. -/
theorem div_unit (m p : ℕ) : (m : ℚ) * 2 ^ ((p : ℤ) - 1074) / 2 ^ (((p - 896 : ℕ) : ℤ) - 149)
    = (m : ℚ) / (2 ^ max 29 (925 - p) : ℕ) := by
  have hexp : (p : ℤ) - 1074 - (((p - 896 : ℕ) : ℤ) - 149) = -((max 29 (925 - p) : ℕ) : ℤ) := by
    omega
  rw [mul_div_assoc, ← zpow_sub₀ (by norm_num), hexp, zpow_neg, zpow_natCast, Nat.cast_pow,
    Nat.cast_ofNat, div_eq_mul_inv]

/-- A mantissa of 53 bits is rounded to 24, or to `2 ^ 24` itself. -/
theorem roundDiv_le {m : ℕ} (hm : m < 2 ^ 53) {k : ℕ} (hk : 29 ≤ k) :
    roundDiv m (2 ^ k) ≤ 2 ^ 24 := by
  have hle : (m : ℚ) / (2 ^ k : ℕ) ≤ (2 ^ 24 : ℤ) := by
    have hpow : 2 ^ 29 ≤ 2 ^ k := Nat.pow_le_pow_right (by norm_num) hk
    have hm' : m ≤ 2 ^ 24 * 2 ^ k := by omega
    rw [div_le_iff₀ (by exact_mod_cast Nat.two_pow_pos k)]
    exact_mod_cast hm'
  have h := roundEven_le hle
  rw [← roundDiv_eq m (Nat.two_pow_pos k)] at h
  exact_mod_cast h

/-- The leading one stays. -/
theorem le_roundDiv {m : ℕ} (hm : 2 ^ 52 ≤ m) : 2 ^ 23 ≤ roundDiv m (2 ^ 29) := by
  have hle : ((2 ^ 23 : ℤ) : ℚ) ≤ (m : ℚ) / (2 ^ 29 : ℕ) := by
    have hm' : 2 ^ 23 * 2 ^ 29 ≤ m := by omega
    rw [le_div_iff₀ (by norm_num)]
    exact_mod_cast hm'
  have h := le_roundEven hle
  rw [← roundDiv_eq m (Nat.two_pow_pos 29)] at h
  exact_mod_cast h

/-- A mantissa of 53 bits has 24 in units `2 ^ 29` times as large. -/
theorem unit_le {m : ℕ} (hm : 2 ^ 52 ≤ m) {g e : ℤ} (hg : 23 + g = 52 + e) :
    ((2 ^ 23 : ℤ) : ℚ) * 2 ^ g ≤ m * 2 ^ e := by
  have hm' : (2 : ℚ) ^ (52 : ℤ) ≤ m := by exact_mod_cast hm
  calc ((2 ^ 23 : ℤ) : ℚ) * 2 ^ g = 2 ^ (23 + g) := by
        rw [zpow_add₀ (by norm_num)]
        norm_num
    _ = 2 ^ (52 : ℤ) * 2 ^ e := by rw [hg, zpow_add₀ (by norm_num)]
    _ ≤ m * 2 ^ e := mul_le_mul_of_nonneg_right hm' (two_zpow_pos e).le

/-- A number of at most 1 does not come near the largest exponents. -/
theorem power_le {m p : ℕ} (hlead : p = 0 ∨ 2 ^ 52 ≤ m)
    (hle : (m : ℚ) * 2 ^ ((p : ℤ) - 1074) ≤ 1) : p ≤ 1022 := by
  by_contra hgt
  have hm : (2 : ℚ) ^ (52 : ℤ) ≤ m := by exact_mod_cast hlead.resolve_left (by omega)
  have htwo : (2 : ℚ) ≤ m * 2 ^ ((p : ℤ) - 1074) := by
    calc (2 : ℚ) = 2 ^ (52 : ℤ) * 2 ^ (-51 : ℤ) := by norm_num
      _ ≤ m * 2 ^ ((p : ℤ) - 1074) := mul_le_mul hm
          (zpow_le_zpow_right₀ (by norm_num) (by omega)) (two_zpow_pos _).le (Nat.cast_nonneg m)
  linarith

/-- The sign, the exponent and the rounded mantissa of a number of at most 1 are put together. -/
theorem singleBits_eq {x : Float} (hx : x.isFinite = true)
    (hp : exponentField .binary64 x.toBits.toNat - 1 ≤ 1022) :
    singleBits x = x.toBits.toNat / 2 ^ 63 * 2 ^ 31 +
      (exponentField .binary64 x.toBits.toNat - 1 - 896) * 2 ^ 23 +
      roundDiv (significand .binary64 x.toBits.toNat)
        (2 ^ max 29 (925 - (exponentField .binary64 x.toBits.toNat - 1))) := by
  have hbits : x.toBits.toNat < 2 ^ 64 := x.toBits.toNat_lt
  have hr := roundDiv_le (significand_lt .binary64 x.toBits.toNat)
    (le_max_left 29 (925 - (exponentField .binary64 x.toBits.toNat - 1)))
  unfold singleBits
  rw [ofFloat?_eq_some hx]
  simp only [Nat.shiftLeft_eq, one_mul, decide_eq_true_eq]
  split_ifs <;> omega

/-- The bits of a number within `[-1, 1]` are those of the nearest binary32 number, and the sign
stays, also that of a zero. -/
theorem singleBits_spec {x : Float} (hx : x.isFinite = true) (hle : |Binary64.value x| ≤ 1) :
    singleBits x < 2 ^ 32 ∧
      IsNearest (Float32.ofBits (singleBits x).toUInt32) (Binary64.value x) ∧
      (Float32.ofBits (singleBits x).toUInt32).toBits.toNat / 2 ^ 31 = x.toBits.toNat / 2 ^ 63 := by
  have hsign : x.toBits.toNat / 2 ^ 63 ≤ 1 := by
    have hbits : x.toBits.toNat < 2 ^ 64 := x.toBits.toNat_lt
    omega
  have hvalue := Binary64.value_eq_fieldValue hx
  have hmant : significand .binary64 x.toBits.toNat < 2 ^ 53 := significand_lt _ _
  have hlead : exponentField .binary64 x.toBits.toNat - 1 = 0 ∨
      2 ^ 52 ≤ significand .binary64 x.toBits.toNat := le_significand _ _
  have hpow : exponentField .binary64 x.toBits.toNat - 1 ≤ 1022 := by
    rw [hvalue, abs_mul, abs_pow, abs_neg, abs_one, one_pow, one_mul,
      abs_of_nonneg (mul_nonneg (Nat.cast_nonneg _) (two_zpow_pos _).le)] at hle
    exact power_le hlead hle
  have hsingle := singleBits_eq hx hpow
  generalize significand .binary64 x.toBits.toNat = m at *
  generalize exponentField .binary64 x.toBits.toNat - 1 = p at *
  generalize x.toBits.toNat / 2 ^ 63 = sign at *
  have h24 := roundDiv_le hmant (le_max_left 29 (925 - p))
  have h23 : p - 896 = 0 ∨ 2 ^ 23 ≤ roundDiv m (2 ^ max 29 (925 - p)) := by
    rcases Nat.eq_zero_or_pos (p - 896) with h | h
    · exact Or.inl h
    · rw [max_eq_left (by omega)]
      exact Or.inr (le_roundDiv (hlead.resolve_left (by omega)))
  have hround := roundDiv_eq m (Nat.two_pow_pos (max 29 (925 - p)))
  rw [← div_unit] at hround
  generalize roundDiv m (2 ^ max 29 (925 - p)) = r at *
  have hlt : singleBits x < 2 ^ 32 := by omega
  have hnat : (singleBits x).toUInt32.toNat = singleBits x := Nat.mod_eq_of_lt hlt
  obtain ⟨hones, hfield⟩ := fieldValue_of_carry sign (by omega) h24 h23
  rw [← hsingle, ← hnat] at hones hfield
  obtain ⟨hback, hfinite, hv⟩ := ofBits_spec hones
  refine ⟨hlt, ?_, ?_⟩
  · rw [hvalue]
    refine isNearest_of_grid sign (g := ((p - 896 : ℕ) : ℤ) - 149) hfinite ?_ ?_ ?_
    · rw [hv, hfield, ← hround, Int.cast_natCast]
    · rw [hback, hnat, ← hround]
      omega
    · rcases Nat.eq_zero_or_pos (p - 896) with h | h
      · exact Or.inl (by omega)
      · exact Or.inr (unit_le (hlead.resolve_left (by omega)) (by omega))
  · rw [hback, hnat]
    omega

-- the mantissa of one tenth is rounded up
example : singleBits 0.1 = 0x3dcccccd := by decide +kernel

end Chiptune.Binary32
