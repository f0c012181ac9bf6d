import Chiptune.Proofs.Binary64.Arithmetic

/-!
# Numbers read off their bits

Bits hold a sign, an exponent field and a mantissa field. An exponent field of all ones is kept for
infinities and what is no number; all other bits stand for a finite number, and its value is read
here off the bits as a count.

* `exponentField` and `significand`, the parts of such a count;
* `isFinite_unpack_iff` and `rational_unpack`, the numbers that bits stand for;
* `signBit_of_neg` and `signBit_of_pos`, the sign of a binary64 number.
-/

namespace Chiptune.Binary64

open Float.Model Float.Model.UnpackedFloat

/-- The exponent field of bits. -/
def exponentField (spec : Format) (n : ℕ) : ℕ :=
  n / 2 ^ spec.mantissaBitsWithoutImplicit % 2 ^ spec.exponentBits

/-- The mantissa of bits, with the leading one that is not stored. -/
def significand (spec : Format) (n : ℕ) : ℕ :=
  if exponentField spec n = 0 then n % 2 ^ spec.mantissaBitsWithoutImplicit
  else 2 ^ spec.mantissaBitsWithoutImplicit + n % 2 ^ spec.mantissaBitsWithoutImplicit

/-- The number that bits stand for, unless their exponent field is all ones. -/
def fieldValue (spec : Format) (n : ℕ) : ℚ :=
  (-1) ^ (n / 2 ^ (spec.mantissaBitsWithoutImplicit + spec.exponentBits)) *
    (significand spec n * 2 ^ (((exponentField spec n - 1 : ℕ) : ℤ) + spec.minExponent))

theorem significand_lt (spec : Format) (n : ℕ) :
    significand spec n < 2 ^ (spec.mantissaBitsWithoutImplicit + 1) := by
  have hmod := Nat.mod_lt n (Nat.two_pow_pos spec.mantissaBitsWithoutImplicit)
  rw [significand, pow_succ]
  split_ifs <;> omega

/-- Above the least exponent there is a leading one. -/
theorem le_significand (spec : Format) (n : ℕ) : exponentField spec n - 1 = 0 ∨
    2 ^ spec.mantissaBitsWithoutImplicit ≤ significand spec n := by
  unfold significand
  split_ifs <;> omega

theorem minExponent_eq (spec : Format) :
    spec.minExponent = 1 - (spec.exponentBias + spec.mantissaBitsWithoutImplicit) := by
  have hpos : 0 < 2 ^ (spec.exponentBits - 1) := Nat.two_pow_pos _
  simp only [Format.minExponent, Format.exponentBias, Format.mantissaBits]
  push_cast [Nat.cast_sub hpos]
  ring

variable {spec : Format} (b : BitVec spec.numBits)

theorem toNat_unpackMantissa :
    (unpackMantissa b).toNat = b.toNat % 2 ^ spec.mantissaBitsWithoutImplicit := by
  have := spec.hm
  simp [unpackMantissa, show spec.mantissaBitsWithoutImplicit - 1 + 1
    = spec.mantissaBitsWithoutImplicit by omega]

theorem toNat_unpackExponent : (unpackExponent b).toNat = exponentField spec b.toNat := by
  have := spec.he
  simp only [unpackExponent, BitVec.toNat_cast, BitVec.extractLsb_toNat, exponentField,
    Nat.shiftRight_eq_div_pow]
  congr 2
  omega

theorem toNat_unpackSign : (unpackSign b).toNat
    = b.toNat / 2 ^ (spec.mantissaBitsWithoutImplicit + spec.exponentBits) := by
  have hlt : b.toNat < 2 ^ (spec.mantissaBitsWithoutImplicit + spec.exponentBits) * 2 := by
    rw [← pow_succ]
    exact b.isLt.trans_eq (by congr 1; simp only [Format.numBits]; omega)
  simp only [unpackSign, BitVec.toNat_cast, BitVec.extractLsb_toNat, Nat.shiftRight_eq_div_pow,
    Nat.sub_self, zero_add, pow_one]
  exact Nat.mod_eq_of_lt (Nat.div_lt_of_lt_mul hlt)

theorem apply_ofBitVec (s : BitVec 1) (n : ℤ) :
    (Sign.ofBitVec s).apply n = (-1) ^ s.toNat * n := by
  rcases BitVec.eq_zero_or_eq_one s with rfl | rfl <;> simp [Sign.ofBitVec, Sign.apply]

theorem exponent_ones_iff :
    unpackExponent b = -1#(spec.exponentBits) ↔
      exponentField spec b.toNat = 2 ^ spec.exponentBits - 1 := by
  rw [BitVec.neg_one_eq_allOnes, ← BitVec.toNat_inj, toNat_unpackExponent, BitVec.toNat_allOnes]

/-- Bits stand for a finite number unless their exponent field is all ones. -/
theorem isFinite_unpack_iff : (unpack spec b).isFinite = true ↔
    exponentField spec b.toNat ≠ 2 ^ spec.exponentBits - 1 := by
  rw [Ne, ← exponent_ones_iff]
  unfold UnpackedFloat.unpack
  simp only
  split_ifs <;> simp_all [UnpackedFloat.isFinite]

/-- The number that bits stand for. -/
theorem rational_unpack (hb : (unpack spec b).isFinite = true) :
    rational (unpack spec b) = fieldValue spec b.toNat := by
  have hones : ¬unpackExponent b = -1#(spec.exponentBits) := by
    rw [exponent_ones_iff]
    exact (isFinite_unpack_iff b).mp hb
  have hsign : ∀ n : ℤ, (((Sign.ofBitVec (unpackSign b)).apply n : ℤ) : ℚ) =
      (-1) ^ (b.toNat / 2 ^ (spec.mantissaBitsWithoutImplicit + spec.exponentBits)) * n := by
    intro n
    rw [apply_ofBitVec, toNat_unpackSign]
    push_cast
    rfl
  have hzero : unpackExponent b = 0#(spec.exponentBits) ↔ exponentField spec b.toNat = 0 := by
    rw [← BitVec.toNat_inj, toNat_unpackExponent, BitVec.toNat_ofNat, Nat.zero_mod]
  rw [UnpackedFloat.unpack, if_neg hones, fieldValue, significand, minExponent_eq]
  by_cases he : exponentField spec b.toNat = 0
  · rw [if_pos (hzero.mpr he), if_pos he, he]
    split_ifs with hm
    · have hm' : b.toNat % 2 ^ spec.mantissaBitsWithoutImplicit = 0 := by
        rw [← toNat_unpackMantissa, hm, BitVec.toNat_ofNat, Nat.zero_mod]
      rw [hm', Nat.cast_zero, zero_mul, mul_zero]
      rfl
    · simp only [rational]
      rw [hsign, toNat_unpackMantissa, toNat_unpackExponent, he, mul_assoc]
      push_cast
      congr 3
      omega
  · have hmant : (1#1 ++ unpackMantissa b).toNat = 2 ^ spec.mantissaBitsWithoutImplicit
        + b.toNat % 2 ^ spec.mantissaBitsWithoutImplicit := by
      rw [toNat_append, toNat_unpackMantissa, BitVec.toNat_ofNat]
      omega
    rw [if_neg (hzero.not.mpr he), if_neg he]
    simp only [rational]
    rw [hsign, hmant, toNat_unpackExponent, mul_assoc]
    push_cast
    congr 3
    omega

/-! ## binary64 -/

theorem value_eq_fieldValue {x : Float} (hx : x.isFinite = true) :
    value x = (-1) ^ (x.toBits.toNat / 2 ^ 63) * (significand .binary64 x.toBits.toNat *
      2 ^ (((exponentField .binary64 x.toBits.toNat - 1 : ℕ) : ℤ) - 1074)) :=
  @rational_unpack .binary64 x.toBits.toBitVec hx

/-- The highest bit is set in negative numbers. -/
theorem signBit_of_neg {x : Float} (hx : x.isFinite = true) (h : value x < 0) :
    x.toBits.toNat / 2 ^ 63 = 1 := by
  have hbits : x.toBits.toNat < 2 ^ 64 := x.toBits.toNat_lt
  by_contra hne
  have hzero : x.toBits.toNat / 2 ^ 63 = 0 := by omega
  rw [value_eq_fieldValue hx, hzero, pow_zero, one_mul] at h
  exact h.not_ge (mul_nonneg (Nat.cast_nonneg _) (two_zpow_pos _).le)

/-- The highest bit is not set in positive numbers. -/
theorem signBit_of_pos {x : Float} (hx : x.isFinite = true) (h : 0 < value x) :
    x.toBits.toNat / 2 ^ 63 = 0 := by
  have hbits : x.toBits.toNat < 2 ^ 64 := x.toBits.toNat_lt
  by_contra hne
  have hone : x.toBits.toNat / 2 ^ 63 = 1 := by omega
  rw [value_eq_fieldValue hx, hone, pow_one, neg_one_mul, neg_pos] at h
  exact h.not_ge (mul_nonneg (Nat.cast_nonneg _) (two_zpow_pos _).le)

end Chiptune.Binary64
