import Mathlib.Algebra.Order.Field.Power
import Mathlib.Data.Rat.Cast.Order
import Mathlib.Tactic.FieldSimp
import Mathlib.Tactic.GCongr
import Mathlib.Tactic.Linarith
import Mathlib.Tactic.Positivity
import Mathlib.Tactic.Ring
import Shading.Handover.Type

/-!
# Exact numbers

A pattern stands for a rational number (`Format.value`), and a number that a pattern
stands for is rounded to this pattern (`Format.nearest_eq_of_value`).  Every number of
single precision is one of double precision (`Format.exists_double_value`), so nothing is
lost when such a number is rounded twice (`Binary32.ofNumber_exactNumber`).
-/

namespace Shading

/-! ## Exponents -/

theorem zpow_eq_div {base : ℚ} (hbase : base ≠ 0) (e : ℤ) :
    base ^ e = base ^ e.toNat / base ^ (-e).toNat := by
  rw [← zpow_natCast, ← zpow_natCast, ← zpow_sub₀ hbase]
  congr 1
  omega

theorem two_zpow_eq (e : ℤ) : (2 : ℚ) ^ e = 2 ^ e.toNat / 2 ^ (-e).toNat :=
  zpow_eq_div two_ne_zero e

/-- A decimal as a quotient of naturals. -/
theorem decimal_eq_div (mantissa : Nat) (e : ℤ) : (mantissa * 10 ^ e : ℚ) =
    (mantissa * 10 ^ e.toNat : Nat) / (10 ^ (-e).toNat : Nat) := by
  rw [zpow_eq_div (by norm_num)]
  push_cast
  rw [mul_div_assoc]

section FloorLog2

variable {num den : Nat}

theorem two_zpow_le_div_iff (hd : 0 < den) (e : ℤ) :
    den * 2 ^ e.toNat ≤ num * 2 ^ (-e).toNat ↔ (2 : ℚ) ^ e ≤ num / den := by
  have hdq : (0 : ℚ) < den := by exact_mod_cast hd
  rw [two_zpow_eq, div_le_div_iff₀ (by positivity) hdq, mul_comm den]
  exact_mod_cast Iff.rfl

/-- The lengths of two naturals determine the exponent of their quotient up to one. -/
theorem log2_sub_bounds (hn : 0 < num) (hd : 0 < den) :
    (2 : ℚ) ^ ((num.log2 : ℤ) - den.log2 - 1) < num / den ∧
      (num / den : ℚ) < 2 ^ ((num.log2 : ℤ) - den.log2 + 1) := by
  have hdq : (0 : ℚ) < den := by exact_mod_cast hd
  have hnlow : (2 : ℚ) ^ num.log2 ≤ num := by exact_mod_cast Nat.log2_self_le hn.ne'
  have hnhigh : (num : ℚ) < 2 ^ (num.log2 + 1) := by exact_mod_cast Nat.lt_log2_self (n := num)
  have hdlow : (2 : ℚ) ^ den.log2 ≤ den := by exact_mod_cast Nat.log2_self_le hd.ne'
  have hdhigh : (den : ℚ) < 2 ^ (den.log2 + 1) := by exact_mod_cast Nat.lt_log2_self (n := den)
  constructor
  · calc (2 : ℚ) ^ ((num.log2 : ℤ) - den.log2 - 1) = 2 ^ num.log2 / 2 ^ (den.log2 + 1) := by
          rw [← zpow_natCast, ← zpow_natCast, ← zpow_sub₀ two_ne_zero]
          congr 1
          omega
      _ ≤ num / 2 ^ (den.log2 + 1) := by gcongr
      _ < num / den := by gcongr
  · calc (num / den : ℚ) < 2 ^ (num.log2 + 1) / den := by gcongr
      _ ≤ 2 ^ (num.log2 + 1) / 2 ^ den.log2 := by gcongr
      _ = 2 ^ ((num.log2 : ℤ) - den.log2 + 1) := by
          rw [← zpow_natCast, ← zpow_natCast, ← zpow_sub₀ two_ne_zero]
          congr 1
          omega

theorem floorLog2_bounds (hn : 0 < num) (hd : 0 < den) :
    (2 : ℚ) ^ floorLog2 num den ≤ num / den ∧ (num / den : ℚ) < 2 ^ (floorLog2 num den + 1) := by
  obtain ⟨hlow, hhigh⟩ := log2_sub_bounds hn hd
  unfold floorLog2
  simp only
  split
  · next h => exact ⟨(two_zpow_le_div_iff hd _).1 h, hhigh⟩
  · next h =>
    refine ⟨hlow.le, ?_⟩
    rw [sub_add_cancel]
    exact not_le.1 (mt (two_zpow_le_div_iff hd _).2 h)

theorem floorLog2_lt {e : ℤ} (hn : 0 < num) (hd : 0 < den) (h : (num / den : ℚ) < 2 ^ e) :
    floorLog2 num den < e :=
  (zpow_lt_zpow_iff_right₀ one_lt_two).1 ((floorLog2_bounds hn hd).1.trans_lt h)

theorem floorLog2_eq {e : ℤ} (hn : 0 < num) (hd : 0 < den) (hlow : (2 : ℚ) ^ e ≤ num / den)
    (hhigh : (num / den : ℚ) < 2 ^ (e + 1)) : floorLog2 num den = e := by
  have hle := floorLog2_lt hn hd hhigh
  have hge : e < floorLog2 num den + 1 :=
    (zpow_lt_zpow_iff_right₀ one_lt_two).1 (hlow.trans_lt (floorLog2_bounds hn hd).2)
  omega

end FloorLog2

/-- Nothing is rounded in a quotient that is a natural. -/
theorem roundHalfEven_mul (q : Nat) {den : Nat} (hd : 0 < den) :
    roundHalfEven (q * den) den = q := by
  simp [roundHalfEven, Nat.mul_div_cancel q hd, hd]

/-! ## Patterns and numbers -/

namespace Format

variable {f : Format} {pattern num den : Nat}

/-- The number that a pattern stands for. -/
def value (f : Format) (pattern : Nat) : ℚ := f.significand pattern * 2 ^ f.scale pattern

theorem fractionField_lt (f : Format) (pattern : Nat) :
    f.fractionField pattern < 2 ^ f.fractionBits := Nat.mod_lt _ (Nat.two_pow_pos _)

theorem significand_lt (f : Format) (pattern : Nat) :
    f.significand pattern < 2 ^ (f.fractionBits + 1) := by
  have h := f.fractionField_lt pattern
  unfold significand
  simp only [Nat.pow_eq]
  split <;> omega

/-- A pattern is its two fields.  The significand carries the implicit bit, so the exponent
field counts from one. -/
theorem eq_fields (f : Format) (pattern : Nat) :
    (max (f.exponentField pattern) 1 - 1) * 2 ^ f.fractionBits + f.significand pattern =
      pattern := by
  have h : f.exponentField pattern * 2 ^ f.fractionBits + f.fractionField pattern = pattern :=
    Nat.div_add_mod' pattern (2 ^ f.fractionBits)
  unfold significand
  split
  · next hzero => simpa [hzero] using h
  · next hpos =>
    obtain ⟨e, he⟩ := Nat.exists_eq_succ_of_ne_zero hpos
    rw [he, Nat.succ_mul] at h
    rw [he, Nat.pow_eq, Nat.max_eq_left (by omega), Nat.succ_sub_one]
    omega

theorem two_pow_mul_two_zpow (f : Format) (pattern k : Nat) :
    (2 : ℚ) ^ k * 2 ^ f.scale pattern = 2 ^ (f.scale pattern + k) := by
  rw [← zpow_natCast, ← zpow_add₀ two_ne_zero, add_comm]

/-- The exponent that rounding finds for a number is that of its pattern. -/
theorem exponent_eq (hn : 0 < num) (hd : 0 < den) (hv : (num / den : ℚ) = f.value pattern) :
    max (floorLog2 num den) (1 - f.bias) = f.scale pattern + f.fractionBits := by
  have hscale : f.scale pattern =
      (max (f.exponentField pattern) 1 : Nat) - f.bias - f.fractionBits := rfl
  by_cases hzero : f.exponentField pattern = 0
  · -- Without the implicit bit the number is below the least exponent.
    have hlt : (f.significand pattern : ℚ) < 2 ^ f.fractionBits := by
      rw [significand, if_pos hzero]
      exact_mod_cast f.fractionField_lt pattern
    have hbound : (num / den : ℚ) < 2 ^ (f.scale pattern + f.fractionBits) := by
      rw [hv, ← two_pow_mul_two_zpow, value]
      gcongr
    have hfloor := floorLog2_lt hn hd hbound
    omega
  · have hge : (2 : ℚ) ^ f.fractionBits ≤ f.significand pattern := by
      rw [significand, if_neg hzero, Nat.pow_eq]
      push_cast
      linarith [Nat.cast_nonneg (α := ℚ) (f.fractionField pattern)]
    have hlt : (f.significand pattern : ℚ) < 2 ^ (f.fractionBits + 1) := by
      exact_mod_cast f.significand_lt pattern
    have hlow : (2 : ℚ) ^ (f.scale pattern + f.fractionBits) ≤ num / den := by
      rw [hv, ← two_pow_mul_two_zpow, value]
      gcongr
    have hhigh : (num / den : ℚ) < 2 ^ (f.scale pattern + f.fractionBits + 1) := by
      have hexp := f.two_pow_mul_two_zpow pattern (f.fractionBits + 1)
      rw [Nat.cast_succ, ← add_assoc] at hexp
      rw [hv, ← hexp, value]
      gcongr
    rw [floorLog2_eq hn hd hlow hhigh]
    omega

theorem eq_zero_of_value (h : f.value pattern = 0) : pattern = 0 := by
  have hs : f.significand pattern = 0 := by
    have hpos : (2 : ℚ) ^ f.scale pattern ≠ 0 := zpow_ne_zero _ two_ne_zero
    exact_mod_cast (mul_eq_zero.1 h).resolve_right hpos
  have hfield : f.exponentField pattern = 0 := by
    by_contra hne
    rw [significand, if_neg hne, Nat.pow_eq] at hs
    exact absurd (Nat.eq_zero_of_add_eq_zero_right hs) (Nat.two_pow_pos _).ne'
  have h := f.eq_fields pattern
  rw [hs, hfield] at h
  simpa using h.symm

/-- A number that a finite pattern stands for is rounded to the pattern. -/
theorem nearest_eq_of_value (hp : pattern < f.infinity) (hd : 0 < den)
    (hv : (num / den : ℚ) = f.value pattern) : f.nearest num den = pattern := by
  rcases Nat.eq_zero_or_pos num with rfl | hn
  · rw [nearest_zero]
    exact (eq_zero_of_value (hv.symm.trans (by simp))).symm
  · have hscaled : num * 2 ^ (-f.scale pattern).toNat =
        f.significand pattern * (den * 2 ^ (f.scale pattern).toNat) := by
      have hdq : (den : ℚ) ≠ 0 := by exact_mod_cast hd.ne'
      rw [value, two_zpow_eq] at hv
      field_simp at hv
      rw [Nat.mul_left_comm, ← Nat.mul_assoc]
      exact_mod_cast hv
    have hpos : 0 < den * 2 ^ (f.scale pattern).toNat := by positivity
    have hexponent : (f.scale pattern + f.fractionBits + f.bias - 1).toNat =
        max (f.exponentField pattern) 1 - 1 := by
      rw [scale]
      omega
    have hshift : (f.fractionBits : ℤ) - (f.scale pattern + f.fractionBits) = -f.scale pattern := by
      ring
    rw [nearest, if_neg hn.ne']
    simp only [exponent_eq hn hd hv, hshift, neg_neg, Nat.pow_eq, hscaled,
      roundHalfEven_mul _ hpos, hexponent, eq_fields, Nat.min_eq_left hp.le]

/-! ## Two precisions -/

/-- A decimal that a finite pattern stands for is rounded to the pattern. -/
theorem ofDecimal_eq_of_value {mantissa : Nat} {exponent : ℤ} (hp : pattern < f.infinity)
    (hlow : -400 ≤ exponent) (hhigh : exponent ≤ 400)
    (hv : (mantissa : ℚ) * 10 ^ exponent = f.value pattern) :
    f.ofDecimal mantissa exponent = pattern := by
  rcases Nat.eq_zero_or_pos mantissa with rfl | hpos
  · rw [ofDecimal, if_pos (.inl rfl)]
    exact (eq_zero_of_value (hv.symm.trans (by simp))).symm
  · have hsmall : ¬ (mantissa = 0 ∨ exponent + mantissa.log2 < -400) := by omega
    rw [ofDecimal, if_neg hsmall, if_neg (by omega)]
    exact nearest_eq_of_value hp (Nat.pow_pos (by decide)) (hv ▸ (decimal_eq_div _ _).symm)

/-- A pattern is converted to one that stands for the same number, if there is one. -/
theorem convert_eq_of_value {g : Format} {source : Nat} (hs : source < f.infinity)
    (hp : pattern < g.infinity) (hv : f.value source = g.value pattern) :
    f.convert g source = pattern := by
  rw [convert, if_neg hs.not_ge]
  refine nearest_eq_of_value hp (Nat.pow_pos (by decide)) ?_
  rw [← hv, value, two_zpow_eq]
  simp only [Nat.pow_eq]
  push_cast
  ring

/-- The number of a pattern with an implicit bit, by its fields. -/
theorem value_fields {exponent fraction : Nat} (he : 0 < exponent)
    (hf : fraction < 2 ^ f.fractionBits) :
    f.value (exponent * 2 ^ f.fractionBits + fraction) =
      ((2 ^ f.fractionBits + fraction : Nat) : ℚ) *
        2 ^ ((exponent : ℤ) - f.bias - f.fractionBits) := by
  have hpos : 0 < 2 ^ f.fractionBits := Nat.two_pow_pos _
  have hexponent : f.exponentField (exponent * 2 ^ f.fractionBits + fraction) = exponent := by
    rw [exponentField, Nat.pow_eq, Nat.mul_comm, Nat.mul_add_div hpos, Nat.div_eq_of_lt hf,
      Nat.add_zero]
  have hfraction : f.fractionField (exponent * 2 ^ f.fractionBits + fraction) = fraction := by
    rw [fractionField, Nat.pow_eq, Nat.mul_comm, Nat.mul_add_mod, Nat.mod_eq_of_lt hf]
  rw [value, significand, scale, hexponent, hfraction, if_neg he.ne', Nat.max_eq_left he,
    Nat.pow_eq]

theorem scale_single_bounds (hp : pattern < single.infinity) :
    -149 ≤ single.scale pattern ∧ single.scale pattern ≤ 104 := by
  have hinfinity : single.infinity = 255 * 2 ^ 23 := by decide
  have hfield : single.exponentField pattern = pattern / 2 ^ 23 := rfl
  have hscale : single.scale pattern =
      (max (single.exponentField pattern) 1 : Nat) - (127 : Nat) - (23 : Nat) := rfl
  omega

/-- The numbers of single precision are numbers of double precision.  The leading bit of the
significand is moved to the place of the implicit bit. -/
theorem exists_double_value (hp : pattern < single.infinity) :
    ∃ p < double.infinity, double.value p = single.value pattern := by
  have hlt : single.significand pattern < 2 ^ 24 := single.significand_lt pattern
  obtain ⟨s, hs⟩ : ∃ s, s = single.significand pattern := ⟨_, rfl⟩
  obtain ⟨q, hq⟩ : ∃ q, q = single.scale pattern := ⟨_, rfl⟩
  rw [value, ← hs, ← hq]
  rw [← hs] at hlt
  rcases Nat.eq_zero_or_pos s with rfl | hpos
  · exact ⟨0, by decide, by simp [value, significand, exponentField, fractionField]⟩
  · have hlog : s.log2 < 24 := (Nat.log2_lt hpos.ne').2 hlt
    have hlow : 2 ^ 52 ≤ s * 2 ^ (52 - s.log2) := by
      calc 2 ^ 52 = 2 ^ s.log2 * 2 ^ (52 - s.log2) := by rw [← Nat.pow_add]; congr 1; omega
        _ ≤ s * 2 ^ (52 - s.log2) := Nat.mul_le_mul_right _ (Nat.log2_self_le hpos.ne')
    have hhigh : s * 2 ^ (52 - s.log2) < 2 ^ 53 := by
      calc s * 2 ^ (52 - s.log2) < 2 ^ (s.log2 + 1) * 2 ^ (52 - s.log2) :=
            Nat.mul_lt_mul_of_pos_right Nat.lt_log2_self (Nat.two_pow_pos _)
        _ = 2 ^ 53 := by rw [← Nat.pow_add]; congr 1; omega
    have hbounds : -149 ≤ q ∧ q ≤ 104 := hq ▸ scale_single_bounds hp
    obtain ⟨e, he⟩ : ∃ e : Nat, (e : ℤ) = s.log2 + q + 1023 := ⟨_, Int.toNat_of_nonneg (by omega)⟩
    have hdouble : double.infinity = 2047 * 2 ^ 52 := by decide
    refine ⟨e * 2 ^ 52 + (s * 2 ^ (52 - s.log2) - 2 ^ 52), by omega, ?_⟩
    refine (value_fields (f := double) (by omega) (show _ < 2 ^ 52 by omega)).trans ?_
    have hbias : double.bias = 1023 := by decide
    have hbits : double.fractionBits = 52 := rfl
    rw [hbias, hbits, Nat.add_sub_cancel' hlow, Nat.cast_mul, Nat.cast_pow, Nat.cast_ofNat,
      mul_assoc, ← zpow_natCast, ← zpow_add₀ two_ne_zero]
    congr 2
    omega

end Format

/-! ## Writing numbers exactly -/

namespace Binary32

/-- The decimal that a finite number equals.  A fraction of two has as many decimal places
as binary ones. -/
def exactNumber (x : Binary32) : Json.Number :=
  let scale := Format.single.scale x.magnitude
  .decimal x.isNegative
    (Format.single.significand x.magnitude * 2 ^ scale.toNat * 5 ^ (-scale).toNat) (min scale 0)

/-- A finite number is read back from the decimal that it equals. -/
theorem ofNumber_exactNumber {x : Binary32} (h : x.isFinite = true) :
    ofNumber x.exactNumber = some x := by
  have hp := magnitude_lt_of_isFinite h
  obtain ⟨p, hdouble, hvalue⟩ := Format.exists_double_value hp
  obtain ⟨q, hq⟩ : ∃ q, q = Format.single.scale x.magnitude := ⟨_, rfl⟩
  have hbounds : -149 ≤ q ∧ q ≤ 104 := hq ▸ Format.scale_single_bounds hp
  have hdecimal : (Format.single.significand x.magnitude * 2 ^ q.toNat * 5 ^ (-q).toNat : Nat) *
      (10 : ℚ) ^ min q 0 = Format.double.value p := by
    have hten : (10 : ℚ) ^ min q 0 = 1 / (2 ^ (-q).toNat * 5 ^ (-q).toNat) := by
      rw [show min q 0 = -((-q).toNat : ℤ) by omega, zpow_neg, zpow_natCast, ← mul_pow, one_div]
      norm_num
    rw [hvalue, Format.value, ← hq, two_zpow_eq, hten]
    push_cast
    field_simp
  simp only [exactNumber, ofNumber, ofDecimal, ← hq]
  rw [Format.ofDecimal_eq_of_value hdouble (by omega) (by omega) hdecimal,
    Format.convert_eq_of_value hdouble hp hvalue, ofMagnitude_magnitude]

end Binary32

end Shading
