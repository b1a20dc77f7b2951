import Mathlib.Order.Monotone.Basic
import Shading.Proofs.Binary32.Exact

/-!
# Rounding to nearest

A pattern is *nearest* to a number when no other pattern up to infinity stands for a
nearer one, and on a tie it is the even pattern (`Format.Rounds`).  Infinity takes part
with the number that comes behind the greatest finite one.  There is one nearest pattern
(`Rounds.unique`).

A number is rounded to a pattern when it lies between the middles to the two neighbours
of the pattern (`Format.Brackets`).  The distance to the next pattern is the scale of the
pattern (`value_succ`), so nothing else is needed about the numbers on either side.
`Format.nearest` puts its quotient between the middles (`exists_brackets_nearest`), and
with it every decimal (`rounds_ofDecimal_single`).
-/

namespace Shading

/-! ## Rounded quotients -/

/-- A natural is at most half away from a number, and it is even where it is half away. -/
structure IsRounded (y : ℚ) (n : Nat) : Prop where
  above : 2 * y ≤ 2 * n + 1
  above_even : 2 * y = 2 * n + 1 → n % 2 = 0
  below : 2 * n ≤ 2 * y + 1
  below_even : 2 * n = 2 * y + 1 → n % 2 = 0

theorem isRounded_roundHalfEven (num : Nat) {den : Nat} (hd : 0 < den) :
    IsRounded (num / den) (roundHalfEven num den) := by
  have hdq : (0 : ℚ) < den := by exact_mod_cast hd
  have hbounds : (2 * num ≤ (2 * roundHalfEven num den + 1) * den ∧
      2 * roundHalfEven num den * den ≤ 2 * num + den) ∧
      ((2 * num = (2 * roundHalfEven num den + 1) * den ∨
        2 * roundHalfEven num den * den = 2 * num + den) → roundHalfEven num den % 2 = 0) := by
    have hsplit := Nat.div_add_mod' num den
    have hmod := Nat.mod_lt num hd
    have hparity := Nat.mod_two_eq_zero_or_one (num / den)
    simp only [roundHalfEven]
    split
    · grind
    · split <;> grind
  obtain ⟨⟨habove, hbelow⟩, heven⟩ := hbounds
  have hq : 2 * (num / den : ℚ) = 2 * num / den := by ring
  constructor
  · rw [hq, div_le_iff₀ hdq]
    exact_mod_cast habove
  · rw [hq, div_eq_iff hdq.ne']
    exact fun h => heven (.inl (by exact_mod_cast h))
  · rw [hq, ← sub_le_iff_le_add, le_div_iff₀ hdq]
    have hcast : (2 * roundHalfEven num den * den : ℚ) ≤ 2 * num + den := by exact_mod_cast hbelow
    linarith
  · rw [hq, ← sub_eq_iff_eq_add, eq_div_iff hdq.ne']
    intro h
    have hcast : (2 * roundHalfEven num den * den : ℚ) = 2 * num + den := by linarith
    exact heven (.inr (by exact_mod_cast hcast))

/-- Rounding does not pass a natural. -/
theorem IsRounded.le {y : ℚ} {n m : Nat} (h : IsRounded y n) (hm : y < m) : n ≤ m := by
  have hbelow := h.below
  have hbound : (2 * n : ℚ) < 2 * m + 1 := by linarith
  have hnat : 2 * n < 2 * m + 1 := by exact_mod_cast hbound
  omega

theorem IsRounded.ge {y : ℚ} {n m : Nat} (h : IsRounded y n) (hm : m ≤ y) : m ≤ n := by
  have habove := h.above
  have hbound : (2 * m : ℚ) ≤ 2 * n + 1 := by linarith
  have hnat : 2 * m ≤ 2 * n + 1 := by exact_mod_cast hbound
  omega

namespace Format

variable {f : Format} {p q : Nat} {x : ℚ}

/-! ## The order of the patterns -/

/-- How far apart the numbers of a block are.  The patterns of a block have the exponent field
`block + 1`, and the first block has those with a zero exponent field, too. -/
def unit (f : Format) (block : Nat) : ℚ := 2 ^ ((block : ℤ) + 1 - f.bias - f.fractionBits)

theorem unit_pos (f : Format) (block : Nat) : 0 < f.unit block := by
  rw [unit]
  positivity

/-- The number of a pattern, from a multiple of the fraction field and the rest.  The rest
may carry into the exponent field. -/
theorem value_add {block offset : Nat} (hlow : block = 0 ∨ 2 ^ f.fractionBits ≤ offset)
    (hhigh : offset ≤ 2 ^ (f.fractionBits + 1)) :
    f.value (block * 2 ^ f.fractionBits + offset) = offset * f.unit block := by
  rw [unit]
  have hpos : 0 < 2 ^ f.fractionBits := Nat.two_pow_pos _
  rcases Nat.lt_or_ge offset (2 ^ f.fractionBits) with hlt | hge
  · obtain rfl : block = 0 := hlow.resolve_right hlt.not_ge
    have hexponent : f.exponentField offset = 0 := Nat.div_eq_of_lt hlt
    have hfraction : f.fractionField offset = offset := Nat.mod_eq_of_lt hlt
    simp [value, significand, scale, hexponent, hfraction]
  · obtain ⟨fraction, rfl⟩ := Nat.exists_eq_add_of_le hge
    rcases Nat.lt_or_ge fraction (2 ^ f.fractionBits) with hlt | hge
    · have hfields := value_fields (f := f) (Nat.succ_pos block) hlt
      rw [Nat.succ_mul, Nat.add_assoc] at hfields
      rw [hfields]
      push_cast
      ring
    · obtain rfl : fraction = 2 ^ f.fractionBits := by
        rw [Nat.pow_succ] at hhigh
        omega
      have hfields := value_fields (f := f) (Nat.succ_pos (block + 1)) hpos
      rw [Nat.add_zero, Nat.succ_mul, Nat.succ_mul, Nat.add_assoc] at hfields
      have hexp : ((block + 1 + 1 : Nat) : ℤ) - f.bias - f.fractionBits =
          (block : ℤ) + 1 - f.bias - f.fractionBits + 1 := by
        push_cast
        ring
      rw [hfields, hexp, zpow_add_one₀ two_ne_zero]
      push_cast
      ring

theorem le_significand (h : 1 < f.exponentField p) : 2 ^ f.fractionBits ≤ f.significand p := by
  rw [significand, if_neg (by omega), Nat.pow_eq]
  exact Nat.le_add_right _ _

/-- The next pattern stands for the next number on the grid of the pattern. -/
theorem value_succ (f : Format) (p : Nat) : f.value (p + 1) = f.value p + 2 ^ f.scale p := by
  obtain ⟨block, hblock⟩ : ∃ block, block = max (f.exponentField p) 1 - 1 := ⟨_, rfl⟩
  have hfields : block * 2 ^ f.fractionBits + (f.significand p + 1) = p + 1 := by
    rw [hblock, ← Nat.add_assoc, f.eq_fields p]
  have hlow : block = 0 ∨ 2 ^ f.fractionBits ≤ f.significand p + 1 := by
    rcases Nat.lt_or_ge 1 (f.exponentField p) with h | h
    · exact .inr ((le_significand h).trans (Nat.le_succ _))
    · exact .inl (by omega)
  have hscale : f.scale p = (block : ℤ) + 1 - f.bias - f.fractionBits := by
    rw [scale]
    omega
  have hvalue := value_add hlow (f.significand_lt p)
  rw [hfields, unit, ← hscale] at hvalue
  rw [hvalue, value]
  push_cast
  ring

theorem value_strictMono (f : Format) : StrictMono f.value :=
  strictMono_nat_of_lt_succ fun p => by
    rw [value_succ]
    exact lt_add_of_pos_right _ (by positivity)

@[simp] theorem value_zero (f : Format) : f.value 0 = 0 := by
  simp [value, significand, exponentField, fractionField]

theorem value_nonneg (f : Format) (p : Nat) : 0 ≤ f.value p := by
  rw [value]
  positivity

/-! ## The nearest pattern -/

/-- A number is rounded to a pattern: no pattern is nearer, and one that is as near is odd. -/
structure Rounds (f : Format) (x : ℚ) (p : Nat) : Prop where
  le_infinity : p ≤ f.infinity
  nearest : ∀ q ≤ f.infinity, |x - f.value p| ≤ |x - f.value q|
  even : ∀ q ≤ f.infinity, q ≠ p → |x - f.value q| = |x - f.value p| → p % 2 = 0

/-- A number that is as near to one as to a greater one lies in the middle. -/
theorem two_mul_eq_of_abs_eq {a b : ℚ} (hab : a < b) (h : |x - a| = |x - b|) : 2 * x = a + b := by
  rcases abs_eq_abs.1 h with h | h <;> linarith

/-- Two nearest patterns were both even, and the odd one between them was nearer. -/
theorem Rounds.le (hp : f.Rounds x p) (hq : f.Rounds x q) : q ≤ p := by
  by_contra hle
  have hlt : p < q := not_le.1 hle
  have hdist : |x - f.value p| = |x - f.value q| :=
    le_antisymm (hp.nearest q hq.le_infinity) (hq.nearest p hp.le_infinity)
  have hmid := two_mul_eq_of_abs_eq (f.value_strictMono hlt) hdist
  have hpeven := hp.even q hq.le_infinity hlt.ne' hdist.symm
  have hqeven := hq.even p hp.le_infinity hlt.ne hdist
  have hbetween : p + 1 < q := by omega
  have hlow := f.value_strictMono (Nat.lt_succ_self p)
  have hhigh := f.value_strictMono hbetween
  have hnearer : |x - f.value (p + 1)| < |x - f.value p| := by
    rw [abs_of_nonneg (a := x - f.value p) (by linarith), abs_lt]
    constructor <;> linarith
  exact hnearer.not_ge (hp.nearest _ (hbetween.le.trans hq.le_infinity))

theorem Rounds.unique (hp : f.Rounds x p) (hq : f.Rounds x q) : p = q :=
  le_antisymm (hq.le hp) (hp.le hq)

/-! ## The middles to the neighbours -/

/-- A number lies between the middles from a pattern to its two neighbours.  It is one of
the middles only if the pattern is even. -/
structure Brackets (f : Format) (x : ℚ) (p : Nat) : Prop where
  above : 2 * x ≤ f.value p + f.value (p + 1)
  above_even : 2 * x = f.value p + f.value (p + 1) → p % 2 = 0
  below : ∀ q, q + 1 = p → f.value q + f.value p ≤ 2 * x
  below_even : ∀ q, q + 1 = p → f.value q + f.value p = 2 * x → p % 2 = 0

namespace Brackets

/-- Behind the next pattern the numbers are farther away. -/
theorem of_lt (h : f.Brackets x p) (hlt : p < q) : |x - f.value p| ≤ |x - f.value q| ∧
    (|x - f.value q| = |x - f.value p| → p % 2 = 0) := by
  have hnext : f.value (p + 1) ≤ f.value q := f.value_strictMono.monotone hlt
  have hp := f.value_strictMono (Nat.lt_succ_self p)
  have habove := h.above
  constructor
  · refine le_trans ?_ (neg_le_abs (x - f.value q))
    rw [abs_le]
    constructor <;> linarith
  · intro hdist
    have hmid := two_mul_eq_of_abs_eq (hp.trans_le hnext) hdist.symm
    exact h.above_even (by linarith)

/-- Before the pattern before it the numbers are farther away. -/
theorem of_gt (h : f.Brackets x p) (hlt : q < p) : |x - f.value p| ≤ |x - f.value q| ∧
    (|x - f.value q| = |x - f.value p| → p % 2 = 0) := by
  obtain ⟨before, rfl⟩ := Nat.exists_eq_succ_of_ne_zero (Nat.ne_zero_of_lt hlt)
  have hnext : f.value q ≤ f.value before := f.value_strictMono.monotone (Nat.le_of_lt_succ hlt)
  have hp := f.value_strictMono (Nat.lt_succ_self before)
  have hbelow := h.below before rfl
  constructor
  · refine le_trans ?_ (le_abs_self (x - f.value q))
    rw [abs_le]
    constructor <;> linarith
  · intro hdist
    have hmid := two_mul_eq_of_abs_eq (hnext.trans_lt hp) hdist
    exact h.below_even before rfl (by linarith)

theorem rounds (h : f.Brackets x p) (hp : p ≤ f.infinity) : f.Rounds x p where
  le_infinity := hp
  nearest q _ := by
    rcases lt_trichotomy p q with hlt | rfl | hgt
    · exact (h.of_lt hlt).1
    · exact le_rfl
    · exact (h.of_gt hgt).1
  even q _ hne := by
    rcases hne.lt_or_gt with hlt | hgt
    · exact (h.of_gt hlt).2
    · exact (h.of_lt hgt).2

/-- What lies between two such numbers lies between the middles, too. -/
theorem convex {a b : ℚ} (ha : f.Brackets a p) (hb : f.Brackets b p) (hax : a ≤ x) (hxb : x ≤ b) :
    f.Brackets x p where
  above := le_trans (by linarith) hb.above
  above_even h := hb.above_even (le_antisymm hb.above (by linarith))
  below q hq := (ha.below q hq).trans (by linarith)
  below_even q hq h := ha.below_even q hq (le_antisymm (ha.below q hq) (by linarith))

end Brackets

/-- A number that a pattern stands for is not in the middle to another one. -/
theorem brackets_value (f : Format) (p : Nat) : f.Brackets (f.value p) p := by
  have hnext := f.value_strictMono (Nat.lt_succ_self p)
  have hprevious : ∀ q, q + 1 = p → f.value q < f.value p := fun q hq =>
    f.value_strictMono (Nat.lt_of_succ_le hq.le)
  constructor
  · linarith
  · exact fun h => absurd h (by linarith)
  · exact fun q hq => by linarith [hprevious q hq]
  · exact fun q hq h => absurd h (by linarith [hprevious q hq])

/-- Below infinity a number is rounded to a pattern only from between the middles. -/
theorem Rounds.brackets (h : f.Rounds x p) (hp : p < f.infinity) : f.Brackets x p := by
  have hnext := f.value_strictMono (Nat.lt_succ_self p)
  have habove : 2 * x ≤ f.value p + f.value (p + 1) := by
    have hnearest := h.nearest (p + 1) hp
    by_contra hlt
    rw [abs_of_nonneg (a := x - f.value p) (by linarith)] at hnearest
    rcases le_abs'.1 hnearest with h | h <;> linarith
  have hbelow : ∀ q, q + 1 = p → f.value q + f.value p ≤ 2 * x := by
    intro q hq
    have hprevious := f.value_strictMono (Nat.lt_of_succ_le hq.le)
    have hnearest := h.nearest q (by omega)
    by_contra hlt
    rw [abs_of_nonpos (a := x - f.value p) (by linarith)] at hnearest
    rcases le_abs'.1 hnearest with h | h <;> linarith
  refine ⟨habove, fun hmid => ?_, hbelow, fun q hq hmid => ?_⟩
  · refine h.even (p + 1) hp (Nat.succ_ne_self p) (abs_eq_abs.2 (.inr ?_))
    linarith
  · refine h.even q (by omega) (by omega) (abs_eq_abs.2 (.inr ?_))
    linarith

/-- What is not below infinity is rounded to it. -/
theorem rounds_infinity (hx : f.value f.infinity ≤ x) : f.Rounds x f.infinity where
  le_infinity := le_rfl
  nearest q hq := by
    have hle := f.value_strictMono.monotone hq
    rw [abs_of_nonneg (by linarith), abs_of_nonneg (by linarith)]
    linarith
  even q hq hne hdist := by
    have hlt := f.value_strictMono (lt_of_le_of_ne hq hne)
    rw [abs_of_nonneg (by linarith), abs_of_nonneg (by linarith)] at hdist
    linarith

/-- A pattern beyond infinity is cut down to infinity. -/
theorem Brackets.rounds_min (h : f.Brackets x p) : f.Rounds x (min p f.infinity) := by
  rcases le_or_gt p f.infinity with hle | hlt
  · rw [min_eq_left hle]
    exact h.rounds hle
  · rw [min_eq_right hlt.le]
    obtain ⟨before, rfl⟩ := Nat.exists_eq_succ_of_ne_zero (Nat.ne_zero_of_lt hlt)
    have hbelow := h.below before rfl
    have hbefore := f.value_strictMono.monotone (Nat.le_of_lt_succ hlt)
    have hlast := f.value_strictMono hlt
    exact rounds_infinity (by linarith)

/-- What is less than half of the least number is rounded to zero. -/
theorem rounds_zero (h : 2 * x < f.value 1) : f.Rounds x 0 :=
  Brackets.rounds {
    above := by simpa using h.le
    above_even := fun _ => rfl
    below := fun q hq => absurd hq (Nat.succ_ne_zero q)
    below_even := fun _ _ _ => rfl } (Nat.zero_le _)

/-! ## Rounding finds the nearest pattern -/

section Block

variable {block offset : Nat}

/-- The upper neighbour is one unit away, or the pattern is behind its block. -/
theorem value_add_succ (hlow : block = 0 ∨ 2 ^ f.fractionBits ≤ offset)
    (hhigh : offset ≤ 2 ^ (f.fractionBits + 1)) :
    f.value (block * 2 ^ f.fractionBits + offset + 1) = (offset + 1) * f.unit block ∨
      offset = 2 ^ (f.fractionBits + 1) := by
  refine hhigh.lt_or_eq.imp_left fun hlt => ?_
  have hsucc := value_add (f := f) (hlow.imp_right (·.trans (Nat.le_succ offset))) hlt
  exact_mod_cast hsucc

/-- The lower neighbour is one unit away, or the pattern is the first of a block behind the
first one. -/
theorem value_add_pred (hlow : block = 0 ∨ 2 ^ f.fractionBits ≤ offset)
    (hhigh : offset ≤ 2 ^ (f.fractionBits + 1)) (hq : q + 1 = block * 2 ^ f.fractionBits + offset) :
    f.value q = (offset - 1) * f.unit block ∨ block ≠ 0 ∧ offset = 2 ^ f.fractionBits := by
  by_cases hfirst : block = 0 ∨ 2 ^ f.fractionBits < offset
  · obtain ⟨before, rfl⟩ : ∃ before, offset = before + 1 := by
      refine Nat.exists_eq_succ_of_ne_zero fun hzero => ?_
      rcases hfirst with hblock | hlt
      · simp [hblock, hzero] at hq
      · exact absurd hlt (by simp [hzero])
    refine .inl ?_
    have hbefore := value_add (f := f) (hfirst.imp_right Nat.le_of_lt_succ)
      ((Nat.le_succ before).trans hhigh)
    obtain rfl : q = block * 2 ^ f.fractionBits + before := Nat.succ_inj.1 hq
    rw [hbefore]
    push_cast
    ring
  · obtain ⟨hblock, hle⟩ := not_or.1 hfirst
    exact .inr ⟨hblock, le_antisymm (not_lt.1 hle) (hlow.resolve_left hblock)⟩

/-- A coordinate on the grid of a block of patterns is rounded to a pattern.  From the
second block on, the lower neighbour of the first pattern is on a finer grid.  No coordinate
is rounded there, because none is below the block. -/
theorem brackets_add (hf : 0 < f.fractionBits) {y : ℚ}
    (hlow : block = 0 ∨ (2 ^ f.fractionBits : Nat) ≤ y)
    (hhigh : y < (2 ^ (f.fractionBits + 1) : Nat)) (h : IsRounded y offset) :
    f.Brackets (y * f.unit block) (block * 2 ^ f.fractionBits + offset) := by
  have hpos := f.unit_pos block
  have hoffset : block = 0 ∨ 2 ^ f.fractionBits ≤ offset := hlow.imp_right h.ge
  have hvalue := value_add hoffset (h.le hhigh)
  have hnext : f.value (block * 2 ^ f.fractionBits + offset + 1) = (offset + 1) * f.unit block ∨
      y < offset := by
    refine (value_add_succ hoffset (h.le hhigh)).imp_right fun hend => ?_
    rw [hend]
    exact hhigh
  have hprevious : ∀ q, q + 1 = block * 2 ^ f.fractionBits + offset →
      f.value q = (offset - 1) * f.unit block ∨ offset ≤ y := by
    intro q hq
    refine (value_add_pred hoffset (h.le hhigh) hq).imp_right fun hstart => ?_
    rw [hstart.2]
    exact hlow.resolve_left hstart.1
  have hparity : offset % 2 = 0 → (block * 2 ^ f.fractionBits + offset) % 2 = 0 := by
    obtain ⟨n, hn⟩ := Nat.exists_eq_succ_of_ne_zero hf.ne'
    rw [hn, Nat.pow_succ, ← Nat.mul_assoc]
    omega
  have hpast := f.value_strictMono (Nat.lt_succ_self (block * 2 ^ f.fractionBits + offset))
  have hbefore : ∀ q, q + 1 = block * 2 ^ f.fractionBits + offset →
      f.value q < f.value (block * 2 ^ f.fractionBits + offset) := fun q hq =>
    f.value_strictMono (Nat.lt_of_succ_le hq.le)
  constructor
  · rcases hnext with hnext | hlt
    · rw [hvalue, hnext]
      nlinarith [h.above]
    · nlinarith
  · intro hmid
    rcases hnext with hnext | hlt
    · rw [hvalue, hnext] at hmid
      refine hparity (h.above_even (mul_right_cancel₀ hpos.ne' ?_))
      linarith
    · nlinarith
  · intro q hq
    rcases hprevious q hq with hprevious | hle
    · rw [hvalue, hprevious]
      nlinarith [h.below]
    · nlinarith [hbefore q hq]
  · intro q hq hmid
    rcases hprevious q hq with hprevious | hle
    · rw [hvalue, hprevious] at hmid
      refine hparity (h.below_even (mul_right_cancel₀ hpos.ne' ?_))
      linarith
    · nlinarith [hbefore q hq]

end Block

/-- The pattern that rounding finds lies between the middles to its neighbours, before it is
cut down to infinity. -/
theorem exists_brackets_nearest (hf : 0 < f.fractionBits) {num den : Nat} (hn : 0 < num)
    (hd : 0 < den) : ∃ p, f.Brackets (num / den) p ∧ f.nearest num den = min p f.infinity := by
  have hdq : (0 : ℚ) < den := by exact_mod_cast hd
  obtain ⟨hfloorLow, hfloorHigh⟩ := floorLog2_bounds hn hd
  obtain ⟨e, he⟩ : ∃ e, e = max (floorLog2 num den) (1 - f.bias) := ⟨_, rfl⟩
  obtain ⟨block, hblock⟩ : ∃ block : Nat, (block : ℤ) = e + f.bias - 1 :=
    ⟨_, Int.toNat_of_nonneg (by omega)⟩
  obtain ⟨shift, hshift⟩ : ∃ shift : ℤ, shift = f.fractionBits - e := ⟨_, rfl⟩
  have hround := isRounded_roundHalfEven (num * 2 ^ shift.toNat)
    (show 0 < den * 2 ^ (-shift).toNat by positivity)
  have hcoordinate : ((num * 2 ^ shift.toNat : Nat) / (den * 2 ^ (-shift).toNat : Nat) : ℚ) =
      num / den * 2 ^ shift := by
    rw [two_zpow_eq]
    push_cast
    field_simp
  rw [hcoordinate] at hround
  have hscale : (num / den : ℚ) * 2 ^ shift * f.unit block = num / den := by
    rw [unit, mul_assoc, ← zpow_add₀ two_ne_zero, show shift + ((block : ℤ) + 1 - f.bias -
      f.fractionBits) = 0 by omega, zpow_zero, mul_one]
  have hlow : block = 0 ∨ ((2 ^ f.fractionBits : Nat) : ℚ) ≤ num / den * 2 ^ shift := by
    by_cases hfirst : block = 0
    · exact .inl hfirst
    · refine .inr ?_
      have hfloor : floorLog2 num den = e := by omega
      rw [hfloor] at hfloorLow
      calc ((2 ^ f.fractionBits : Nat) : ℚ) = 2 ^ e * 2 ^ shift := by
            rw [← zpow_add₀ two_ne_zero, hshift, add_sub_cancel, zpow_natCast]
            push_cast
            rfl
        _ ≤ num / den * 2 ^ shift := by gcongr
  have hhigh : (num / den : ℚ) * 2 ^ shift < (2 ^ (f.fractionBits + 1) : Nat) := by
    calc (num / den : ℚ) * 2 ^ shift < 2 ^ (floorLog2 num den + 1) * 2 ^ shift := by gcongr
      _ ≤ 2 ^ (e + 1) * 2 ^ shift := by
          gcongr
          · exact one_le_two
          · omega
      _ = (2 ^ (f.fractionBits + 1) : Nat) := by
          rw [← zpow_add₀ two_ne_zero, show e + 1 + shift = (f.fractionBits + 1 : Nat) by omega,
            zpow_natCast]
          push_cast
          rfl
  have hbrackets := brackets_add hf hlow hhigh hround
  rw [hscale] at hbrackets
  refine ⟨_, hbrackets, ?_⟩
  rw [nearest, if_neg hn.ne']
  simp only [← he, ← hshift, Nat.pow_eq, ← hblock, Int.toNat_natCast]

/-- A quotient is rounded to the nearest pattern. -/
theorem rounds_nearest (hf : 0 < f.fractionBits) (num : Nat) {den : Nat} (hd : 0 < den) :
    f.Rounds (num / den) (f.nearest num den) := by
  rcases Nat.eq_zero_or_pos num with rfl | hn
  · rw [nearest_zero]
    refine rounds_zero ?_
    rw [Nat.cast_zero, zero_div, mul_zero, ← f.value_zero]
    exact f.value_strictMono Nat.zero_lt_one
  · obtain ⟨p, hp, hnearest⟩ := exists_brackets_nearest hf hn hd
    rw [hnearest]
    exact hp.rounds_min

theorem value_single_one : single.value 1 = 2 ^ (-149 : ℤ) := by
  have hsignificand : single.significand 1 = 1 := by decide
  have hscale : single.scale 1 = -149 := by decide
  rw [value, hsignificand, hscale, Nat.cast_one, one_mul]

theorem value_single_infinity : single.value single.infinity = 2 ^ (128 : ℤ) := by
  have hsignificand : single.significand single.infinity = 2 ^ 23 := by decide
  have hscale : single.scale single.infinity = 105 := by decide
  rw [value, hsignificand, hscale]
  norm_num

/-- A decimal is rounded to the nearest pattern.  Decimals that are not multiplied out are
too great or too small for a finite number other than zero. -/
theorem rounds_ofDecimal_single (mantissa : Nat) (exponent : ℤ) :
    single.Rounds (mantissa * 10 ^ exponent) (single.ofDecimal mantissa exponent) := by
  rw [ofDecimal]
  split
  · next hsmall =>
    refine rounds_zero ?_
    rw [value_single_one]
    rcases hsmall with rfl | hsmall
    · rw [Nat.cast_zero, zero_mul, mul_zero]
      positivity
    · have hmantissa : (mantissa : ℚ) < 10 ^ ((mantissa.log2 + 1 : Nat) : ℤ) := by
        rw [zpow_natCast]
        exact_mod_cast Nat.lt_log2_self.trans_le (Nat.pow_le_pow_left (by decide) _)
      calc (2 * (mantissa * 10 ^ exponent) : ℚ)
          < 2 * (10 ^ ((mantissa.log2 + 1 : Nat) : ℤ) * 10 ^ exponent) := by gcongr
        _ = 2 * 10 ^ ((mantissa.log2 + 1 : Nat) + exponent) := by rw [zpow_add₀ (by norm_num)]
        _ ≤ 2 * 10 ^ (-100 : ℤ) := by
          gcongr
          · norm_num
          · omega
        _ < 2 ^ (-149 : ℤ) := by norm_num
  · next hsmall =>
    split
    · next hgreat =>
      refine rounds_infinity ?_
      have hmantissa : (1 : ℚ) ≤ mantissa := by
        exact_mod_cast Nat.one_le_iff_ne_zero.2 (not_or.1 hsmall).1
      rw [value_single_infinity]
      calc (2 : ℚ) ^ (128 : ℤ) ≤ 1 * 10 ^ (100 : ℤ) := by norm_num
        _ ≤ mantissa * 10 ^ exponent := by
          gcongr
          · norm_num
          · omega
    · rw [decimal_eq_div]
      exact rounds_nearest (by decide) _ (Nat.pow_pos (by decide))

end Format

end Shading
