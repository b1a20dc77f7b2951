import Shading.Binary32.Text
import Shading.Proofs.Binary32.Rounding

/-!
# Shortest decimals read back

The search for a shortest decimal tries one decimal grid after the other.  In each grid it
tries the two points next to the number, and a point farther away is in the interval of the
number only if one of them is (`onGrid_spec`).  The interval is measured in quarters of the
scale of the number.  Its ends are the middles to the two neighbours, also at the powers of
two, where the lower neighbour is nearer (`within_iff_brackets`).

*Reading back.*  The point that is found lies between the middles, so it is rounded to the
number (`shortest_spec`).  There is one: on the last grid the number is a point itself.

*Shortness.*  No grid before has a point.  A decimal with fewer digits is on such a grid, or
it is less than the power of ten that the first digit of the point stands for.  This power
of ten lies between the two, and on a grid before (`length_shortest_le`).
-/

namespace Shading.Binary32

open Format

/-! ## The points of one grid -/

/-- How many quarters of its scale a number is above the lower end of its interval. -/
def quartersBelow (narrow : Bool) : Nat := if narrow then 1 else 2

/-- A point of a grid is between the ends of the interval of `m · 2 ^ q`, and at none of them
if `m` is odd. -/
def Within (m : Nat) (q : ℤ) (narrow : Bool) (g : ℤ) (point : Nat) : Prop :=
  (4 * m - quartersBelow narrow) * (gridRatio q g).1 + m % 2 ≤ point * (gridRatio q g).2 ∧
    point * (gridRatio q g).2 + m % 2 ≤ (4 * m + 2) * (gridRatio q g).1

theorem gridRatio_pos (q g : ℤ) : 0 < (gridRatio q g).1 ∧ 0 < (gridRatio q g).2 := by
  simp only [gridRatio, Nat.pow_eq]
  constructor <;> positivity

section OnGrid

variable {m point : Nat} {q g : ℤ} {narrow : Bool}

/-- The point at a number or below it is not above the interval. -/
theorem within_below_iff (narrow : Bool) {below : Nat}
    (hle : below * (gridRatio q g).2 ≤ 4 * m * (gridRatio q g).1) :
    Within m q narrow g below ↔
      (4 * m - quartersBelow narrow) * (gridRatio q g).1 + m % 2 ≤ below * (gridRatio q g).2 := by
  have hpos := (gridRatio_pos q g).1
  refine ⟨And.left, fun h => ⟨h, ?_⟩⟩
  have hmod := Nat.mod_lt m (show 0 < 2 by decide)
  rw [Nat.add_mul]
  omega

/-- The point above a number is not below the interval. -/
theorem within_above_iff (narrow : Bool) (hm : 0 < m) {above : Nat}
    (hlt : 4 * m * (gridRatio q g).1 < above * (gridRatio q g).2) :
    Within m q narrow g above ↔
      above * (gridRatio q g).2 + m % 2 ≤ (4 * m + 2) * (gridRatio q g).1 := by
  have hpos := (gridRatio_pos q g).1
  refine ⟨And.right, fun h => ⟨?_, h⟩⟩
  have hquarters : 4 * m - quartersBelow narrow + 1 ≤ 4 * m := by
    have hone : 1 ≤ quartersBelow narrow := by cases narrow <;> decide
    omega
  have hlow := Nat.mul_le_mul_right (gridRatio q g).1 hquarters
  have hmod := Nat.mod_lt m (show 0 < 2 by decide)
  rw [Nat.add_mul] at hlow
  omega

/-- In a grid only the two points next to a number are tried, because a point farther away
is in the interval only if the next one is. -/
theorem onGrid_spec (hm : 0 < m) :
    (∀ point, onGrid m q narrow g = some point → Within m q narrow g point) ∧
      (onGrid m q narrow g = none → ∀ point, ¬ Within m q narrow g point) := by
  obtain ⟨hn, hd⟩ := gridRatio_pos q g
  have hslack : (if m % 2 = 0 then 0 else 1) = m % 2 := by split <;> omega
  obtain ⟨below, hbelow⟩ : ∃ n, n = 4 * m * (gridRatio q g).1 / (gridRatio q g).2 := ⟨_, rfl⟩
  have hle : below * (gridRatio q g).2 ≤ 4 * m * (gridRatio q g).1 :=
    hbelow ▸ Nat.div_mul_le_self _ _
  have hlt : 4 * m * (gridRatio q g).1 < (below + 1) * (gridRatio q g).2 :=
    (Nat.div_lt_iff_lt_mul hd).1 (hbelow ▸ Nat.lt_succ_self below)
  have hbelowIn := within_below_iff narrow hle
  have haboveIn := within_above_iff narrow hm hlt
  rw [quartersBelow] at hbelowIn
  simp only [onGrid, ← hbelow, hslack, ← hbelowIn, ← haboveIn]
  have hfar : ∀ point, Within m q narrow g point →
      Within m q narrow g below ∨ Within m q narrow g (below + 1) := by
    intro point h
    rcases Nat.lt_or_ge below point with hpoint | hpoint
    · exact .inr (haboveIn.2 ((Nat.add_le_add_right (Nat.mul_le_mul_right _ hpoint) _).trans h.2))
    · exact .inl (hbelowIn.2 (h.1.trans (Nat.mul_le_mul_right _ hpoint)))
  grind

end OnGrid

/-! ## The interval of a number -/

section Interval

variable {p : Nat}

/-- Before a pattern the numbers are as far apart as behind it.  Only before a power of two
they are half as far apart. -/
theorem scale_of_succ_eq {before : Nat} (h : before + 1 = p) :
    (2 : ℚ) ^ single.scale before = quartersBelow (isNarrow p) * 2 ^ (single.scale p - 1) := by
  have hscale : ∀ n, single.scale n = (max (n / 2 ^ 23) 1 : Nat) - (127 : Nat) - (23 : Nat) :=
    fun _ => rfl
  have hnarrow : isNarrow p = true ↔ p % 2 ^ 23 = 0 ∧ 1 < p / 2 ^ 23 := by
    rw [isNarrow, Bool.and_eq_true, decide_eq_true_iff, decide_eq_true_iff]
    rfl
  rw [quartersBelow]
  split
  · next hbelow =>
    have hbounds := hnarrow.1 hbelow
    rw [Nat.cast_one, one_mul, show single.scale before = single.scale p - 1 by
      rw [hscale, hscale]
      omega]
  · next hbelow =>
    have hbounds := mt hnarrow.2 hbelow
    rw [show single.scale before = single.scale p by
      rw [hscale, hscale]
      omega, Nat.cast_ofNat, mul_comm, ← zpow_add_one₀ two_ne_zero, sub_add_cancel]

theorem significand_pos (hp : 0 < p) : 0 < single.significand p := by
  refine Nat.pos_of_ne_zero fun hzero => hp.ne' (eq_zero_of_value (f := single) ?_)
  rw [value, hzero, Nat.cast_zero, zero_mul]

theorem significand_parity (p : Nat) : p % 2 = single.significand p % 2 := by
  have hfields := single.eq_fields p
  rw [show single.fractionBits = 23 from rfl] at hfields
  omega

/-- Quarters of a scale and points of a grid, in a common unit. -/
theorem exists_unit (q g : ℤ) : ∃ unit : ℚ, 0 < unit ∧
    (2 : ℚ) ^ (q - 2) = (gridRatio q g).1 * unit ∧ (10 : ℚ) ^ g = (gridRatio q g).2 * unit := by
  have hd : (0 : ℚ) < (gridRatio q g).2 := by exact_mod_cast (gridRatio_pos q g).2
  refine ⟨10 ^ g / (gridRatio q g).2, by positivity, ?_, by field_simp⟩
  rw [two_zpow_eq, zpow_eq_div (show (10 : ℚ) ≠ 0 by norm_num), neg_sub]
  simp only [gridRatio, Nat.pow_eq]
  push_cast
  field_simp

theorem add_parity_le_iff {a b m : Nat} : a + m % 2 ≤ b ↔ a ≤ b ∧ (a = b → m % 2 = 0) := by
  omega

/-- The middles to the neighbours of a number are at quarters of its scale. -/
theorem value_add_neighbours {before : Nat} (h : before + 1 = p) :
    single.value before + single.value p =
        2 * ((4 * single.significand p - quartersBelow (isNarrow p) : Nat) *
          2 ^ (single.scale p - 2)) ∧
      single.value p + single.value (p + 1) =
        2 * ((4 * single.significand p + 2 : Nat) * 2 ^ (single.scale p - 2)) := by
  have hm := significand_pos ((Nat.succ_pos before).trans_eq h)
  have hquarters : quartersBelow (isNarrow p) ≤ 4 * single.significand p := by
    have htwo : quartersBelow (isNarrow p) ≤ 2 := by cases isNarrow p <;> decide
    omega
  have hvalue : single.value p = single.significand p * 2 ^ single.scale p := rfl
  have hprevious := single.value_succ before
  have hscale : (2 : ℚ) ^ single.scale p = 4 * 2 ^ (single.scale p - 2) := by
    rw [zpow_sub₀ two_ne_zero]
    norm_num
    ring
  have hhalf : (2 : ℚ) ^ (single.scale p - 1) = 2 * 2 ^ (single.scale p - 2) := by
    rw [zpow_sub₀ two_ne_zero, zpow_sub₀ two_ne_zero]
    norm_num
    ring
  rw [h, scale_of_succ_eq h, hhalf] at hprevious
  rw [single.value_succ p, Nat.cast_sub hquarters]
  rw [hvalue, hscale] at hprevious ⊢
  push_cast
  constructor <;> linarith

/-- The points of a grid in the interval of a number are those between the middles to the
neighbours of the number. -/
theorem within_iff_brackets (hp : 0 < p) (g : ℤ) (point : Nat) :
    Within (single.significand p) (single.scale p) (isNarrow p) g point ↔
      single.Brackets (point * 10 ^ g) p := by
  obtain ⟨before, hbefore⟩ : ∃ before, before + 1 = p := ⟨p - 1, Nat.sub_add_cancel hp⟩
  obtain ⟨unit, hunit, hquarter, hgrid⟩ := exists_unit (single.scale p) g
  obtain ⟨hlow, hhigh⟩ := value_add_neighbours hbefore
  have hpoint : (point * 10 ^ g : ℚ) = (point * (gridRatio (single.scale p) g).2 : Nat) * unit := by
    rw [hgrid]
    push_cast
    ring
  have hend : ∀ k : Nat, (k * 2 ^ (single.scale p - 2) : ℚ) =
      (k * (gridRatio (single.scale p) g).1 : Nat) * unit := by
    intro k
    rw [hquarter]
    push_cast
    ring
  have hle : ∀ a b : Nat, 2 * (a * unit) ≤ 2 * (b * unit) ↔ a ≤ b := by
    intro a b
    rw [mul_le_mul_iff_of_pos_left two_pos, mul_le_mul_iff_of_pos_right hunit, Nat.cast_le]
  have heq : ∀ a b : Nat, 2 * (a * unit) = 2 * (b * unit) ↔ a = b := by
    intro a b
    rw [mul_right_inj' two_ne_zero, mul_left_inj' hunit.ne', Nat.cast_inj]
  rw [hend] at hlow hhigh
  rw [Within, add_parity_le_iff, add_parity_le_iff, ← significand_parity, hpoint]
  constructor
  · rintro ⟨⟨hbelow, hbelowEven⟩, habove, haboveEven⟩
    refine ⟨?_, ?_, ?_, ?_⟩
    · rw [hhigh]
      exact (hle _ _).2 habove
    · rw [hhigh, heq]
      exact haboveEven
    · intro q hq
      rw [Nat.succ_inj.1 (hq.trans hbefore.symm), hlow]
      exact (hle _ _).2 hbelow
    · intro q hq
      rw [Nat.succ_inj.1 (hq.trans hbefore.symm), hlow, heq]
      exact hbelowEven
  · rintro ⟨habove, haboveEven, hbelow, hbelowEven⟩
    rw [hhigh] at habove haboveEven
    have hbelow := hbelow before hbefore
    have hbelowEven := hbelowEven before hbefore
    rw [hlow] at hbelow hbelowEven
    rw [heq] at haboveEven hbelowEven
    exact ⟨⟨(hle _ _).1 hbelow, hbelowEven⟩, (hle _ _).1 habove, haboveEven⟩

end Interval

/-! ## The search through the grids -/

section Search

variable {m point grids : Nat} {q g e : ℤ} {narrow : Bool}

/-- The search answers with a point of the first grid that has one. -/
theorem searchGrids_eq_some (h : searchGrids m q narrow grids g = some (point, e)) :
    onGrid m q narrow e = some point ∧ ∀ e', e < e' → e' ≤ g → onGrid m q narrow e' = none := by
  induction grids generalizing g with
  | zero => cases h
  | succ grids ih =>
    rw [searchGrids] at h
    cases hgrid : onGrid m q narrow g with
    | some digits =>
      rw [hgrid] at h
      obtain ⟨rfl, rfl⟩ := Prod.mk.inj (Option.some.inj h)
      exact ⟨hgrid, fun e' hlt hle => absurd hle (not_le.2 hlt)⟩
    | none =>
      rw [hgrid] at h
      obtain ⟨hpoint, hcoarser⟩ := ih h
      refine ⟨hpoint, fun e' hlt hle => ?_⟩
      rcases hle.lt_or_eq with hle | rfl
      · exact hcoarser e' hlt (Int.le_sub_one_of_lt hle)
      · exact hgrid

/-- The search has an answer if one of its grids has a point. -/
theorem exists_searchGrids (hm : 0 < m) (hpoint : Within m q narrow e point) (hle : e ≤ g)
    (hlt : g < e + grids) : ∃ answer, searchGrids m q narrow grids g = some answer := by
  induction grids generalizing g with
  | zero => omega
  | succ grids ih =>
    rw [searchGrids]
    cases hgrid : onGrid m q narrow g with
    | some digits => exact ⟨_, rfl⟩
    | none =>
      rcases hle.lt_or_eq with hle | rfl
      · exact ih (Int.le_sub_one_of_lt hle) (by omega)
      · exact absurd hpoint ((onGrid_spec hm).2 hgrid point)

end Search

/-! ## Shortest decimals -/

section Shortest

variable {p point : Nat} {g : ℤ}

/-- A decimal in the interval of a number other than zero is not zero. -/
theorem pos_of_brackets (hp : 0 < p) (h : single.Brackets (point * 10 ^ g) p) : 0 < point := by
  refine Nat.pos_of_ne_zero ?_
  rintro rfl
  obtain ⟨before, rfl⟩ := Nat.exists_eq_succ_of_ne_zero hp.ne'
  have hbelow := h.below before rfl
  have hbefore := single.value_nonneg before
  have hvalue := single.value_strictMono (Nat.succ_pos before)
  rw [value_zero] at hvalue
  rw [Nat.cast_zero, zero_mul, mul_zero] at hbelow
  linarith

/-- A decimal in the interval of a number is not beyond the first grid. -/
theorem le_of_brackets (hp : 0 < p) (hfinite : p < single.infinity)
    (h : single.Brackets (point * 10 ^ g) p) : g ≤ 39 := by
  have hpos := pos_of_brackets hp h
  by_contra hlt
  have habove := h.above
  have hvalue := single.value_strictMono hfinite
  have hnext := single.value_strictMono.monotone hfinite
  have hlarge : (10 : ℚ) ^ (40 : ℤ) ≤ point * 10 ^ g := by
    calc (10 : ℚ) ^ (40 : ℤ) = 1 * 10 ^ (40 : ℤ) := (one_mul _).symm
      _ ≤ point * 10 ^ g := by
        gcongr
        · exact_mod_cast hpos
        · norm_num
        · omega
  rw [Nat.succ_eq_add_one] at hnext
  rw [value_single_infinity] at hvalue hnext
  norm_num at hvalue hnext hlarge
  linarith

/-- On the last grid a number is a point itself. -/
theorem exists_point (hfinite : p < single.infinity) :
    ∃ point : Nat, single.value p = point * 10 ^ (-149 : ℤ) := by
  obtain ⟨hlow, -⟩ := scale_single_bounds hfinite
  obtain ⟨k, hk⟩ : ∃ k : Nat, single.scale p = k - 149 := ⟨(single.scale p + 149).toNat, by omega⟩
  refine ⟨single.significand p * (2 ^ k * 5 ^ 149), ?_⟩
  rw [value, hk, zpow_sub₀ two_ne_zero, zpow_natCast]
  push_cast
  norm_num
  ring

/-- The shortest decimal is in the interval of its number, and no decimal on a coarser grid
is. -/
theorem shortest_spec (hp : 0 < p) (hfinite : p < single.infinity) :
    single.Brackets ((shortest p).1 * 10 ^ (shortest p).2) p ∧
      ∀ (point : Nat) (g : ℤ), (shortest p).2 < g → ¬ single.Brackets (point * 10 ^ g) p := by
  have hm := significand_pos hp
  obtain ⟨exact, hexact⟩ := exists_point hfinite
  have hvalue := brackets_value single p
  rw [hexact] at hvalue
  obtain ⟨⟨digits, e⟩, hsearch⟩ : ∃ answer,
      searchGrids (single.significand p) (single.scale p) (isNarrow p) 189 39 = some answer :=
    exists_searchGrids hm ((within_iff_brackets hp _ _).2 hvalue) (by omega) (by omega)
  obtain ⟨hpoint, hcoarser⟩ := searchGrids_eq_some hsearch
  simp only [shortest, hsearch, Option.getD_some]
  refine ⟨(within_iff_brackets hp _ _).1 ((onGrid_spec hm).1 _ hpoint), fun point g hg h => ?_⟩
  exact (onGrid_spec hm).2 (hcoarser g hg (le_of_brackets hp hfinite h)) point
    ((within_iff_brackets hp _ _).2 h)

/-- No decimal with fewer digits than the shortest one is rounded to the number. -/
theorem length_shortest_le (hp : 0 < p) (hfinite : p < single.infinity)
    (h : single.Rounds (point * 10 ^ g) p) :
    (toString (shortest p).1).length ≤ (toString point).length := by
  obtain ⟨hshortest, hcoarser⟩ := shortest_spec hp hfinite
  have hbrackets := h.brackets hfinite
  have hgrid : g ≤ (shortest p).2 := not_lt.1 fun hlt => hcoarser point g hlt hbrackets
  rw [Nat.toString_eq_repr, Nat.toString_eq_repr]
  by_contra hlength
  have hpoint : point < 10 ^ point.repr.length :=
    (Nat.length_repr_le_iff Nat.length_repr_pos).1 le_rfl
  have hdigits : 10 ^ point.repr.length ≤ (shortest p).1 :=
    not_lt.1 (mt (Nat.length_repr_le_iff Nat.length_repr_pos).2 hlength)
  -- A power of ten lies between the two decimals, on a coarser grid than both.
  have hpower : (10 : ℚ) ^ (point.repr.length + (shortest p).2) =
      (10 ^ point.repr.length : Nat) * 10 ^ (shortest p).2 := by
    rw [zpow_add₀ (by norm_num), zpow_natCast]
    push_cast
    rfl
  refine hcoarser 1 (point.repr.length + (shortest p).2)
    (lt_add_of_pos_left _ (by exact_mod_cast Nat.length_repr_pos)) ?_
  rw [Nat.cast_one, one_mul, hpower]
  refine hbrackets.convex hshortest ?_ ?_
  · gcongr
    norm_num
  · gcongr

end Shortest

end Shading.Binary32
