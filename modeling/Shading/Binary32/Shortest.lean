import Shading.Binary32.Basic

/-!
# Shortest decimals

A finite nonzero number `m · 2 ^ q` is the value nearest to every real in an
interval around it.  The ends are half way to its two neighbours, and they
belong to the interval when `m` is even.  The *shortest decimal* is a point of
that interval on the coarsest decimal grid that has one.  Of two such points it
is the nearer one, and of two equally near points the greater.

The search tries the grids `10 ^ 39`, `10 ^ 38`, …, `10 ^ -149`.  On the last
grid every number of the format is a point itself, so the search ends with an
answer.
-/

namespace Shading.Binary32

/-- `2 ^ (q - 2) / 10 ^ g` as a numerator and a denominator. -/
def gridRatio (q g : Int) : Nat × Nat :=
  (Nat.pow 2 (q - 2).toNat * Nat.pow 10 (-g).toNat, Nat.pow 2 (2 - q).toNat * Nat.pow 10 g.toNat)

/-- The point `d` of the grid `10 ^ g` that reads back as `m · 2 ^ q`, if there is
one.  Quantities are in quarters of `2 ^ q`.  The lower neighbour of a power of
two is only half as far away, which is what `narrow` says. -/
def onGrid (m : Nat) (q : Int) (narrow : Bool) (g : Int) : Option Nat :=
  let (n, d) := gridRatio q g
  let value := 4 * m * n
  let low := (4 * m - if narrow then 1 else 2) * n
  let high := (4 * m + 2) * n
  let below := value / d
  let above := below + 1
  let slack := if m % 2 = 0 then 0 else 1
  let belowIn := low + slack ≤ below * d
  let aboveIn := above * d + slack ≤ high
  if belowIn ∧ aboveIn then some (if 2 * value < (below + above) * d then below else above)
  else if belowIn then some below
  else if aboveIn then some above
  else none

/-- The first grid with a point, from `10 ^ g` downwards. -/
def searchGrids (m : Nat) (q : Int) (narrow : Bool) : Nat → Int → Option (Nat × Int)
  | 0, _ => none
  | grids + 1, g =>
    match onGrid m q narrow g with
    | some digits => some (digits, g)
    | none => searchGrids m q narrow grids (g - 1)

/-- Whether the lower neighbour of a magnitude is half as far away as the upper
one: at the powers of two above the least normal one. -/
def isNarrow (magnitude : Nat) : Bool :=
  Format.single.fractionField magnitude = 0 && 1 < Format.single.exponentField magnitude

/-- The shortest decimal `digits · 10 ^ exponent` of a finite nonzero magnitude. -/
def shortest (magnitude : Nat) : Nat × Int :=
  let m := Format.single.significand magnitude
  let q := Format.single.scale magnitude
  (searchGrids m q (isNarrow magnitude) 189 39).getD (0, 0)

end Shading.Binary32
