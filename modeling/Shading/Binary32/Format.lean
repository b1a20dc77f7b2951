/-!
# Binary floating-point formats

A format stores a magnitude as a bit pattern: an exponent field above a
fraction field.  Read as a number, the pattern grows with the magnitude it
stands for, so the next pattern is the next representable magnitude and the
pattern after the greatest finite one is infinity.

`Format.nearest` rounds a quotient of naturals to a pattern.  A tie goes to the
even pattern.  Everything here is exact arithmetic on naturals and integers.
-/

namespace Shading

/-- A quotient rounded to the nearest natural, a tie to the even one. -/
def roundHalfEven (num den : Nat) : Nat :=
  let q := num / den
  let r := num % den
  if 2 * r < den then q else if den < 2 * r then q + 1 else q + q % 2

/-- The exponent of the greatest power of two that is at most `num / den`. -/
def floorLog2 (num den : Nat) : Int :=
  let guess : Int := (Nat.log2 num : Int) - (Nat.log2 den : Int)
  if den * Nat.pow 2 guess.toNat ≤ num * Nat.pow 2 (-guess).toNat then guess else guess - 1

/-- The widths of the two fields of a magnitude. -/
structure Format where
  /-- Width of the fraction field. -/
  fractionBits : Nat
  /-- Width of the exponent field. -/
  exponentBits : Nat

namespace Format

/-- The single-precision format. -/
def single : Format := ⟨23, 8⟩

/-- The double-precision format. -/
def double : Format := ⟨52, 11⟩

/-- What the exponent field adds to the exponent it stores. -/
def bias (f : Format) : Nat := Nat.pow 2 (f.exponentBits - 1) - 1

/-- The pattern of infinity.  Greater patterns stand for no number. -/
def infinity (f : Format) : Nat := (Nat.pow 2 f.exponentBits - 1) * Nat.pow 2 f.fractionBits

/-- The exponent field of a pattern. -/
def exponentField (f : Format) (pattern : Nat) : Nat := pattern / Nat.pow 2 f.fractionBits

/-- The fraction field of a pattern. -/
def fractionField (f : Format) (pattern : Nat) : Nat := pattern % Nat.pow 2 f.fractionBits

/-- The integer that a pattern scales.  A pattern with a zero exponent field has
no implicit leading bit. -/
def significand (f : Format) (pattern : Nat) : Nat :=
  if f.exponentField pattern = 0 then f.fractionField pattern
  else Nat.pow 2 f.fractionBits + f.fractionField pattern

/-- The power of two that scales the significand. -/
def scale (f : Format) (pattern : Nat) : Int :=
  (max (f.exponentField pattern) 1 : Nat) - f.bias - f.fractionBits

/-- The pattern nearest to `num / den`, a tie going to the even pattern.  Above
the finite range this is infinity. -/
def nearest (f : Format) (num den : Nat) : Nat :=
  if num = 0 then 0 else
    let exponent : Int := max (floorLog2 num den) (1 - f.bias)
    let shift : Int := f.fractionBits - exponent
    let rounded := roundHalfEven (num * Nat.pow 2 shift.toNat) (den * Nat.pow 2 (-shift).toNat)
    min ((exponent + f.bias - 1).toNat * Nat.pow 2 f.fractionBits + rounded) f.infinity

/-- The pattern nearest to the magnitude another format's pattern stands for. -/
def convert (source target : Format) (pattern : Nat) : Nat :=
  if source.infinity ≤ pattern then target.infinity
  else
    let scale := source.scale pattern
    target.nearest (source.significand pattern * Nat.pow 2 scale.toNat) (Nat.pow 2 (-scale).toNat)

/-- The pattern nearest to `mantissa · 10 ^ exponent`.  Decimals beyond `10 ^ 400`
and below `10 ^ -400` are out of the range of both formats and are not
multiplied out. -/
def ofDecimal (f : Format) (mantissa : Nat) (exponent : Int) : Nat :=
  if mantissa = 0 ∨ exponent + Nat.log2 mantissa < -400 then 0
  else if 400 < exponent then f.infinity
  else f.nearest (mantissa * Nat.pow 10 exponent.toNat) (Nat.pow 10 (-exponent).toNat)

theorem nearest_zero (f : Format) (den : Nat) : f.nearest 0 den = 0 := rfl

end Format

end Shading
