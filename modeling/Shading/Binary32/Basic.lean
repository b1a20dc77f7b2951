import Shading.Binary32.Format

/-!
# Single-precision numbers

A `Binary32` is its bit pattern, so equality is equality of bits: the two zeros
differ, and a NaN equals itself.

`ofDecimal` and `ofInteger` are the way the tools around this library read numbers.
A decimal is rounded to double precision and from there to single precision, and
a zero keeps its sign.  An integer that fits in 64 bits is rounded once.  The two
ways differ where the first rounding ends halfway between two single-precision
numbers.
-/

namespace Shading

/-- A single-precision number. -/
structure Binary32 where
  /-- Sign, exponent field and fraction field, from the top. -/
  bits : UInt32
deriving DecidableEq, Repr

namespace Binary32

/-- The value of the sign bit in a pattern. -/
def signBit : Nat := 0x80000000

/-- Whether the sign bit is set. -/
def isNegative (x : Binary32) : Bool := signBit ≤ x.bits.toNat

/-- The pattern without its sign. -/
def magnitude (x : Binary32) : Nat := x.bits.toNat % signBit

/-- Neither an infinity nor a NaN. -/
def isFinite (x : Binary32) : Bool := x.magnitude < Format.single.infinity

/-- A sign and a magnitude as a number. -/
def ofMagnitude (negative : Bool) (magnitude : Nat) : Binary32 :=
  ⟨UInt32.ofNat (magnitude + if negative then signBit else 0)⟩

/-- The number nearest to a decimal, by way of double precision. -/
def ofDecimal (negative : Bool) (mantissa : Nat) (exponent : Int) : Binary32 :=
  ofMagnitude negative
    (Format.double.convert .single (Format.double.ofDecimal mantissa exponent))

/-- Whether an integer fits in 64 bits, with a sign if it is negative. -/
def isWord (value : Int) : Bool := -0x8000000000000000 ≤ value && value < 0x10000000000000000

/-- The number nearest to an integer.  One that does not fit in 64 bits is read as a
decimal. -/
def ofInteger (value : Int) : Binary32 :=
  if isWord value then ofMagnitude (value < 0) (Format.single.nearest value.natAbs 1)
  else ofDecimal (value < 0) value.natAbs 0

/-- The magnitude of a finite number is below infinity. -/
theorem magnitude_lt_of_isFinite {x : Binary32} (h : x.isFinite = true) :
    x.magnitude < Format.single.infinity := by simpa [isFinite] using h

/-- A number is its sign and its magnitude. -/
theorem ofMagnitude_magnitude (x : Binary32) : ofMagnitude x.isNegative x.magnitude = x := by
  obtain ⟨bits⟩ := x
  have h : bits.toNat < 2 ^ 32 := bits.toNat_lt
  unfold ofMagnitude isNegative magnitude signBit
  congr 1
  apply UInt32.toNat_inj.1
  simp only [decide_eq_true_eq]
  rw [UInt32.toNat_ofNat']
  split <;> omega

/-! ## Examples -/

/-- `2 ^ 53 + 2 ^ 29 + 1` is above the middle of two single-precision numbers.  Double
precision has no place for its last bit. -/
example : ofInteger (2 ^ 53 + 2 ^ 29 + 1) = ⟨0x5A000001⟩ := by decide
example : ofDecimal false (2 ^ 53 + 2 ^ 29 + 1) 0 = ⟨0x5A000000⟩ := by decide

/-- Beyond 64 bits an integer is read as a decimal. -/
example : ofInteger (2 ^ 64 + 2 ^ 40 + 1) = ⟨0x5F800000⟩ := by decide

end Binary32

end Shading
