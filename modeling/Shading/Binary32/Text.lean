import Shading.Binary32.Shortest

/-!
# The text of a number

A number is written with the digits of its shortest decimal.  The text always
has a decimal point or an exponent, so that no target takes it for an integer.
Magnitudes from `10 ^ -4` up to `10 ^ 16` are written positionally, and all
others with one digit before the point and an exponent.
-/

namespace Shading.Binary32

/-- The decimal exponents written positionally: at least `least`, below `below`. -/
structure PositionalRange where
  least : Int
  below : Int

/-- Numbers from `10 ^ -4` up to `10 ^ 16` are written positionally. -/
def positional : PositionalRange := ⟨-4, 16⟩

/-- A run of zeros. -/
def zeros (n : Nat) : List Char := List.replicate n '0'

/-- Digits with the point where `10 ^ exponent` puts it.  One digit stands on each
side of the point at least. -/
def positionalText (digits : List Char) (exponent : Int) : List Char :=
  let places := (-exponent).toNat
  if 0 ≤ exponent then digits ++ zeros exponent.toNat ++ ['.', '0']
  else if places < digits.length then
    digits.take (digits.length - places) ++ '.' :: digits.drop (digits.length - places)
  else '0' :: '.' :: (zeros (places - digits.length) ++ digits)

/-- Digits with the point behind the first, and the exponent that makes up for it. -/
def scientificText (digits : List Char) (exponent : Int) : List Char :=
  match digits with
  | [] => []
  | [d] => d :: 'e' :: (toString exponent).toList
  | d :: rest => d :: '.' :: rest ++ 'e' :: (toString exponent).toList

/-- The decimal `digits · 10 ^ exponent`, which has no trailing zero among its digits. -/
def decimalText (digits : Nat) (exponent : Int) : List Char :=
  let text := (toString digits).toList
  let leading := exponent + text.length - 1
  if positional.least ≤ leading ∧ leading < positional.below then positionalText text exponent
  else scientificText text leading

/-- The magnitude of a number. -/
def magnitudeText (magnitude : Nat) : List Char :=
  if magnitude = 0 then ['0', '.', '0']
  else
    let (digits, exponent) := shortest magnitude
    decimalText digits exponent

/-- A number that is not finite, by name. -/
def specialText (x : Binary32) : String :=
  if Format.single.infinity < x.magnitude then "NaN"
  else if x.isNegative then "-inf" else "inf"

/-- The shortest text that reads back as the same number. -/
def text (x : Binary32) : String :=
  if x.isFinite then
    String.ofList ((if x.isNegative then ['-'] else []) ++ magnitudeText x.magnitude)
  else x.specialText ++ ".0"

end Shading.Binary32
