import Shading.Json.Basic

/-!
# Numbers in JSON text

A number is a sign, digits without a leading zero, and optionally a fraction and
an exponent.  It is an integer if it has neither of the last two.  A zero with a
sign is no integer, because no integer has its value.
-/

namespace Shading.Json.Number

/-- The natural number that decimal digits write. -/
def ofDigits (digits : List Char) : Nat :=
  digits.foldl (fun value digit => 10 * value + (digit.toNat - '0'.toNat)) 0

/-- The digits at the start, and the rest.  There is one digit at least. -/
def digits? (text : List Char) : Option (List Char × List Char) :=
  let digits := text.takeWhile Char.isDigit
  if digits.isEmpty then none else some (digits, text.dropWhile Char.isDigit)

/-- The digits before the point.  A zero stands there only by itself. -/
def whole? (text : List Char) : Option (List Char × List Char) := do
  let (digits, rest) ← digits? text
  if digits.head? = some '0' ∧ digits.length ≠ 1 then none else some (digits, rest)

/-- The digits behind a point, if there is a point. -/
def fraction? : List Char → Option (List Char × List Char)
  | '.' :: rest => digits? rest
  | text => some ([], text)

/-- The value of an exponent, which ends the number. -/
def exponentValue? : List Char → Option Int
  | '-' :: rest => (ended? rest).map fun n => -(n : Int)
  | '+' :: rest => (ended? rest).map fun n => (n : Int)
  | text => (ended? text).map fun n => (n : Int)
where
  /-- Digits with nothing behind them. -/
  ended? (text : List Char) : Option Nat := do
    let (digits, rest) ← digits? text
    if rest.isEmpty then some (ofDigits digits) else none

/-- The exponent, if there is one.  Either way the number ends. -/
def exponent? : List Char → Option (Option Int)
  | [] => some none
  | e :: rest => if e = 'e' ∨ e = 'E' then (exponentValue? rest).map some else none

/-- A number without its sign. -/
def unsigned? (negative : Bool) (text : List Char) : Option Number := do
  let (whole, rest) ← whole? text
  let (fraction, rest) ← fraction? rest
  let exponent ← exponent? rest
  let mantissa := ofDigits (whole ++ fraction)
  if fraction.isEmpty ∧ exponent.isNone ∧ ¬(negative ∧ mantissa = 0) then
    return .integer (if negative then -mantissa else mantissa)
  else return .decimal negative mantissa (exponent.getD 0 - fraction.length)

/-- A number from its text. -/
def ofText? : List Char → Option Number
  | '-' :: rest => unsigned? true rest
  | text => unsigned? false text

/-- The text of a number. -/
def text : Number → String
  | .integer value => toString value
  | .decimal negative mantissa exponent =>
    (if negative then "-" else "") ++ toString mantissa ++ "e" ++ toString exponent

example : ofText? "0".toList = some (.integer 0) := by decide
example : ofText? "-0".toList = some (.decimal true 0 0) := by decide
example : ofText? "1.50".toList = some (.decimal false 150 (-2)) := by decide
example : ofText? "-1e-05".toList = some (.decimal true 1 (-5)) := by decide
example : ofText? "01".toList = none := by decide
example : ofText? "1.".toList = none := by decide

end Shading.Json.Number
