import Mathlib.Algebra.Ring.Nat
import Shading.Json.Number
import Shading.Proofs.Text.Names

/-!
# Reading decimals

A decimal is read from its digits, with a point among them or an exponent behind them
(`unsigned?_point`, `unsigned?_exponent`).  Every reader takes all digits that it meets, so
the pieces of the text are told apart by what stands between them.

The digits of a natural number are read as the number (`ofDigits_toString`), and those of an
integer as the integer (`exponentValue?_toString`).
-/

namespace Shading.Json.Number

open Name

/-! ## Digits -/

/-- Digits, one at least. -/
structure IsDigits (text : List Char) : Prop where
  ne_nil : text ≠ []
  isDigit : ∀ c ∈ text, c.isDigit = true

theorem isDigits_singleton {c : Char} (h : c.isDigit = true) : IsDigits [c] :=
  ⟨by simp, by simpa using h⟩

/-- Text that does not go on with a digit. -/
def NoDigit (text : List Char) : Prop := ∀ c ∈ text.head?, c.isDigit = false

theorem noDigit_nil : NoDigit [] := by simp [NoDigit]

theorem noDigit_cons {c : Char} (h : c.isDigit = false) (text : List Char) :
    NoDigit (c :: text) := by simpa [NoDigit] using h

theorem isDigits_toString (n : Nat) : IsDigits (toString n).toList where
  ne_nil := by simp
  isDigit c hc := by
    rw [toList_toString] at hc
    exact Nat.isDigit_of_mem_toDigits (by decide) (by decide) hc

/-- The digits of a number are read as the number. -/
theorem ofDigits_toString (n : Nat) : ofDigits (toString n).toList = n := by
  rw [toList_toString]
  exact Nat.ofDigitChars_ten_toDigits

/-- Each zero behind digits is a factor of ten. -/
theorem ofDigits_append_zeros (digits : List Char) (n : Nat) :
    ofDigits (digits ++ List.replicate n '0') = 10 ^ n * ofDigits digits := by
  rw [ofDigits, List.foldl_append]
  exact Nat.ofDigitChars_replicate_zero

/-- Zeros before digits do not count. -/
theorem ofDigits_zeros_append (digits : List Char) (n : Nat) :
    ofDigits (List.replicate n '0' ++ digits) = ofDigits digits := by
  have hzeros : ofDigits (List.replicate n '0') = 10 ^ n * 0 := Nat.ofDigitChars_replicate_zero
  rw [Nat.mul_zero] at hzeros
  rw [ofDigits, List.foldl_append]
  exact congrArg (List.foldl _ · digits) hzeros

/-- The digits of a positive number do not start with a zero. -/
theorem head?_toString_ne {n : Nat} (hn : 0 < n) : (toString n).toList.head? ≠ some '0' := by
  rw [toList_toString]
  induction n using Nat.strongRecOn with
  | ind n ih =>
    rw [Nat.toDigits_eq_if (by decide)]
    split
    · simpa using Nat.ne_of_gt hn
    · next hten =>
      rw [List.head?_append_of_ne_nil _ Nat.toDigits_ne_nil]
      exact ih (n / 10) (by omega) (by omega)

/-! ## The pieces of a number -/

section Pieces

variable {digits whole fraction rest : List Char}

theorem digits?_append (h : IsDigits digits) (hrest : NoDigit rest) :
    digits? (digits ++ rest) = some (digits, rest) := by
  have htake : rest.takeWhile Char.isDigit = [] := by
    cases rest with
    | nil => rfl
    | cons c rest => exact List.takeWhile_cons_of_neg (by simp [hrest c rfl])
  have hdrop : rest.dropWhile Char.isDigit = rest := by
    cases rest with
    | nil => rfl
    | cons c rest => exact List.dropWhile_cons_of_neg (by simp [hrest c rfl])
  rw [digits?, List.takeWhile_append_of_pos h.isDigit, List.dropWhile_append_of_pos h.isDigit,
    htake, hdrop, List.append_nil]
  simp [h.ne_nil]

theorem digits?_eq_self (h : IsDigits digits) : digits? digits = some (digits, []) := by
  have happend := digits?_append h noDigit_nil
  rwa [List.append_nil] at happend

/-- The integer that is written behind an `e`. -/
theorem exponentValue?_toString (exponent : Int) :
    exponentValue? (toString exponent).toList = some exponent := by
  have hended : ∀ n : Nat, exponentValue?.ended? (toString n).toList = some n := by
    intro n
    rw [exponentValue?.ended?, digits?_eq_self (isDigits_toString n)]
    exact congrArg some (ofDigits_toString n)
  cases exponent with
  | ofNat n =>
    have hdigits := (isDigits_toString n).isDigit
    show exponentValue? (toString n).toList = _
    unfold exponentValue?
    split
    · next htext => exact absurd (hdigits '-' (htext ▸ .head _)) (by decide)
    · next htext => exact absurd (hdigits '+' (htext ▸ .head _)) (by decide)
    · rw [hended]
      rfl
  | negSucc n =>
    rw [toList_toString_negSucc, exponentValue?, hended]
    rfl

theorem exponent?_e (text : List Char) :
    exponent? ('e' :: text) = (exponentValue? text).map some := rfl

/-- The digits before a point or an exponent. -/
theorem whole?_append (h : IsDigits whole) (hzero : whole.head? = some '0' → whole.length = 1)
    (hrest : NoDigit rest) : whole? (whole ++ rest) = some (whole, rest) := by
  have hlead : ¬ (whole.head? = some '0' ∧ whole.length ≠ 1) := fun hlead =>
    hlead.2 (hzero hlead.1)
  simp only [whole?, digits?_append h hrest, Option.bind_eq_bind, Option.bind_some, if_neg hlead]

/-- A decimal with a point, and with what ends it. -/
theorem unsigned?_point (negative : Bool) (hwhole : IsDigits whole)
    (hzero : whole.head? = some '0' → whole.length = 1) (hfraction : IsDigits fraction)
    (hrest : NoDigit rest) {exponent : Option Int} (hexponent : exponent? rest = some exponent) :
    unsigned? negative (whole ++ '.' :: (fraction ++ rest)) =
      some (.decimal negative (ofDigits (whole ++ fraction))
        (exponent.getD 0 - fraction.length)) := by
  have hpoint : NoDigit ('.' :: (fraction ++ rest)) := noDigit_cons rfl _
  simp [unsigned?, whole?_append hwhole hzero hpoint, fraction?, digits?_append hfraction hrest,
    hexponent, hfraction.ne_nil]

/-- A decimal with an exponent and without a point. -/
theorem unsigned?_exponent (negative : Bool) (hwhole : IsDigits whole)
    (hzero : whole.head? = some '0' → whole.length = 1) {exponent : Int}
    (hexponent : exponentValue? rest = some exponent) :
    unsigned? negative (whole ++ 'e' :: rest) =
      some (.decimal negative (ofDigits whole) exponent) := by
  have he : NoDigit ('e' :: rest) := noDigit_cons rfl _
  simp [unsigned?, whole?_append hwhole hzero he, fraction?, exponent?_e, hexponent]

/-- A sign is read before digits only. -/
theorem ofText?_of_unsigned {negative : Bool} {text : List Char} {number : Number}
    (h : unsigned? negative text = some number) :
    ofText? ((if negative then ['-'] else []) ++ text) = some number := by
  cases negative with
  | true => exact h
  | false =>
    show ofText? text = _
    unfold ofText?
    split
    · next rest =>
      have hnone : unsigned? false ('-' :: rest) = none := rfl
      rw [hnone] at h
      cases h
    · exact h

end Pieces

end Shading.Json.Number
