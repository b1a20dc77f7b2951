import Shading.Binary32.Text
import Shading.Proofs.Text.Names

/-!
# Numerals

A number is written with the characters of names and with signs.  One sign may stand
before the digits and one before those of an exponent, so no two signs meet and none is the
last character (`Numeral`).
-/

namespace Shading

/-! ## Characters of names -/

/-- The characters of names. -/
def Name.isNameChar (c : Char) : Bool := c.isAlphanum || c = '_' || c = '.'

/-- Text made of the characters of names. -/
structure Name.IsText (text : List Char) : Prop where
  ne_nil : text ≠ []
  chars : ∀ c ∈ text, Name.isNameChar c = true

instance (text : List Char) : Decidable (Name.IsText text) :=
  decidable_of_iff (text ≠ [] ∧ ∀ c ∈ text, Name.isNameChar c = true)
    ⟨fun h => ⟨h.1, h.2⟩, fun h => ⟨h.ne_nil, h.chars⟩⟩

namespace Name

variable {a b : List Char}

theorem IsText.append (ha : IsText a) (hb : ∀ c ∈ b, isNameChar c = true) : IsText (a ++ b) where
  ne_nil := by simp [ha.ne_nil]
  chars := List.forall_mem_append.2 ⟨ha.chars, hb⟩

/-- The first character of text is text. -/
theorem IsText.first {c : Char} (h : IsText (c :: a)) : IsText [c] :=
  ⟨by simp, by simpa using h.chars c (.head _)⟩

theorem isNameChar_of_isDigit {c : Char} (h : c.isDigit = true) : isNameChar c = true := by
  simp [isNameChar, Char.isAlphanum, h]

theorem isText_toString (n : Nat) : IsText (toString n).toList := by
  obtain ⟨c, rest, hlist, hdigits⟩ := exists_digits n
  rw [hlist]
  exact ⟨by simp, fun d hd => isNameChar_of_isDigit (hdigits d hd)⟩

end Name

/-! ## Numerals -/

open Name

/-- Characters of names, and maybe a sign between two of them. -/
inductive Numeral : List Char → Prop where
  | plain {text} : IsText text → Numeral text
  | signed {before behind} : IsText before → IsText behind → Numeral (before ++ '-' :: behind)

namespace Numeral

variable {text suffix : List Char}

theorem append (h : Numeral text) (hs : ∀ c ∈ suffix, isNameChar c = true) :
    Numeral (text ++ suffix) := by
  cases h with
  | plain h => exact .plain (h.append hs)
  | signed hbefore hbehind =>
    rw [List.append_assoc]
    exact .signed hbefore (hbehind.append hs)

theorem eq_or_of_mem {c : Char} (h : Numeral text) (hc : c ∈ text) :
    isNameChar c = true ∨ c = '-' := by
  cases h with
  | plain h => exact .inl (h.chars c hc)
  | signed hbefore hbehind =>
    rcases List.mem_append.1 hc with hc | hc
    · exact .inl (hbefore.chars c hc)
    · rcases List.mem_cons.1 hc with rfl | hc
      · exact .inr rfl
      · exact .inl (hbehind.chars c hc)

/-- An integer behind the characters of a name. -/
theorem append_int {before : List Char} (h : IsText before) (exponent : Int) :
    Numeral (before ++ (toString exponent).toList) := by
  cases exponent with
  | ofNat n => exact .plain (h.append (isText_toString n).chars)
  | negSucc n =>
    rw [toList_toString_negSucc]
    exact .signed h (isText_toString (n + 1))

end Numeral

namespace Binary32

theorem isText_positionalText {digits : List Char} (h : IsText digits) (exponent : Int) :
    IsText (positionalText digits exponent) := by
  have hzeros : ∀ n, ∀ c ∈ zeros n, isNameChar c = true := by
    intro n c hc
    rw [List.eq_of_mem_replicate hc]
    rfl
  unfold positionalText
  simp only
  split
  · refine (h.append (hzeros _)).append ?_
    decide
  · split
    · refine ⟨by simp, fun c hc => ?_⟩
      rw [List.mem_append, List.mem_cons] at hc
      rcases hc with hc | rfl | hc
      · exact h.chars c (List.mem_of_mem_take hc)
      · rfl
      · exact h.chars c (List.mem_of_mem_drop hc)
    · refine ⟨by simp, fun c hc => ?_⟩
      rw [List.mem_cons, List.mem_cons, List.mem_append] at hc
      rcases hc with rfl | rfl | hc | hc
      · rfl
      · rfl
      · exact hzeros _ c hc
      · exact h.chars c hc

theorem numeral_scientificText {digits : List Char} (h : IsText digits) (exponent : Int) :
    Numeral (scientificText digits exponent) := by
  unfold scientificText
  split
  · exact absurd rfl h.ne_nil
  · next d =>
    have hmantissa : IsText [d, 'e'] := h.append (b := ['e']) (by decide)
    exact .append_int hmantissa _
  · next d rest _ =>
    have hpoint : IsText ([d] ++ ['.']) := h.first.append (by decide)
    have hdigits := hpoint.append fun c hc => h.chars c (.tail _ hc)
    have hmantissa := hdigits.append (b := ['e']) (by decide)
    simpa using Numeral.append_int hmantissa exponent

theorem numeral_decimalText (digits : Nat) (exponent : Int) :
    Numeral (decimalText digits exponent) := by
  unfold decimalText
  simp only
  split
  · exact .plain (isText_positionalText (isText_toString _) _)
  · exact numeral_scientificText (isText_toString _) _

/-- A magnitude is written as a numeral. -/
theorem numeral_magnitudeText (magnitude : Nat) : Numeral (magnitudeText magnitude) := by
  unfold magnitudeText
  split
  · exact .plain (by decide)
  · exact numeral_decimalText _ _

/-- A number is written as a numeral, with a sign before it if it is negative. -/
theorem exists_numeral_text {x : Binary32} (h : x.isFinite = true) : ∃ numeral,
    Numeral numeral ∧ x.text.toList = (if x.isNegative then ['-'] else []) ++ numeral :=
  ⟨_, numeral_magnitudeText x.magnitude, by rw [text, if_pos h, String.toList_ofList]⟩

end Binary32

end Shading
