import Shading.Proofs.Binary32.Shortest
import Shading.Proofs.Json.Number
import Shading.Target.Dialect

/-!
# The text of a number is read back

A text is a *literal* of a number when it has a point or an exponent and when the decimal
that it writes is rounded to the number and to no other (`IsLiteral`).

A text is read as the decimal that is written in it, wherever the point stands
(`readsAs_positionalText`, `readsAs_scientificText`).  This is the shortest decimal of the
number, so it is rounded to the number.
-/

namespace Shading.Binary32

open Format Json.Number

/-! ## Digits with a point or an exponent -/

/-- A text without a sign has a point or an exponent and is read as a decimal. -/
structure ReadsAs (text : List Char) (x : ℚ) : Prop where
  marked : '.' ∈ text ∨ 'e' ∈ text
  reads : ∀ negative, ∃ (mantissa : Nat) (exponent : ℤ),
    unsigned? negative text = some (.decimal negative mantissa exponent) ∧
      (mantissa * 10 ^ exponent : ℚ) = x

variable {digits : Nat} {whole fraction : List Char}

/-- A text with a point and without an exponent. -/
theorem readsAs_point {x : ℚ} (hwhole : IsDigits whole)
    (hzero : whole.head? = some '0' → whole.length = 1) (hfraction : IsDigits fraction)
    (hx : (ofDigits (whole ++ fraction) : ℚ) * 10 ^ (-(fraction.length : ℤ)) = x) :
    ReadsAs (whole ++ '.' :: fraction) x where
  marked := .inl (by simp)
  reads negative := by
    have hread := unsigned?_point negative hwhole hzero hfraction noDigit_nil
      (show exponent? [] = some none from rfl)
    rw [List.append_nil, Option.getD_none, zero_sub] at hread
    exact ⟨_, _, hread, hx⟩

theorem isDigit_zeros (n : Nat) : ∀ c ∈ zeros n, c.isDigit = true := fun _ hc =>
  List.eq_of_mem_replicate hc ▸ rfl

/-- The point stands behind the digits, among them or before them. -/
theorem readsAs_positionalText (hd : 0 < digits) (exponent : ℤ) :
    ReadsAs (positionalText (toString digits).toList exponent) (digits * 10 ^ exponent) := by
  have hdigits := isDigits_toString digits
  have hvalue := ofDigits_toString digits
  have hhead := head?_toString_ne hd
  generalize (toString digits).toList = text at hdigits hvalue hhead ⊢
  have hpos : 0 < text.length := List.length_pos_of_ne_nil hdigits.ne_nil
  unfold positionalText
  simp only
  split
  · next hexponent =>
    obtain ⟨n, rfl⟩ := Int.eq_ofNat_of_zero_le hexponent
    rw [Int.toNat_natCast]
    have hwhole : IsDigits (text ++ zeros n) :=
      ⟨by simp [hdigits.ne_nil], List.forall_mem_append.2 ⟨hdigits.isDigit, isDigit_zeros n⟩⟩
    refine readsAs_point hwhole ?_ ⟨by simp, by decide⟩ ?_
    · rw [List.head?_append_of_ne_nil _ hdigits.ne_nil]
      exact fun hzero => absurd hzero hhead
    · rw [List.append_assoc, zeros, ← List.replicate_succ', ofDigits_append_zeros, hvalue,
        zpow_natCast]
      push_cast
      rw [List.length_singleton, Nat.cast_one, zpow_neg_one, pow_succ]
      ring
  · next hexponent =>
    obtain ⟨places, rfl⟩ : ∃ places : Nat, exponent = -places :=
      ⟨(-exponent).toNat, by omega⟩
    rw [neg_neg, Int.toNat_natCast]
    split
    · next hplaces =>
      obtain ⟨before, hbefore⟩ : ∃ before, text.length = before + places :=
        ⟨text.length - places, by omega⟩
      rw [hbefore, Nat.add_sub_cancel]
      refine readsAs_point ⟨?_, fun c hc => hdigits.isDigit c (List.mem_of_mem_take hc)⟩ ?_
        ⟨?_, fun c hc => hdigits.isDigit c (List.mem_of_mem_drop hc)⟩ ?_
      · exact List.ne_nil_of_length_pos (by rw [List.length_take]; omega)
      · rw [List.head?_take, if_neg (by omega)]
        exact fun hzero => absurd hzero hhead
      · exact List.ne_nil_of_length_pos (by rw [List.length_drop]; omega)
      · rw [List.take_append_drop, hvalue, List.length_drop, hbefore, Nat.add_sub_cancel_left]
    · next hplaces =>
      have hfraction : IsDigits (zeros (places - text.length) ++ text) :=
        ⟨by simp [hdigits.ne_nil], List.forall_mem_append.2 ⟨isDigit_zeros _, hdigits.isDigit⟩⟩
      refine readsAs_point (isDigits_singleton rfl) (fun _ => rfl) hfraction ?_
      have hlength : (zeros (places - text.length) ++ text).length = places := by
        rw [List.length_append, zeros, List.length_replicate]
        omega
      rw [hlength, ← List.append_assoc, zeros, List.singleton_append, ← List.replicate_succ,
        ofDigits_zeros_append, hvalue]

/-- The point stands behind the first digit, if it is not the only one. -/
theorem readsAs_scientificText (digits : Nat) (exponent : ℤ) :
    ReadsAs (scientificText (toString digits).toList exponent)
      (digits * 10 ^ (exponent + 1 - (toString digits).toList.length)) := by
  have hdigits := isDigits_toString digits
  have hvalue := ofDigits_toString digits
  generalize (toString digits).toList = text at hdigits hvalue ⊢
  have hexponent := exponentValue?_toString exponent
  unfold scientificText
  split
  · exact absurd rfl hdigits.ne_nil
  · next d =>
    have hread negative := unsigned?_exponent negative hdigits (fun _ => rfl) hexponent
    refine ⟨.inr (by simp), fun negative => ⟨_, _, hread negative, ?_⟩⟩
    rw [hvalue, List.length_singleton, Nat.cast_one, add_sub_cancel_right]
  · next d rest hrest =>
    have hfirst : IsDigits [d] := isDigits_singleton (hdigits.isDigit d (.head _))
    have hfraction : IsDigits rest := ⟨hrest, fun c hc => hdigits.isDigit c (.tail _ hc)⟩
    have hread negative := unsigned?_point negative hfirst (fun _ => rfl) hfraction
      (noDigit_cons rfl _) ((exponent?_e _).trans (congrArg (Option.map some) hexponent))
    refine ⟨.inl (by simp), fun negative => ⟨_, _, hread negative, ?_⟩⟩
    rw [List.singleton_append, hvalue, List.length_cons, Option.getD_some]
    push_cast
    rw [add_sub_add_right_eq_sub]

/-- A decimal is read from its text. -/
theorem readsAs_decimalText (hd : 0 < digits) (exponent : ℤ) :
    ReadsAs (decimalText digits exponent) (digits * 10 ^ exponent) := by
  unfold decimalText
  simp only
  split
  · exact readsAs_positionalText hd exponent
  · have hread := readsAs_scientificText digits (exponent + (toString digits).toList.length - 1)
    rwa [sub_add_cancel, add_sub_cancel_right] at hread

/-- The text of a finite magnitude is read as a decimal that is rounded to it. -/
theorem exists_readsAs_magnitudeText {p : Nat} (hfinite : p < single.infinity) :
    ∃ x, ReadsAs (magnitudeText p) x ∧ single.Rounds x p := by
  unfold magnitudeText
  split
  · next hzero =>
    subst hzero
    have hrounds := (brackets_value single 0).rounds (Nat.zero_le _)
    refine ⟨_, readsAs_point (isDigits_singleton rfl) (fun _ => rfl) (isDigits_singleton rfl) ?_,
      hrounds⟩
    rw [value_zero]
    exact mul_eq_zero_of_left (Nat.cast_eq_zero.2 rfl) _
  · next hzero =>
    have hp := Nat.pos_of_ne_zero hzero
    obtain ⟨hbrackets, -⟩ := shortest_spec hp hfinite
    exact ⟨_, readsAs_decimalText (pos_of_brackets hp hbrackets) _, hbrackets.rounds hfinite.le⟩

/-! ## Literals -/

/-- A number of a given sign is the nearest to a decimal.  A zero keeps the sign. -/
structure Nearest (negative : Bool) (x : ℚ) (y : Binary32) : Prop where
  sign : y.isNegative = negative
  rounds : single.Rounds x y.magnitude

/-- A text is not taken for an integer, and its decimal is rounded to a number and to no
other, bit for bit. -/
structure IsLiteral (x : Binary32) (text : List Char) : Prop where
  marked : '.' ∈ text ∨ 'e' ∈ text
  reads : ∃ (mantissa : Nat) (exponent : ℤ),
    ofText? text = some (.decimal x.isNegative mantissa exponent) ∧
      ofMagnitude x.isNegative (single.ofDecimal mantissa exponent) = x ∧
      ∀ y, Nearest x.isNegative (mantissa * 10 ^ exponent) y ↔ y = x

theorem isLiteral_text {x : Binary32} (h : x.isFinite = true) : IsLiteral x x.text.toList := by
  obtain ⟨decimal, hreads, hrounds⟩ := exists_readsAs_magnitudeText (magnitude_lt_of_isFinite h)
  obtain ⟨mantissa, exponent, hread, hvalue⟩ := hreads.reads x.isNegative
  have htext : x.text.toList =
      (if x.isNegative then ['-'] else []) ++ magnitudeText x.magnitude := by
    rw [text, if_pos h, String.toList_ofList]
  rw [← hvalue] at hrounds
  rw [htext]
  refine ⟨?_, mantissa, exponent, ofText?_of_unsigned hread, ?_, fun y => ⟨fun hy => ?_, ?_⟩⟩
  · exact hreads.marked.imp (List.mem_append_right _) (List.mem_append_right _)
  · rw [(rounds_ofDecimal_single mantissa exponent).unique hrounds, ofMagnitude_magnitude]
  · rw [← ofMagnitude_magnitude y, hy.sign, hy.rounds.unique hrounds, ofMagnitude_magnitude]
  · rintro rfl
    exact ⟨rfl, hrounds⟩

/-- A literal is the literal of one number. -/
theorem IsLiteral.unique {x y : Binary32} {text : List Char} (hx : IsLiteral x text)
    (hy : IsLiteral y text) : x = y := by
  obtain ⟨m, e, hread, hvalue, -⟩ := hx.reads
  obtain ⟨m', e', hread', hvalue', -⟩ := hy.reads
  obtain ⟨hsign, rfl, rfl⟩ := Json.Number.decimal.inj (Option.some.inj (hread.symm.trans hread'))
  rw [← hvalue, ← hvalue', hsign]

/-- Numbers survive their spelling.  The text of a finite number is a literal of the number,
and no target spells two finite numbers alike, whatever it writes behind the digits. -/
theorem survivesSpelling :
    (∀ x : Binary32, x.isFinite = true → IsLiteral x x.text.toList) ∧
      ∀ (d : Dialect) (x y : Binary32), x.isFinite = true → y.isFinite = true → x ≠ y →
        d.floatText x ≠ d.floatText y := by
  refine ⟨fun x => isLiteral_text, fun d x y hx hy hne htext => hne ?_⟩
  have hsame : x.text = y.text := String.append_left_inj _ |>.1 htext
  exact (isLiteral_text hx).unique (hsame ▸ isLiteral_text hy)

/-- The zeros of both signs are told apart, and so is the least number above them. -/
theorem survivesSpelling_zeros :
    IsLiteral ⟨0x80000000⟩ ['-', '0', '.', '0'] ∧ IsLiteral ⟨1⟩ ['1', 'e', '-', '4', '5'] ∧
      ∀ d : Dialect, d.floatText ⟨0⟩ ≠ d.floatText ⟨0x80000000⟩ ∧
        d.floatText ⟨0⟩ ≠ d.floatText ⟨1⟩ := by
  have hzero : (⟨0x80000000⟩ : Binary32).text.toList = ['-', '0', '.', '0'] := by decide
  have hleast : (⟨1⟩ : Binary32).text.toList = ['1', 'e', '-', '4', '5'] := by decide +kernel
  refine ⟨hzero ▸ survivesSpelling.1 _ (by decide), hleast ▸ survivesSpelling.1 _ (by decide),
    fun d => ⟨?_, ?_⟩⟩
  · exact survivesSpelling.2 d _ _ (by decide) (by decide) (by decide)
  · exact survivesSpelling.2 d _ _ (by decide) (by decide) (by decide)

end Shading.Binary32
