import Mathlib.Data.List.Forall2
import Shading.Target.Dialect

/-!
# Names and their spellings

A name is spelled by mangling it, or as it is, and a reserved word gets an underscore
behind it.  Mangled names are the same when the names differ in points and underscores
only (`mangle_eq_mangle_iff`), and corrected names are the same when the names are or
when one is the correction of the other (`correctedName_eq_iff`).

A *plain* name is made of identifiers with points between them and has no underscore.
Plain names keep apart when they are mangled (`IsPlain.eq_of_mangle`).
-/

namespace Shading

/-- What is asked of the characters of a text is decided by going through the text, and not
through all characters there are. -/
instance (priority := high) decidableForallChars {p : Char → Prop} [DecidablePred p]
    (text : List Char) : Decidable (∀ c ∈ text, p c) := List.decidableBAll p text

namespace Name

/-! ## Dotted sequences of identifiers -/

/-- Whether characters, from the start of an identifier or from the inside of one on,
are identifiers with points between them. -/
def dotted : (start : Bool) → List Char → Bool
  | start, [] => !start
  | true, c :: rest => (c.isAlpha || c == '_') && dotted false rest
  | false, c :: rest =>
    if c = '.' then dotted true rest else (c.isAlphanum || c == '_') && dotted false rest

/-- A name is identifiers with points between them. -/
def IsDotted (name : String) : Prop := dotted true name.toList = true

instance (name : String) : Decidable (IsDotted name) := inferInstanceAs (Decidable (_ = true))

/-- A name is identifiers without underscores, with points between them. -/
structure IsPlain (name : String) : Prop where
  isDotted : IsDotted name
  no_underscore : '_' ∉ name.toList

/-- Behind a point stands an identifier. -/
theorem dotted_of_append_point {start : Bool} {before after : List Char}
    (h : dotted start (before ++ '.' :: after) = true) : dotted true after = true := by
  induction before generalizing start with
  | nil =>
    cases start with
    | true => cases h
    | false => exact h
  | cons c before ih =>
    cases start with
    | true => exact ih (Bool.and_eq_true_iff.1 h).2
    | false =>
      simp only [List.cons_append, dotted] at h
      split at h
      · exact ih h
      · exact ih (Bool.and_eq_true_iff.1 h).2

/-- A name can be continued where it ends, inside of an identifier. -/
theorem dotted_append {start : Bool} {before after : List Char} (h : dotted start before = true)
    (hafter : dotted false after = true) : dotted start (before ++ after) = true := by
  induction before generalizing start with
  | nil =>
    cases start with
    | true => cases h
    | false => exact hafter
  | cons c before ih =>
    cases start with
    | true =>
      obtain ⟨hc, hrest⟩ := Bool.and_eq_true_iff.1 h
      exact Bool.and_eq_true_iff.2 ⟨hc, ih hrest⟩
    | false =>
      simp only [List.cons_append, dotted] at h ⊢
      split at h
      · next hc =>
        rw [if_pos hc]
        exact ih h
      · next hc =>
        rw [if_neg hc]
        obtain ⟨hc, hrest⟩ := Bool.and_eq_true_iff.1 h
        exact Bool.and_eq_true_iff.2 ⟨hc, ih hrest⟩

theorem IsPlain.append {name suffix : String} (h : IsPlain name)
    (hdotted : dotted false suffix.toList = true) (hsuffix : '_' ∉ suffix.toList) :
    IsPlain (name ++ suffix) where
  isDotted := by
    rw [IsDotted, String.toList_append]
    exact dotted_append h.isDotted hdotted
  no_underscore := by simp [h.no_underscore, hsuffix]

/-! ## Mangled names -/

theorem toList_mangle (name : String) :
    (mangle name).toList = name.toList.map fun c => if c = '.' then '_' else c := by
  rw [mangle, String.toList_ofList]

theorem mangle_append (a b : String) : mangle (a ++ b) = mangle a ++ mangle b := by
  rw [← String.toList_inj]
  simp [toList_mangle]

@[simp] theorem mangle_mangle (name : String) : mangle (mangle name) = mangle name :=
  mangle_of_notMem (point_notMem_mangle name)

/-- Mangled names are the same when the names differ in points and underscores only. -/
theorem mangle_eq_mangle_iff {a b : String} : mangle a = mangle b ↔
    List.Forall₂ (fun c c' => c = c' ∨ c ∈ ['.', '_'] ∧ c' ∈ ['.', '_']) a.toList b.toList := by
  rw [← String.toList_inj, toList_mangle, toList_mangle, ← List.forall₂_eq_eq_eq,
    List.forall₂_map_left_iff, List.forall₂_map_right_iff]
  have hiff : ∀ c c' : Char, ((if c = '.' then '_' else c) = if c' = '.' then '_' else c') ↔
      c = c' ∨ c ∈ ['.', '_'] ∧ c' ∈ ['.', '_'] := by
    intro c c'
    simp only [List.mem_cons, List.not_mem_nil, or_false]
    split <;> split <;> grind
  simp only [hiff]

/-- A name without underscores is read off its mangled form. -/
theorem toList_of_mangle {name : String} (h : '_' ∉ name.toList) :
    name.toList = (mangle name).toList.map fun c => if c = '_' then '.' else c := by
  rw [toList_mangle, List.map_map]
  conv => lhs; rw [← List.map_id name.toList]
  refine List.map_congr_left fun c hc => ?_
  have hne : c ≠ '_' := fun heq => h (heq ▸ hc)
  by_cases hpoint : c = '.' <;> simp [hpoint, hne]

/-- Names without underscores keep apart when they are mangled. -/
theorem IsPlain.eq_of_mangle {a b : String} (ha : IsPlain a) (hb : IsPlain b)
    (h : mangle a = mangle b) : a = b := by
  rw [← String.toList_inj, toList_of_mangle ha.no_underscore, toList_of_mangle hb.no_underscore, h]

/-! ## Plain names and what is put behind names -/

/-- A mangled plain name does not end with an underscore. -/
theorem IsPlain.mangle_ne_corrected {name : String} (h : IsPlain name) (word : String) :
    mangle name ≠ word ++ "_" := by
  intro heq
  have hlist := toList_of_mangle h.no_underscore
  rw [heq, String.toList_append, List.map_append] at hlist
  have hdotted := h.isDotted
  rw [IsDotted, hlist] at hdotted
  have hend : dotted true [] = true := dotted_of_append_point hdotted
  cases hend

theorem toList_toString (n : Nat) : (toString n).toList = Nat.toDigits 10 n := by
  rw [Nat.toString_eq_repr, Nat.toList_repr]

theorem toList_toString_negSucc (n : Nat) :
    (toString (Int.negSucc n)).toList = '-' :: (toString (n + 1)).toList := by
  show ("-" ++ toString (n + 1)).toList = _
  rw [String.toList_append]
  rfl

/-- A number is spelled by digits. -/
theorem exists_digits (n : Nat) :
    ∃ c rest, (toString n).toList = c :: rest ∧ ∀ d ∈ c :: rest, d.isDigit = true := by
  obtain ⟨c, rest, hlist⟩ := List.exists_cons_of_ne_nil (Nat.toDigits_ne_nil (b := 10) (n := n))
  refine ⟨c, rest, (toList_toString n).trans hlist, fun d hd => ?_⟩
  exact Nat.isDigit_of_mem_toDigits (by decide) (by decide) (hlist ▸ hd)

theorem not_start_of_isDigit {c : Char} (h : c.isDigit = true) : c.isAlpha = false ∧ c ≠ '_' := by
  constructor
  · obtain ⟨-, hdigit⟩ := Bool.and_eq_true_iff.1 h
    -- Letters of both cases come behind the digits.
    have hbehind : ∀ letter : Char, '9'.val < letter.val → ¬ letter.val ≤ c.val := by
      intro letter hletter hle
      exact UInt32.not_le.2 hletter (UInt32.le_trans hle (of_decide_eq_true hdigit))
    refine Bool.eq_false_iff.2 fun halpha => ?_
    rcases Bool.or_eq_true_iff.1 halpha with hupper | hlower
    · exact hbehind 'A' (by decide) (of_decide_eq_true hupper).1
    · exact hbehind 'a' (by decide) (of_decide_eq_true (Bool.and_eq_true_iff.1 hlower).1)
  · rintro rfl
    cases h

/-- No part of a plain name starts with a digit. -/
theorem IsPlain.mangle_ne_numbered {name : String} (h : IsPlain name) (stem : String) (n : Nat) :
    mangle name ≠ stem ++ "_" ++ toString n := by
  intro heq
  obtain ⟨c, rest, hlist, hdigits⟩ := exists_digits n
  have hname := toList_of_mangle h.no_underscore
  rw [heq, String.toList_append, String.toList_append, hlist, List.map_append, List.map_append,
    List.append_assoc] at hname
  have hdotted := h.isDotted
  rw [IsDotted, hname] at hdotted
  obtain ⟨hstart, -⟩ := Bool.and_eq_true_iff.1 (dotted_of_append_point hdotted)
  obtain ⟨halpha, hne⟩ := not_start_of_isDigit (hdigits c (.head _))
  simp [hne, halpha] at hstart

theorem mangle_numbered (stem : String) (n : Nat) :
    mangle (stem ++ toString n) = mangle stem ++ toString n := by
  obtain ⟨c, rest, hlist, hdigits⟩ := exists_digits n
  have hpoint : '.' ∉ (toString n).toList := by
    intro h
    cases hdigits _ (hlist ▸ h)
  rw [mangle_append, mangle_of_notMem hpoint]

/-- What ends with a number does not end with an underscore. -/
theorem numbered_ne_corrected (stem word : String) (n : Nat) :
    stem ++ toString n ≠ word ++ "_" := by
  intro heq
  obtain ⟨c, rest, hlist, hdigits⟩ := exists_digits n
  have hlast : (c :: rest).getLast? = some '_' := by
    have hboth := congrArg (·.toList.getLast?) heq
    simp only [String.toList_append, hlist, List.getLast?_append, List.getLast?_cons,
      Option.some_or] at hboth ⊢
    exact hboth
  cases hdigits _ (List.mem_of_getLast? hlast)

/-- Numbers are spelled apart. -/
theorem numbered_injective {stem : String} {i j : Nat}
    (h : stem ++ toString i = stem ++ toString j) : i = j := by
  have hlist := congrArg String.toList h
  rw [String.toList_append, String.toList_append, List.append_cancel_left_eq,
    Nat.toString_eq_repr, Nat.toString_eq_repr, Nat.toList_repr, Nat.toList_repr] at hlist
  simpa using congrArg (Nat.ofDigitChars 10 · 0) hlist

/-- A stem without digits is told apart from the number behind it. -/
theorem numbered_eq_numbered_iff {a b : String} (ha : ∀ c ∈ a.toList, c.isDigit = false)
    (hb : ∀ c ∈ b.toList, c.isDigit = false) {i j : Nat} :
    a ++ toString i = b ++ toString j ↔ a = b ∧ i = j := by
  have hstem : ∀ (stem : String) (n : Nat), (∀ c ∈ stem.toList, c.isDigit = false) →
      (stem ++ toString n).toList.takeWhile (!·.isDigit) = stem.toList := by
    intro stem n hstem
    obtain ⟨c, rest, hlist, hdigits⟩ := exists_digits n
    rw [String.toList_append, List.takeWhile_append_of_pos (by simpa using hstem), hlist,
      List.takeWhile_cons_of_neg (by simp [hdigits c (.head _)]), List.append_nil]
  constructor
  · intro h
    have hlists := congrArg (fun s : String => s.toList.takeWhile (!·.isDigit)) h
    simp only [hstem a i ha, hstem b j hb] at hlists
    obtain rfl := String.toList_inj.1 hlists
    exact ⟨rfl, numbered_injective h⟩
  · rintro ⟨rfl, rfl⟩
    rfl

end Name

/-! ## Corrected names -/

section Corrected

variable {reserved : List String} {a b : String}

/-- A corrected name is a name that is not reserved, or a reserved one with an underscore. -/
theorem correctedName_eq_iff : correctedName reserved a = b ↔
    (a ∉ reserved ∧ a = b) ∨ (a ∈ reserved ∧ b = a ++ "_") := by
  rw [correctedName]
  split
  · next h => simp [h, eq_comm]
  · next h => simp [h]

/-- Corrected names are the same when the names are, or when one is the correction of the
other. -/
theorem correctedName_eq_correctedName_iff (hreserved : ∀ word ∈ reserved, word ++ "_" ∉ reserved) :
    correctedName reserved a = correctedName reserved b ↔
      a = b ∨ (a ∈ reserved ∧ b = a ++ "_") ∨ (b ∈ reserved ∧ a = b ++ "_") := by
  rw [correctedName, correctedName]
  have hcancel : a ++ "_" = b ++ "_" ↔ a = b := String.append_left_inj _
  split <;> split <;> grind

end Corrected

end Shading
