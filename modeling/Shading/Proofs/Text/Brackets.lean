import Mathlib.Data.List.Basic
import Shading.Text.Parens

/-!
# Brackets

Text is *balanced* when every round and square bracket in it is closed by one of its
kind, in the order brackets are closed in.  A stack of the closing brackets that are
still to come reads text from left to right (`Brackets.step`).

One pair of parentheses encloses text when it opens with a parenthesis whose match is
the last character (`Brackets.Enclosed`).  `isEnclosed` looks for that by counting round
brackets only, and on balanced text it finds exactly that (`isEnclosed_iff`).  So
`parenthesized` puts balanced text in one pair, and never in a second one
(`parenthesized_of_balanced`).
-/

namespace Shading

namespace Brackets

/-! ## Balanced text -/

/-- Square and round brackets. -/
def isBracket (c : Char) : Bool := c = '(' || c = ')' || c = '[' || c = ']'

/-- A character behind brackets that are open.  The stack has the brackets that close
them, the innermost first. -/
def step (stack : List Char) (c : Char) : Option (List Char) :=
  if c = '(' then some (')' :: stack)
  else if c = '[' then some (']' :: stack)
  else if isBracket c then
    match stack with
    | [] => none
    | top :: rest => if top = c then some rest else none
  else some stack

/-- All brackets of text are matched. -/
def Balanced (text : List Char) : Prop := text.foldlM step [] = some []

instance (text : List Char) : Decidable (Balanced text) := inferInstanceAs (Decidable (_ = _))

variable {a b text : List Char} {stack stack' base : List Char} {c : Char}

theorem step_of_not_bracket (h : isBracket c = false) : step stack c = some stack := by
  simp only [isBracket, Bool.or_eq_false_iff, decide_eq_false_iff_not] at h
  simp [step, isBracket, h]

/-- Brackets that are open before do not matter. -/
theorem step_append (h : step stack c = some stack') :
    step (stack ++ base) c = some (stack' ++ base) := by
  simp only [step] at h ⊢
  split at h
  · cases h; simp [*]
  · split at h
    · cases h; simp [*]
    · split at h
      · cases stack with
        | nil => cases h
        | cons top rest =>
          simp only [List.cons_append] at h ⊢
          split at h
          · cases h; simp [*]
          · cases h
      · cases h; simp [*]

theorem foldlM_step_append (h : text.foldlM step stack = some stack') :
    text.foldlM step (stack ++ base) = some (stack' ++ base) := by
  induction text generalizing stack with
  | nil => cases h; rfl
  | cons c rest ih =>
    obtain ⟨next, hc, hrest⟩ := Option.bind_eq_some_iff.1 h
    exact Option.bind_eq_some_iff.2 ⟨next ++ base, step_append hc, ih hrest⟩

/-- Balanced text leaves the stack as it was. -/
theorem Balanced.foldlM (h : Balanced text) (stack : List Char) :
    text.foldlM step stack = some stack := foldlM_step_append h

theorem balanced_nil : Balanced [] := rfl

theorem Balanced.append (ha : Balanced a) (hb : Balanced b) : Balanced (a ++ b) := by
  rw [Balanced, List.foldlM_append, ha]
  exact hb

/-- Balanced text in parentheses is balanced. -/
theorem Balanced.enclose (h : Balanced text) : Balanced ('(' :: (text ++ [')'])) := by
  show (text ++ [')']).foldlM step [')'] = some []
  rw [List.foldlM_append, h.foldlM]
  rfl

theorem balanced_of_forall (h : ∀ c ∈ text, isBracket c = false) : Balanced text := by
  induction text with
  | nil => rfl
  | cons c rest ih =>
    rw [Balanced, List.foldlM_cons, step_of_not_bracket (h c (.head _))]
    exact ih fun x hx => h x (.tail _ hx)

/-! ## Matching parentheses -/

/-- Text that closes a parenthesis does so behind balanced text. -/
theorem exists_close (stack : List Char) (h : text.foldlM step (stack ++ [')']) = some []) :
    ∃ inner rest, text = inner ++ ')' :: rest ∧ inner.foldlM step stack = some [] ∧
      Balanced rest := by
  induction text generalizing stack with
  | nil => simp at h
  | cons c text ih =>
    obtain ⟨next, hc, hrest⟩ := Option.bind_eq_some_iff.1 h
    cases hstep : step stack c with
    | some next' =>
      obtain rfl := Option.some.inj (hc.symm.trans (step_append hstep))
      obtain ⟨inner, rest, rfl, hinner, hbalanced⟩ := ih _ hrest
      exact ⟨c :: inner, rest, rfl, Option.bind_eq_some_iff.2 ⟨next', hstep, hinner⟩, hbalanced⟩
    | none =>
      -- Only the parenthesis at the bottom of the stack is left to be closed.
      cases stack with
      | cons top stack =>
        simp only [step, List.cons_append] at hstep hc
        grind
      | nil =>
        simp only [List.nil_append, step] at hstep hc
        obtain ⟨rfl, rfl⟩ : c = ')' ∧ next = [] := by grind
        exact ⟨[], text, rfl, rfl, hrest⟩

/-- Balanced text that opens with a parenthesis has a match for it. -/
theorem Balanced.exists_match (h : Balanced ('(' :: text)) :
    ∃ inner rest, text = inner ++ ')' :: rest ∧ Balanced inner ∧ Balanced rest :=
  exists_close [] h

/-- Balanced text that goes on behind balanced text does not close what is open before. -/
theorem Balanced.not_close (ha : Balanced a) (hab : Balanced (a ++ b)) : b.head? ≠ some ')' := by
  intro hb
  obtain ⟨rest, rfl⟩ : ∃ rest, b = ')' :: rest := by
    cases b with
    | nil => cases hb
    | cons c rest => exact ⟨rest, by rw [Option.some.inj hb]⟩
  rw [Balanced, List.foldlM_append, ha] at hab
  cases hab

/-- A parenthesis has one match. -/
theorem Balanced.eq_of_match {a' b' : List Char} (ha : Balanced a) (ha' : Balanced a')
    (h : a ++ ')' :: b = a' ++ ')' :: b') : a = a' ∧ b = b' := by
  rcases List.append_eq_append_iff.1 h with ⟨z, rfl, hz⟩ | ⟨z, rfl, hz⟩
  · cases z with
    | nil => simpa using hz
    | cons c z => exact absurd (congrArg some (List.cons.inj hz).1.symm) (ha.not_close ha')
  · cases z with
    | nil => simpa [eq_comm] using hz
    | cons c z => exact absurd (congrArg some (List.cons.inj hz).1.symm) (ha'.not_close ha)

/-- One pair of parentheses encloses text: the match of the first character is the last. -/
def Enclosed (text : List Char) : Prop := ∃ inner, Balanced inner ∧ text = '(' :: (inner ++ [')'])

theorem Enclosed.balanced (h : Enclosed text) : Balanced text := by
  obtain ⟨inner, hinner, rfl⟩ := h
  exact hinner.enclose

/-- Nothing stands behind the match of the first character. -/
theorem Enclosed.eq_nil_of_match {inner rest : List Char} (h : Enclosed text)
    (htext : text = '(' :: (inner ++ ')' :: rest)) (hinner : Balanced inner) : rest = [] := by
  obtain ⟨_, hbalanced, rfl⟩ := h
  exact (hinner.eq_of_match hbalanced (List.cons.inj htext.symm).2).2

end Brackets

/-! ## Counting parentheses -/

open Brackets

variable {text stack stack' : List Char}

/-- As long as a parenthesis is open below the stack, nothing is closed early. -/
theorem closesEarly_append {depth : Nat} (hdepth : 0 < depth) (rest : List Char)
    (h : text.foldlM step stack = some stack') :
    closesEarly (depth + stack.count ')') (text ++ rest) =
      closesEarly (depth + stack'.count ')') rest := by
  induction text generalizing stack with
  | nil => cases h; rfl
  | cons c text ih =>
    obtain ⟨next, hc, hrest⟩ := Option.bind_eq_some_iff.1 h
    rw [← ih hrest]
    simp only [step, isBracket] at hc
    rw [List.cons_append]
    by_cases hopen : c = '('
    · subst hopen
      cases hc
      simp [closesEarly, Nat.add_assoc]
    · by_cases hclose : c = ')'
      · subst hclose
        cases stack with
        | nil => cases hc
        | cons top stack =>
          obtain ⟨rfl, rfl⟩ : top = ')' ∧ stack = next := by simpa using hc
          have hpos : depth + stack.count ')' ≠ 0 := by omega
          simp only [closesEarly, List.count_cons_self, ← Nat.add_assoc, Nat.add_sub_cancel, hpos,
            decide_false, Bool.false_and, Bool.false_or]
      · have hcount : next.count ')' = stack.count ')' := by grind
        simp [closesEarly, hcount]

/-- On balanced text, counting parentheses finds the match of the first character. -/
theorem isEnclosed_iff (h : Balanced text) : isEnclosed text = true ↔ Enclosed text := by
  constructor
  · intro he
    simp only [isEnclosed, Bool.and_eq_true, decide_eq_true_eq, Bool.not_eq_true'] at he
    obtain ⟨⟨hhead, hlast⟩, hearly⟩ := he
    obtain ⟨text, rfl⟩ : ∃ rest, text = '(' :: rest := by
      cases text with
      | nil => cases hhead
      | cons c rest => exact ⟨rest, by rw [Option.some.inj hhead]⟩
    obtain ⟨inner, rest, rfl, hinner, -⟩ := h.exists_match
    cases rest with
    | nil => exact ⟨inner, hinner, rfl⟩
    | cons c rest =>
      have hinside := closesEarly_append Nat.one_pos (')' :: c :: rest) hinner
      simp only [List.count_nil, Nat.add_zero] at hinside
      simp [closesEarly, hinside] at hearly
  · rintro ⟨inner, hinner, rfl⟩
    have hinside := closesEarly_append Nat.one_pos [')'] hinner
    have hlast : ('(' :: (inner ++ [')'])).getLast? = some ')' :=
      List.getLast?_concat (l := '(' :: inner)
    simp only [List.count_nil, Nat.add_zero] at hinside
    simp [isEnclosed, hlast, closesEarly, hinside]

/-- What `parenthesized` makes of text: one pair of parentheses encloses it, the text's own or
one more, and that is so for good. -/
structure Groups (text : String) : Prop where
  enclosed : Enclosed (parenthesized text).toList
  balanced : Balanced (parenthesized text).toList
  /-- The match of the first character is the last, wherever a match is found. -/
  match_last : ∀ inner rest, (parenthesized text).toList = '(' :: (inner ++ ')' :: rest) →
    Balanced inner → rest = []
  eq_or : parenthesized text = text ∨ parenthesized text = "(" ++ text ++ ")"
  idempotent : parenthesized (parenthesized text) = parenthesized text

theorem toList_enclose (text : String) :
    ("(" ++ text ++ ")").toList = '(' :: (text.toList ++ [')']) := by simp

/-- Balanced text is put in one pair of parentheses. -/
theorem parenthesized_of_balanced {text : String} (h : Balanced text.toList) : Groups text := by
  obtain ⟨henclosed, heq⟩ : Enclosed (parenthesized text).toList ∧
      (parenthesized text = text ∨ parenthesized text = "(" ++ text ++ ")") := by
    rw [parenthesized]
    split
    · next he => exact ⟨(isEnclosed_iff h).1 he, .inl rfl⟩
    · exact ⟨⟨text.toList, h, toList_enclose text⟩, .inr rfl⟩
  exact {
    enclosed := henclosed
    balanced := henclosed.balanced
    match_last := fun _ _ htext hinner => henclosed.eq_nil_of_match htext hinner
    eq_or := heq
    idempotent := parenthesized_of_isEnclosed ((isEnclosed_iff henclosed.balanced).2 henclosed) }

end Shading
