import Mathlib.Data.List.Basic
import Shading.Target.Dialect

/-!
# The shapes of products

Three shapes of text are read apart into operands: an operator between two operands, a
call, and an index.  Their operands are *closed*: every bracket in them is closed again,
and outside of brackets there are no blanks and no commas.  So an operand ends where the
text goes on with a blank, a comma or a bracket that was not opened in it
(`closed_append_inj`), and no text has two shapes (`Shape.text_injective`).
-/

namespace Shading.Matrices

/-! ## Closed text -/

/-- The depth of brackets behind a character.  At depth zero a text ends at blanks, commas
and closing brackets. -/
def bracketStep (depth : ℕ) (c : Char) : Option ℕ :=
  if c = '(' ∨ c = '[' then some (depth + 1)
  else if depth = 0 then if c ∈ [')', ']', ' ', ','] then none else some 0
  else if c = ')' ∨ c = ']' then some (depth - 1)
  else some depth

/-- Text that is one operand. -/
def ClosedChars (l : List Char) : Prop := l.foldlM bracketStep 0 = some 0

/-- Text that is one operand. -/
def Closed (text : String) : Prop := ClosedChars text.toList

instance (l : List Char) : Decidable (ClosedChars l) :=
  inferInstanceAs (Decidable (l.foldlM bracketStep 0 = some 0))

instance (text : String) : Decidable (Closed text) :=
  inferInstanceAs (Decidable (ClosedChars text.toList))

theorem bracketStep_add {d e : ℕ} {c : Char} (k : ℕ) (h : bracketStep d c = some e) :
    bracketStep (d + k) c = some (e + k) := by
  unfold bracketStep at h ⊢
  split at h
  · next hopen =>
    rw [if_pos hopen]
    cases h
    congr 1
    omega
  · next hopen =>
    rw [if_neg hopen]
    split at h
    · next hzero =>
      split at h
      · cases h
      · next hend =>
        cases h
        subst hzero
        have hclose : ¬ (c = ')' ∨ c = ']') := fun hc => hend (by rcases hc with rfl | rfl <;> simp)
        by_cases hk : k = 0
        · simp [hk, hend]
        · simp [hk, hclose]
    · next hzero =>
      rw [if_neg (by omega)]
      split at h
      · next hclose =>
        rw [if_pos hclose]
        cases h
        congr 1
        omega
      · next hclose =>
        rw [if_neg hclose]
        cases h
        rfl

theorem foldlM_add {l : List Char} {d e : ℕ} (k : ℕ) (h : l.foldlM bracketStep d = some e) :
    l.foldlM bracketStep (d + k) = some (e + k) := by
  induction l generalizing d with
  | nil => cases h; rfl
  | cons c l ih =>
    rw [List.foldlM_cons, Option.bind_eq_bind, Option.bind_eq_some_iff] at h
    obtain ⟨mid, hstep, hrest⟩ := h
    rw [List.foldlM_cons, bracketStep_add k hstep]
    exact ih hrest

/-- Closed text leaves every depth as it is. -/
theorem ClosedChars.foldlM {l : List Char} (h : ClosedChars l) (depth : ℕ) :
    l.foldlM bracketStep depth = some depth := by
  simpa using foldlM_add depth h

/-- A character that no closed text goes on with. -/
def Ends (c : Char) : Prop := bracketStep 0 c = none

theorem ClosedChars.not_append {a s : List Char} {x : Char} (ha : ClosedChars a) (hx : Ends x) :
    ¬ ClosedChars (a ++ x :: s) := by
  intro h
  rw [ClosedChars, List.foldlM_append, ha.foldlM] at h
  simp [List.foldlM_cons, show bracketStep 0 x = none from hx] at h

/-- A bracket that opens before closed text stays open. -/
theorem ClosedChars.not_open {a s : List Char} (ha : ClosedChars a) :
    ¬ ClosedChars (s ++ '[' :: a) := by
  intro h
  rw [ClosedChars, List.foldlM_append, Option.bind_eq_bind, Option.bind_eq_some_iff] at h
  obtain ⟨depth, -, hrest⟩ := h
  have hopen : bracketStep depth '[' = some (depth + 1) := by simp [bracketStep]
  rw [List.foldlM_cons, hopen] at hrest
  have := (ha.foldlM (depth + 1)).symm.trans hrest
  simp at this

/-- Closed text ends where it cannot go on. -/
theorem closed_append_inj {a b : List Char} {x y : Char} {s t : List Char} (ha : ClosedChars a)
    (hb : ClosedChars b) (hx : Ends x) (hy : Ends y) (h : a ++ x :: s = b ++ y :: t) :
    a = b ∧ x = y ∧ s = t := by
  rcases List.append_eq_append_iff.1 h with ⟨c, rfl, hrest⟩ | ⟨c, rfl, hrest⟩
  · rcases List.cons_eq_append_iff.1 hrest with ⟨rfl, hcons⟩ | ⟨c, rfl, -⟩
    · obtain ⟨rfl, rfl⟩ := List.cons.inj hcons
      exact ⟨(List.append_nil a).symm, rfl, rfl⟩
    · exact absurd hb (ha.not_append hx)
  · rcases List.cons_eq_append_iff.1 hrest with ⟨rfl, hcons⟩ | ⟨c, rfl, -⟩
    · obtain ⟨rfl, rfl⟩ := List.cons.inj hcons
      exact ⟨List.append_nil b, rfl, rfl⟩
    · exact absurd ha (hb.not_append hy)

/-- The last operand starts behind the bracket that opens it. -/
theorem append_closed_inj {a b : List Char} {s t : List Char} (ha : ClosedChars a)
    (hb : ClosedChars b) (h : s ++ '[' :: a = t ++ '[' :: b) : s = t ∧ a = b := by
  rcases List.append_eq_append_iff.1 h with ⟨c, rfl, hrest⟩ | ⟨c, rfl, hrest⟩
  · rcases List.cons_eq_append_iff.1 hrest with ⟨rfl, hcons⟩ | ⟨c, rfl, rfl⟩
    · exact ⟨(List.append_nil s).symm, (List.cons.inj hcons).2.symm⟩
    · exact absurd ha hb.not_open
  · rcases List.cons_eq_append_iff.1 hrest with ⟨rfl, hcons⟩ | ⟨c, rfl, rfl⟩
    · exact ⟨List.append_nil t, (List.cons.inj hcons).2⟩
    · exact absurd hb ha.not_open

/-- Closed texts with commas between them are told apart. -/
theorem intercalate_inj {l k : List (List Char)} {s t : List Char} (hl : ∀ a ∈ l, ClosedChars a)
    (hk : ∀ b ∈ k, ClosedChars b) (hl' : l ≠ []) (hk' : k ≠ [])
    (h : [',', ' '].intercalate l ++ ')' :: s = [',', ' '].intercalate k ++ ')' :: t) :
    l = k ∧ s = t := by
  induction l generalizing k with
  | nil => exact absurd rfl hl'
  | cons a l ih =>
    obtain ⟨b, k, rfl⟩ := List.exists_cons_of_ne_nil hk'
    obtain ⟨ha, hrestl⟩ := List.forall_mem_cons.1 hl
    obtain ⟨hb, hrestk⟩ := List.forall_mem_cons.1 hk
    have hcomma : Ends ',' := rfl
    have hclose : Ends ')' := rfl
    cases l with
    | nil =>
      cases k with
      | nil =>
        simp only [List.intercalate_singleton] at h
        obtain ⟨rfl, -, rfl⟩ := closed_append_inj ha hb hclose hclose h
        exact ⟨rfl, rfl⟩
      | cons b' k =>
        simp only [List.intercalate_singleton, List.intercalate_cons_cons, List.append_assoc,
          List.cons_append] at h
        obtain ⟨-, hne, -⟩ := closed_append_inj ha hb hclose hcomma h
        exact absurd hne (by decide)
    | cons a' l =>
      cases k with
      | nil =>
        simp only [List.intercalate_singleton, List.intercalate_cons_cons, List.append_assoc,
          List.cons_append] at h
        obtain ⟨-, hne, -⟩ := closed_append_inj ha hb hcomma hclose h
        exact absurd hne (by decide)
      | cons b' k =>
        simp only [List.intercalate_cons_cons, List.append_assoc, List.cons_append,
          List.nil_append] at h
        obtain ⟨rfl, -, hrest⟩ := closed_append_inj ha hb hcomma hcomma h
        obtain ⟨htail, rfl⟩ := ih hrestl hrestk (by simp) (by simp) (List.cons.inj hrest).2
        exact ⟨congrArg _ htail, rfl⟩

/-- Inside of brackets there may be commas. -/
theorem foldlM_intercalate {l : List (List Char)} (depth : ℕ) (h : ∀ a ∈ l, ClosedChars a) :
    ([',', ' '].intercalate l).foldlM bracketStep (depth + 1) = some (depth + 1) := by
  have hseparator : [',', ' '].foldlM bracketStep (depth + 1) = some (depth + 1) := by
    simp [List.foldlM_cons, bracketStep]
  induction l with
  | nil => rfl
  | cons a l ih =>
    obtain ⟨ha, hl⟩ := List.forall_mem_cons.1 h
    cases l with
    | nil => simpa using ha.foldlM (depth + 1)
    | cons b l =>
      rw [List.intercalate_cons_cons, List.foldlM_append, List.foldlM_append, ha.foldlM,
        Option.bind_eq_bind, Option.bind_some, hseparator, Option.bind_some]
      exact ih hl

/-! ## Shapes -/

/-- The functions whose calls are read apart. -/
def functionNames : List String := ["mul", "transpose", "mat4", "float4x4"]

/-- The operators that are read apart. -/
def linearOps : List BinaryOp := [.add, .sub, .mul]

/-- A text with operands. -/
inductive Shape where
  /-- An operator between two operands. -/
  | operator (op : BinaryOp) (lhs rhs : String)
  | call (function : String) (args : List String)
  | index (base position : String)

namespace Shape

def text : Shape → String
  | .operator op lhs rhs => "(" ++ lhs ++ " " ++ op.symbol ++ " " ++ rhs ++ ")"
  | .call function args => function ++ "(" ++ ", ".intercalate args ++ ")"
  | .index base position => base ++ "[" ++ position ++ "]"

/-- The operands are closed. -/
def Closed : Shape → Prop
  | .operator op lhs rhs => op ∈ linearOps ∧ Matrices.Closed lhs ∧ Matrices.Closed rhs
  | .call function args =>
    function ∈ functionNames ∧ args ≠ [] ∧ ∀ arg ∈ args, Matrices.Closed arg
  | .index base position => Matrices.Closed base ∧ Matrices.Closed position

/-! ### Characters -/

theorem toList_operator (op : BinaryOp) (lhs rhs : String) :
    (operator op lhs rhs).text.toList =
      '(' :: (lhs.toList ++ ' ' :: (op.symbol.toList ++ ' ' :: (rhs.toList ++ [')']))) := by
  simp [text]

theorem toList_call (function : String) (args : List String) :
    (call function args).text.toList =
      function.toList ++ '(' :: ([',', ' '].intercalate (args.map String.toList) ++ [')']) := by
  simp [text, String.toList_intercalate]

theorem toList_index (base position : String) :
    (index base position).text.toList = base.toList ++ '[' :: (position.toList ++ [']']) := by
  simp [text]

theorem function_inj {f g : String} {s t : List Char} (hf : f ∈ functionNames)
    (hg : g ∈ functionNames) (h : f.toList ++ '(' :: s = g.toList ++ '(' :: t) :
    f = g ∧ s = t := by
  simp only [functionNames, List.mem_cons, List.not_mem_nil, or_false] at hf hg
  rcases hf with rfl | rfl | rfl | rfl <;> rcases hg with rfl | rfl | rfl | rfl <;> simp_all

theorem symbol_inj {op op' : BinaryOp} {s t : List Char} (hop : op ∈ linearOps)
    (hop' : op' ∈ linearOps) (h : op.symbol.toList ++ ' ' :: s = op'.symbol.toList ++ ' ' :: t) :
    op = op' ∧ s = t := by
  simp only [linearOps, List.mem_cons, List.not_mem_nil, or_false] at hop hop'
  rcases hop with rfl | rfl | rfl <;> rcases hop' with rfl | rfl | rfl <;>
    simp_all [BinaryOp.symbol]

theorem closed_symbol {op : BinaryOp} (h : op ∈ linearOps) : ClosedChars op.symbol.toList := by
  simp only [linearOps, List.mem_cons, List.not_mem_nil, or_false] at h
  rcases h with rfl | rfl | rfl <;> decide

theorem closed_function {f : String} (h : f ∈ functionNames) : ClosedChars f.toList := by
  simp only [functionNames, List.mem_cons, List.not_mem_nil, or_false] at h
  rcases h with rfl | rfl | rfl | rfl <;> decide

/-- An index is the only shape that ends in a square bracket. -/
theorem getLast?_text (s : Shape) :
    s.text.toList.getLast? = some (match s with | .index _ _ => ']' | _ => ')') := by
  cases s with
  | operator op lhs rhs => simp [toList_operator, List.getLast?_cons]
  | call function args => simp [toList_call, List.getLast?_cons]
  | index base position => simp [toList_index, List.getLast?_cons]

/-- An operator is the only shape that starts with a bracket. -/
theorem operator_ne_call {op : BinaryOp} {lhs rhs function : String} {args : List String}
    (h : function ∈ functionNames) :
    (operator op lhs rhs).text ≠ (call function args).text := by
  intro heq
  have hlist := congrArg String.toList heq
  rw [toList_operator, toList_call] at hlist
  simp only [functionNames, List.mem_cons, List.not_mem_nil, or_false] at h
  rcases h with rfl | rfl | rfl | rfl <;> simp at hlist

/-- No text has two shapes. -/
theorem text_injective {s t : Shape} (hs : s.Closed) (ht : t.Closed) (h : s.text = t.text) :
    s = t := by
  have hlist := congrArg String.toList h
  have hlast := congrArg List.getLast? hlist
  rw [getLast?_text, getLast?_text] at hlast
  have hclose : Ends ')' := rfl
  have hblank : Ends ' ' := rfl
  cases s with
  | operator op lhs rhs =>
    cases t with
    | operator op' lhs' rhs' =>
      obtain ⟨hop, hlhs, hrhs⟩ := hs
      obtain ⟨hop', hlhs', hrhs'⟩ := ht
      rw [toList_operator, toList_operator] at hlist
      obtain ⟨hl, -, hrest⟩ :=
        closed_append_inj hlhs hlhs' hblank hblank (List.cons.inj hlist).2
      obtain ⟨rfl, hend⟩ := symbol_inj hop hop' hrest
      obtain ⟨hr, -, -⟩ := closed_append_inj hrhs hrhs' hclose hclose hend
      rw [String.toList_inj.1 hl, String.toList_inj.1 hr]
    | call function args => exact absurd h (operator_ne_call ht.1)
    | index base position => simp at hlast
  | call function args =>
    cases t with
    | operator op lhs rhs => exact absurd h.symm (operator_ne_call hs.1)
    | call function' args' =>
      obtain ⟨hf, hne, hargs⟩ := hs
      obtain ⟨hf', hne', hargs'⟩ := ht
      rw [toList_call, toList_call] at hlist
      obtain ⟨rfl, hrest⟩ := function_inj hf hf' hlist
      obtain ⟨hmap, -⟩ := intercalate_inj (List.forall_mem_map.2 hargs)
        (List.forall_mem_map.2 hargs') (by simpa using hne) (by simpa using hne') hrest
      rw [List.map_injective_iff.2 (fun _ _ => String.toList_injective) hmap]
    | index base position => simp at hlast
  | index base position =>
    cases t with
    | operator op lhs rhs => simp at hlast
    | call function args => simp at hlast
    | index base' position' =>
      obtain ⟨-, hposition⟩ := hs
      obtain ⟨-, hposition'⟩ := ht
      rw [toList_index, toList_index, ← List.cons_append, ← List.cons_append,
        ← List.append_assoc, ← List.append_assoc] at hlist
      obtain ⟨hbase, hp⟩ :=
        append_closed_inj hposition hposition' (List.append_cancel_right hlist)
      rw [String.toList_inj.1 hbase, String.toList_inj.1 hp]

/-- A shape with closed operands is closed itself. -/
theorem closed_text {s : Shape} (h : s.Closed) : Matrices.Closed s.text := by
  have hopen : ∀ depth, bracketStep depth '(' = some (depth + 1) := by simp [bracketStep]
  have hindex : bracketStep 0 '[' = some 1 := rfl
  have hblank : bracketStep 1 ' ' = some 1 := rfl
  have hclose : bracketStep 1 ')' = some 0 := rfl
  have hclose' : bracketStep 1 ']' = some 0 := rfl
  rw [Matrices.Closed, ClosedChars]
  cases s with
  | operator op lhs rhs =>
    obtain ⟨hop, hlhs, hrhs⟩ := h
    rw [toList_operator]
    simp [List.foldlM_cons, List.foldlM_append, hopen, hblank, hclose, hlhs.foldlM 1,
      (closed_symbol hop).foldlM 1, hrhs.foldlM 1]
  | call function args =>
    obtain ⟨hf, -, hargs⟩ := h
    rw [toList_call]
    simp [List.foldlM_cons, List.foldlM_append, hopen, hclose, (closed_function hf).foldlM 0,
      foldlM_intercalate 0 (List.forall_mem_map.2 hargs)]
  | index base position =>
    obtain ⟨hbase, hposition⟩ := h
    rw [toList_index]
    simp [List.foldlM_cons, List.foldlM_append, hindex, hclose', hbase.foldlM 0,
      hposition.foldlM 1]

end Shape

/-! ## Words -/

/-- Text without brackets, blanks and commas. -/
def IsWord (text : String) : Prop := ∀ c ∈ text.toList, c ∉ ['(', ')', '[', ']', ' ', ',']

theorem IsWord.closed {text : String} (h : IsWord text) : Closed text := by
  have hchars : ∀ l : List Char, (∀ c ∈ l, c ∉ ['(', ')', '[', ']', ' ', ',']) → ClosedChars l := by
    intro l hl
    induction l with
    | nil => rfl
    | cons c l ih =>
      obtain ⟨hc, hl⟩ := List.forall_mem_cons.1 hl
      have hstep : bracketStep 0 c = some 0 := by
        simp only [List.mem_cons, List.not_mem_nil, or_false, not_or] at hc
        simp [bracketStep, hc]
      rw [ClosedChars, List.foldlM_cons, hstep]
      exact ih hl
  exact hchars _ h

/-- Every shape has a bracket. -/
theorem IsWord.text_ne {text : String} (h : IsWord text) (s : Shape) : s.text ≠ text := by
  rintro rfl
  cases s with
  | operator op lhs rhs => exact h '(' (by simp [Shape.toList_operator]) (by simp)
  | call function args => exact h '(' (by simp [Shape.toList_call]) (by simp)
  | index base position => exact h '[' (by simp [Shape.toList_index]) (by simp)

end Shading.Matrices
