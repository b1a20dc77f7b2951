import Mathlib.Data.List.Infix
import Shading.Proofs.Target.Spelling

/-!
# Two signs in a row

The symbol of an operator with one operand is written right before or behind the operand,
and a negative constant starts with a sign.  Two equal signs in a row are the symbol of an
increment or a decrement, or a negation and the sign of the constant behind it
(`Dialect.Doubled`): no text ends in a sign, only negative constants start with one, and no
frame has two (`Frame.Quiet`).

Where the text of a part stands in the text of an expression is read off the frames
(`Dialect.Shows`).
-/

namespace Shading

open Shading.Core (Expr)

namespace UnaryOp

variable {op : UnaryOp} {before rest : List Char} {s : Char}

/-- Only the symbols of increments and decrements are a sign twice. -/
theorem symbol_of_pair (h : op.symbol.toList = before ++ s :: s :: rest) :
    before = [] ∧ op.symbol.toList = [s, s] ∧ op.isMutating = true := by
  have hlength : op.symbol.toList.length ≤ 2 := by cases op <;> decide
  rw [h, List.length_append, List.length_cons, List.length_cons] at hlength
  obtain rfl := List.eq_nil_of_length_eq_zero (l := before) (by omega)
  obtain rfl := List.eq_nil_of_length_eq_zero (l := rest) (by omega)
  refine ⟨rfl, h, ?_⟩
  cases op <;> first | rfl | simp [symbol] at h

theorem eq_negate_of_symbol (hop : op.isMutating = false)
    (h : op.symbol.toList = before ++ ['-']) : op = .negate ∧ before = [] := by
  have hlast := congrArg List.getLast? h
  rw [List.getLast?_concat] at hlast
  cases op with
  | negate =>
    have hbefore : [] ++ ['-'] = before ++ ['-'] := h
    exact ⟨rfl, (List.append_cancel_right hbefore).symm⟩
  | not | bitNot => cases hlast
  | _ => cases hop

end UnaryOp

/-! ## Texts -/

def signs : List Char := ['+', '-']

theorem mem_joining {c : Char} (h : c ∈ signs) : c ∈ joining := by
  simp only [joining, signs, List.mem_cons, List.not_mem_nil, or_false] at h ⊢
  tauto

section Signs

variable {a b before after : List Char} {s : Char}

/-- A character twice in a row in what is put together stands on one side, or once on each. -/
theorem pair_of_append (h : a ++ b = before ++ s :: s :: after) :
    (∃ rest, a = before ++ s :: s :: rest) ∨ (a = before ++ [s] ∧ b = s :: after) ∨
      ∃ inner, before = a ++ inner ∧ b = inner ++ s :: s :: after := by
  rcases List.append_eq_append_iff.1 h with ⟨inner, rfl, hb⟩ | ⟨rest, rfl, hrest⟩
  · exact .inr (.inr ⟨inner, rfl, hb⟩)
  · rcases rest with _ | ⟨x, _ | ⟨y, rest⟩⟩
    · exact .inr (.inr ⟨[], by simp, hrest.symm⟩)
    · cases hrest
      exact .inr (.inl ⟨rfl, rfl⟩)
    · cases hrest
      exact .inl ⟨rest, rfl⟩

theorem last_append (ha : a.getLast? ≠ some s) (hb : b.getLast? ≠ some s) :
    (a ++ b).getLast? ≠ some s := by
  rw [List.getLast?_append]
  cases h : b.getLast? with
  | none => simpa using ha
  | some c => simpa [h] using hb

/-- Text without two equal signs in a row, and without a sign at its end. -/
structure Quiet (text : List Char) : Prop where
  single : ∀ s ∈ signs, ¬ [s, s] <:+: text
  last : ∀ s ∈ signs, text.getLast? ≠ some s

instance (text : List Char) : Decidable (Quiet text) :=
  decidable_of_iff ((∀ s ∈ signs, ¬ [s, s] <:+: text) ∧ ∀ s ∈ signs, text.getLast? ≠ some s)
    ⟨fun h => ⟨h.1, h.2⟩, fun h => ⟨h.single, h.last⟩⟩

theorem quiet_of_forall (h : ∀ c ∈ a, c ∉ joining) : Quiet a where
  single s hs hpair := h s (hpair.subset (.head _)) (mem_joining hs)
  last s hs hlast := h s (List.mem_of_getLast? hlast) (mem_joining hs)

/-- A sign between text without signs and text that starts with no sign. -/
theorem Quiet.signed (ha : ∀ c ∈ a, c ∉ joining) (hb : Quiet b) (hne : b ≠ [])
    (hfirst : ∀ c, b.head? = some c → c ∉ joining) : Quiet (a ++ '-' :: b) where
  single s hs hpair := by
    obtain ⟨before, after, htext⟩ := hpair
    rw [List.append_assoc] at htext
    have hleft : s ∉ a := fun hmem => ha s hmem (mem_joining hs)
    rcases pair_of_append htext.symm with ⟨rest, rfl⟩ | ⟨rfl, hright⟩ | ⟨inner, -, hright⟩
    · exact hleft (by simp)
    · exact hleft (by simp)
    · cases inner with
      | nil =>
        obtain ⟨rfl, rfl⟩ := List.cons.inj hright
        exact hfirst _ rfl (mem_joining hs)
      | cons c inner =>
        obtain ⟨-, rfl⟩ := List.cons.inj hright
        exact hb.single s hs ⟨inner, after, by simp⟩
  last s hs := by
    rw [List.getLast?_append_of_ne_nil _ (List.cons_ne_nil _ _), List.getLast?_cons,
      List.getLast?_eq_some_getLast hne]
    exact fun hlast => hb.last s hs (by rw [List.getLast?_eq_some_getLast hne, ← hlast]; rfl)

end Signs

theorem Name.IsText.plain {text : List Char} (h : IsText text) : ∀ c ∈ text, c ∉ joining :=
  fun c hc => (not_of_isNameChar (h.chars c hc)).2

/-- A numeral starts with no sign. -/
theorem Numeral.first {text : List Char} (h : Numeral text) :
    text ≠ [] ∧ ∀ c, text.head? = some c → c ∉ joining := by
  cases h with
  | plain h => exact ⟨h.ne_nil, fun c hc => h.plain c (List.mem_of_head? hc)⟩
  | @signed before behind h _ =>
    refine ⟨by simp, fun c hc => ?_⟩
    rw [List.head?_append_of_ne_nil _ h.ne_nil] at hc
    exact h.plain c (List.mem_of_head? hc)

theorem Numeral.quiet {text : List Char} (h : Numeral text) : Quiet text := by
  cases h with
  | plain h => exact quiet_of_forall h.plain
  | signed hbefore hbehind =>
    exact .signed hbefore.plain (quiet_of_forall hbehind.plain) hbehind.ne_nil
      fun c hc => hbehind.plain c (List.mem_of_head? hc)

/-! ## Parts in frames -/

namespace Piece

variable {piece : Piece} {i : Nat}

/-- What is put before the text of a part. -/
def lead (texts : List String) : Piece → List Char
  | .enclosed index => if isEnclosed (texts.getD index "").toList then [] else ['(']
  | .word _ | .part _ => []

/-- The text of a part is inserted between characters that are parentheses. -/
theorem exists_fill (texts : List String) (h : piece.part? = some i) : ∃ trail,
    (piece.fill texts).toList = piece.lead texts ++ ((texts.getD i "").toList ++ trail) ∧
    (∀ c ∈ piece.lead texts, c = '(') ∧ ∀ c ∈ trail, c = ')' := by
  cases piece with
  | word => cases h
  | part =>
    cases h
    exact ⟨[], by simp [fill, lead]⟩
  | enclosed =>
    cases h
    rw [fill, parenthesized, lead]
    split
    · exact ⟨[], by simp⟩
    · exact ⟨[')'], by simp⟩

end Piece

theorem not_sign_of_forall {text : List Char} {s bracket : Char} (hs : s ∈ signs)
    (hbracket : bracket ∉ signs) (h : ∀ c ∈ text, c = bracket) : s ∉ text :=
  fun hmem => hbracket (h s hmem ▸ hs)

namespace Frame

variable {texts : List String} {piece : Piece} {frame : Frame} {s : Char}

/-- The words of a frame have no two equal signs in a row, and end in none. -/
def Quiet (frame : Frame) : Prop := ∀ text, Piece.word text ∈ frame → Shading.Quiet text.toList

theorem quiet_of_plain (h : ∀ c ∈ frame.chars, c ∉ joining) : frame.Quiet := fun _ htext =>
  quiet_of_forall fun c hc => h c (List.mem_flatMap.2 ⟨_, htext, hc⟩)

theorem Quiet.tail (h : Quiet (piece :: frame)) : frame.Quiet :=
  fun text htext => h text (.tail _ htext)

/-- A piece ends in no sign when words and texts do not. -/
theorem Quiet.last_piece (h : Quiet (piece :: frame)) (hs : s ∈ signs)
    (htexts : ∀ i, (texts.getD i "").toList.getLast? ≠ some s) :
    (piece.fill texts).toList.getLast? ≠ some s := by
  cases hpart : piece.part? with
  | none =>
    cases piece with
    | word => exact (h _ (.head _)).last s hs
    | _ => cases hpart
  | some i =>
    obtain ⟨trail, hfill, hlead, htrail⟩ := Piece.exists_fill texts hpart
    have hlead := not_sign_of_forall hs (by decide) hlead
    have htrail := not_sign_of_forall hs (by decide) htrail
    rw [hfill]
    exact last_append (fun hlast => hlead (List.mem_of_getLast? hlast))
      (last_append (htexts i) fun hlast => htrail (List.mem_of_getLast? hlast))

theorem Quiet.last_fill (h : frame.Quiet) (hs : s ∈ signs)
    (htexts : ∀ i, (texts.getD i "").toList.getLast? ≠ some s) :
    (frame.fill texts).toList.getLast? ≠ some s := by
  induction frame with
  | nil => simp
  | cons piece rest ih =>
    rw [fill_cons, String.toList_append]
    exact last_append (h.last_piece hs htexts) (ih h.tail)

/-- In a piece, two equal signs in a row stand in the text of a part. -/
theorem Quiet.exists_of_pair_piece (h : Quiet (piece :: frame)) (hs : s ∈ signs)
    (htexts : ∀ i, (texts.getD i "").toList.getLast? ≠ some s) {before after : List Char}
    (hpair : (piece.fill texts).toList = before ++ s :: s :: after) :
    ∃ i inner rest, piece.part? = some i ∧ (texts.getD i "").toList = inner ++ s :: s :: rest ∧
      before = piece.lead texts ++ inner := by
  cases hpart : piece.part? with
  | none =>
    cases piece with
    | word text =>
      have hword : text.toList = before ++ s :: s :: after := hpair
      exact absurd ⟨before, after, by simp [hword]⟩ ((h _ (.head _)).single s hs)
    | _ => cases hpart
  | some i =>
    obtain ⟨trail, hfill, hlead, htrail⟩ := Piece.exists_fill texts hpart
    have hlead := not_sign_of_forall hs (by decide) hlead
    have htrail := not_sign_of_forall hs (by decide) htrail
    rw [hfill] at hpair
    rcases pair_of_append hpair with ⟨rest, hleft⟩ | ⟨hleft, -⟩ | ⟨inner, rfl, hright⟩
    · exact absurd (by simp [hleft]) hlead
    · exact absurd (by simp [hleft]) hlead
    · rcases pair_of_append hright with ⟨rest, htext⟩ | ⟨htext, -⟩ | ⟨_, -, hbehind⟩
      · exact ⟨i, inner, rest, rfl, htext, rfl⟩
      · exact absurd (by rw [htext, List.getLast?_concat]) (htexts i)
      · exact absurd (by simp [hbehind]) htrail

/-- In a frame, two equal signs in a row stand in the text of a part. -/
theorem Quiet.exists_of_pair (h : frame.Quiet) (hs : s ∈ signs)
    (htexts : ∀ i, (texts.getD i "").toList.getLast? ≠ some s) {before after : List Char}
    (hpair : (frame.fill texts).toList = before ++ s :: s :: after) :
    ∃ front piece back i inner rest, frame = front ++ piece :: back ∧ piece.part? = some i ∧
      (texts.getD i "").toList = inner ++ s :: s :: rest ∧
      before = (fill texts front).toList ++ (piece.lead texts ++ inner) := by
  induction frame generalizing before with
  | nil => simp at hpair
  | cons piece rest ih =>
    rw [fill_cons, String.toList_append] at hpair
    rcases pair_of_append hpair with ⟨tail, hpiece⟩ | ⟨hpiece, -⟩ | ⟨inner, rfl, hrest⟩
    · obtain ⟨i, inner, tail, hpart, htext, rfl⟩ := h.exists_of_pair_piece hs htexts hpiece
      exact ⟨[], piece, rest, i, inner, tail, rfl, hpart, htext, rfl⟩
    · exact absurd (by simp [hpiece]) (h.last_piece hs htexts)
    · obtain ⟨front, found, back, i, inner, tail, rfl, hpart, htext, rfl⟩ := ih h.tail hrest
      exact ⟨piece :: front, found, back, i, inner, tail, rfl, hpart, htext, by simp⟩

end Frame

/-! ## Where parts and symbols stand -/

/-- The text at the place of an element is in step with it. -/
theorem getD_of_forall₂ {α : Type} {R : α → String → Prop} {list : List α} {texts : List String}
    (h : List.Forall₂ R list texts) {i : Nat} {a : α} (hi : list[i]? = some a) :
    R a (texts.getD i "") := by
  obtain ⟨hlt, rfl⟩ := List.getElem?_eq_some_iff.1 hi
  have hlt' : i < texts.length := h.length_eq ▸ hlt
  have ha := List.Forall₂.get h hlt hlt'
  simpa [List.getElem?_eq_getElem hlt'] using ha

namespace Dialect

variable {d : Dialect} {c : Context} {x e operand : Expr} {op : UnaryOp} {before : List Char}

/-- The text of a part stands in the text of an expression, behind some characters. -/
inductive Shows (d : Dialect) (c : Context) (x : Expr) : Expr → List Char → Prop where
  | self : Shows d c x x []
  | part {e texts front piece back i child before} : d.Framed c e (front ++ piece :: back) →
      d.PartTexts c e texts → piece.part? = some i → e.children[i]? = some child →
      Shows d c x child before →
      Shows d c x e ((Frame.fill texts front).toList ++ (piece.lead texts ++ before))

theorem Shows.within (h : d.Shows c x e before) : x.Within e := by
  induction h with
  | self => exact .self
  | part _ _ _ hi _ ih => exact .of_child (List.mem_of_getElem? hi) ih

/-- What is shown stands there. -/
theorem Shows.exists_text (h : d.Shows c x e before) {text : String}
    (htext : d.expr c e = .ok text) : ∃ inner after, d.expr c x = .ok inner ∧
      text.toList = before ++ (inner.toList ++ after) := by
  induction h generalizing text with
  | self => exact ⟨text, [], htext, by simp⟩
  | @part e texts front piece back i child before hframe hparts hpart hi _ ih =>
    obtain ⟨inner, after, hinner, hchild⟩ := ih (getD_of_forall₂ hparts hi)
    obtain ⟨trail, hfill, -⟩ := Piece.exists_fill texts hpart
    obtain rfl := Except.ok.inj (htext.symm.trans (hframe.expr_eq hparts))
    refine ⟨inner, after ++ (trail ++ (Frame.fill texts back).toList), hinner, ?_⟩
    simp only [Frame.fill_append, Frame.fill_cons, String.toList_append, hfill, hchild,
      List.append_assoc]

/-- The symbol of an operator with one operand stands in the text of an expression. -/
inductive SymbolAt (d : Dialect) (c : Context) (e : Expr) :
    UnaryOp → Expr → List Char → Prop where
  | before {op operand ty before} : op.isPostfix = false →
      d.Shows c (.unary op operand ty) e before → SymbolAt d c e op operand (before ++ ['('])
  | behind {op operand ty before text} : op.isPostfix = true →
      d.Shows c (.unary op operand ty) e before → d.expr c operand = .ok text →
      SymbolAt d c e op operand (before ++ '(' :: text.toList)

theorem SymbolAt.exists_within (h : d.SymbolAt c e op operand before) :
    ∃ ty, (Expr.unary op operand ty).Within e := by
  cases h with
  | before _ h => exact ⟨_, h.within⟩
  | behind _ h => exact ⟨_, h.within⟩

/-- Behind a symbol before an operand stands the text of the operand. -/
theorem SymbolAt.exists_operand (h : d.SymbolAt c e op operand before)
    (hop : op.isPostfix = false) {text : String} (htext : d.expr c e = .ok text) :
    ∃ inner after, d.expr c operand = .ok inner ∧
      text.toList = before ++ (op.symbol.toList ++ (inner.toList ++ ')' :: after)) := by
  cases h with
  | behind hop' => cases hop.symm.trans hop'
  | before _ h =>
    obtain ⟨whole, after, hwhole, hlist⟩ := h.exists_text htext
    simp only [expr, bind_eq_ok, pure_eq_ok, unaryText, hop] at hwhole
    obtain ⟨inner, hinner, rfl⟩ := hwhole
    exact ⟨inner, after, hinner, by simpa using hlist⟩

/-- A symbol stands where it is said to. -/
theorem SymbolAt.exists_text (h : d.SymbolAt c e op operand before) {text : String}
    (htext : d.expr c e = .ok text) :
    ∃ after, text.toList = before ++ (op.symbol.toList ++ after) := by
  cases hop : op.isPostfix with
  | false =>
    obtain ⟨inner, after, -, hlist⟩ := h.exists_operand hop htext
    exact ⟨_, hlist⟩
  | true =>
    cases h with
    | before hop' => cases hop.symm.trans hop'
    | behind _ h hoperand =>
      obtain ⟨whole, after, hwhole, hlist⟩ := h.exists_text htext
      simp only [expr, bind_eq_ok, pure_eq_ok, unaryText, hop, hoperand] at hwhole
      obtain ⟨_, hinner, rfl⟩ := hwhole
      obtain rfl := Except.ok.inj hinner
      exact ⟨')' :: after, by simpa using hlist⟩

/-- A symbol in the text of a part stands in the text of the expression. -/
theorem SymbolAt.part {texts : List String} {front back : Frame} {piece : Piece} {i : Nat}
    {child : Expr} (h : d.SymbolAt c child op operand before)
    (hframe : d.Framed c e (front ++ piece :: back)) (hparts : d.PartTexts c e texts)
    (hpart : piece.part? = some i) (hi : e.children[i]? = some child) :
    d.SymbolAt c e op operand
      ((Frame.fill texts front).toList ++ (piece.lead texts ++ before)) := by
  cases h with
  | before hop h =>
    simpa [List.append_assoc] using SymbolAt.before hop (h.part hframe hparts hpart hi)
  | behind hop h htext =>
    simpa [List.append_assoc] using SymbolAt.behind hop (h.part hframe hparts hpart hi) htext

end Dialect

/-! ## Signs of expressions -/

/-- A negative constant. -/
def Core.Expr.isNegative : Expr → Bool
  | .literal value _ => value.isNegative
  | _ => false

/-- A constant is a scalar. -/
theorem Core.Expr.Typed.isNegative_eq {p : Program} {e : Expr} (h : e.Typed p)
    (hty : ∀ kind, e.ty ≠ .scalar kind) : e.isNegative = false := by
  cases h with
  | @literal value => cases value <;> exact absurd rfl (hty _)
  | _ => rfl

namespace Dialect

variable {p : Program} {d : Dialect} {c : Context} {e : Expr} {frame : Frame}
  {texts : List String} {s : Char} {before : List Char}

/-- Two equal signs in a row are the symbol of an increment or a decrement, or a negation and
the sign of the constant behind it. -/
inductive Doubled (d : Dialect) (c : Context) (e : Expr) (s : Char) (before : List Char) :
    Prop where
  | symbol {op : UnaryOp} {operand : Expr} : op.isMutating = true → op.symbol.toList = [s, s] →
      d.SymbolAt c e op operand before → Doubled d c e s before
  | negation {operand : Expr} : s = '-' → operand.isNegative = true →
      d.SymbolAt c e .negate operand before → Doubled d c e s before

/-- The text of an expression starts with a sign if it is a negative constant only, ends in
none, and has two in a row for a reason. -/
structure KeepsSigns (d : Dialect) (c : Context) (e : Expr) (text : String) : Prop where
  first : ∃ x rest, text.toList = x :: rest ∧ (x ∈ joining → e.isNegative = true) ∧
    (e.isNegative = true → x = '-')
  last : ∀ s ∈ signs, text.toList.getLast? ≠ some s
  pair : ∀ s ∈ signs, ∀ before after, text.toList = before ++ s :: s :: after →
    d.Doubled c e s before

theorem Doubled.part {front back : Frame} {piece : Piece} {i : Nat} {child : Expr}
    (h : d.Doubled c child s before) (hframe : d.Framed c e (front ++ piece :: back))
    (hparts : d.PartTexts c e texts) (hpart : piece.part? = some i)
    (hi : e.children[i]? = some child) :
    d.Doubled c e s ((Frame.fill texts front).toList ++ (piece.lead texts ++ before)) := by
  cases h with
  | symbol hop hs h => exact .symbol hop hs (h.part hframe hparts hpart hi)
  | negation hs hoperand h => exact .negation hs hoperand (h.part hframe hparts hpart hi)

/-- The texts of parts keep signs. -/
def PartsKeepSigns (d : Dialect) (c : Context) (e : Expr) (texts : List String) : Prop :=
  List.Forall₂ (d.KeepsSigns c) e.children texts

theorem PartsKeepSigns.exists_of_ne_nil (h : d.PartsKeepSigns c e texts) {i : Nat}
    (hne : (texts.getD i "").toList ≠ []) : ∃ child, e.children[i]? = some child := by
  have hlt : i < e.children.length := by
    by_contra hge
    have hnone := List.getElem?_eq_none (h.length_eq ▸ Nat.le_of_not_lt hge)
    simp [hnone] at hne
  exact ⟨_, List.getElem?_eq_getElem hlt⟩

theorem PartsKeepSigns.last (h : d.PartsKeepSigns c e texts) (hs : s ∈ signs) (i : Nat) :
    (texts.getD i "").toList.getLast? ≠ some s := by
  intro hlast
  obtain ⟨child, hi⟩ := h.exists_of_ne_nil (List.ne_nil_of_mem (List.mem_of_getLast? hlast))
  exact (getD_of_forall₂ h hi).last s hs hlast

/-- What a frame starts with: text of its own, or a part that is no negative constant. -/
inductive Opens (e : Expr) : Frame → Prop where
  | word {text rest} : text.toList ≠ [] → (∀ x ∈ text.toList, x ∉ joining) →
      Opens e (.word text :: rest)
  | part {i child rest} : e.children[i]? = some child → child.isNegative = false →
      Opens e (.part i :: rest)

theorem Opens.exists_first (h : Opens e frame) (hparts : d.PartsKeepSigns c e texts) :
    ∃ x rest, (frame.fill texts).toList = x :: rest ∧ x ∉ joining := by
  cases h with
  | @word text rest hne hplain =>
    cases hlist : text.toList with
    | nil => exact absurd hlist hne
    | cons x chars =>
      refine ⟨x, chars ++ (Frame.fill texts rest).toList, ?_, hplain x (by simp [hlist])⟩
      rw [Frame.fill_cons, String.toList_append, Piece.fill, hlist, List.cons_append]
  | @part i child rest hi hpositive =>
    obtain ⟨x, chars, hlist, hfirst, -⟩ := (getD_of_forall₂ hparts hi).first
    refine ⟨x, chars ++ (Frame.fill texts rest).toList, ?_, fun hx => ?_⟩
    · rw [Frame.fill_cons, String.toList_append, Piece.fill, hlist, List.cons_append]
    · cases hpositive.symm.trans (hfirst hx)

/-- A frame without two equal signs in a row leaves the signs of the parts as they are. -/
theorem Framed.keepsSigns_of_quiet (hframe : d.Framed c e frame)
    (htexts : d.PartTexts c e texts) (hparts : d.PartsKeepSigns c e texts)
    (hpositive : e.isNegative = false) (hopens : Opens e frame) (hquiet : frame.Quiet) :
    d.KeepsSigns c e (frame.fill texts) where
  first := by
    obtain ⟨x, rest, hlist, hx⟩ := hopens.exists_first hparts
    exact ⟨x, rest, hlist, fun hmem => absurd hmem hx, fun h => by cases hpositive.symm.trans h⟩
  last s hs := hquiet.last_fill hs (hparts.last hs)
  pair s hs before after hpair := by
    obtain ⟨front, piece, back, i, inner, rest, rfl, hpart, htext, rfl⟩ :=
      hquiet.exists_of_pair hs (hparts.last hs) hpair
    have hne : inner ++ s :: s :: rest ≠ [] :=
      List.append_ne_nil_of_right_ne_nil _ (List.cons_ne_nil _ _)
    obtain ⟨child, hi⟩ := hparts.exists_of_ne_nil (htext ▸ hne)
    exact ((getD_of_forall₂ hparts hi).pair s hs inner rest htext).part hframe htexts hpart hi

/-- A constant has the sign of a negative one, and no other at its start. -/
theorem keepsSigns_literal (hsuffix : ∀ x ∈ d.floatSuffix.toList, Name.isNameChar x = true)
    {value : Core.Literal} {ty : Ty} (h : ∀ x, value = .float x → x.isFinite = true) :
    d.KeepsSigns c (.literal value ty) (d.literalText value) := by
  obtain ⟨numeral, hnumeral, htext⟩ := exists_literalText hsuffix h
  obtain ⟨hne, hfirst⟩ := hnumeral.first
  have hquiet : Quiet (d.literalText value).toList := by
    rw [htext]
    split
    · exact .signed (List.forall_mem_nil _) hnumeral.quiet hne hfirst
    · exact hnumeral.quiet
  refine ⟨?_, hquiet.last, fun s hs before after hpair => ?_⟩
  · obtain ⟨x, rest, rfl⟩ := List.exists_cons_of_ne_nil hne
    rw [htext]
    cases hsign : value.isNegative with
    | true => exact ⟨'-', x :: rest, by simp, fun _ => hsign, fun _ => rfl⟩
    | false =>
      exact ⟨x, rest, by simp, fun hx => absurd hx (hfirst x rfl),
        fun h => by cases hsign.symm.trans h⟩
  · exact absurd ⟨before, after, by simp [hpair]⟩ (hquiet.single s hs)

/-- In parentheses, the signs are those inside. -/
theorem keepsSigns_of_paren {text : String} {inner : List Char}
    (htext : text.toList = '(' :: (inner ++ [')'])) (hpositive : e.isNegative = false)
    (h : ∀ s ∈ signs, ∀ before after, inner = before ++ s :: s :: after →
      d.Doubled c e s ('(' :: before)) : d.KeepsSigns c e text where
  first := ⟨'(', _, htext, fun hx => absurd hx (by decide),
    fun hx => by cases hpositive.symm.trans hx⟩
  last s hs hlast := by
    rw [htext, ← List.cons_append, List.getLast?_concat] at hlast
    cases hlast
    simp [signs] at hs
  pair s hs before after hpair := by
    rw [htext] at hpair
    cases before with
    | nil =>
      obtain ⟨rfl, -⟩ := List.cons.inj hpair
      simp [signs] at hs
    | cons x before =>
      obtain ⟨rfl, hinner⟩ := List.cons.inj hpair
      rcases pair_of_append hinner with ⟨rest, hleft⟩ | ⟨-, hright⟩ | ⟨_, -, hright⟩
      · exact h s hs before rest hleft
      · cases hright
        simp [signs] at hs
      · have hlength := congrArg List.length hright
        simp only [List.length_append, List.length_cons, List.length_nil] at hlength
        omega

/-- A symbol before an operand is followed by a sign if the operand is a negative constant
only. -/
theorem keepsSigns_unaryBefore {op : UnaryOp} {operand : Expr} {ty : Ty}
    (hop : op.isPostfix = false) (hwrites : op.isMutating = true → operand.isNegative = false)
    {text : String} (htext : d.expr c operand = .ok text) (h : d.KeepsSigns c operand text) :
    d.KeepsSigns c (.unary op operand ty)
      (Frame.fill [text] [.word "(", .word op.symbol, .part 0, .word ")"]) := by
  have hframe : d.Framed c (.unary op operand ty)
      ([.word "(", .word op.symbol] ++ .part 0 :: [.word ")"]) := .unaryBefore hop
  have hparts : d.PartTexts c (.unary op operand ty) [text] := .cons htext .nil
  have hlist : (Frame.fill [text] [.word "(", .word op.symbol, .part 0, .word ")"]).toList =
      '(' :: ((op.symbol.toList ++ text.toList) ++ [')']) := by simp [Piece.fill]
  refine keepsSigns_of_paren hlist rfl fun s hs before after hpair => ?_
  rcases pair_of_append hpair with ⟨rest, hleft⟩ | ⟨hleft, hright⟩ | ⟨inner, rfl, hright⟩
  · -- The symbol itself.
    obtain ⟨rfl, hsymbol, hmutating⟩ := UnaryOp.symbol_of_pair hleft
    exact .symbol hmutating hsymbol (.before hop .self)
  · -- The end of the symbol and the sign of a constant.
    obtain ⟨x, rest, hfirst, hjoining, hsign⟩ := h.first
    rw [hfirst] at hright
    obtain ⟨rfl, -⟩ := List.cons.inj hright
    have hnegative := hjoining (mem_joining hs)
    obtain rfl := hsign hnegative
    cases hmutating : op.isMutating with
    | true => cases (hwrites hmutating).symm.trans hnegative
    | false =>
      obtain ⟨rfl, rfl⟩ := UnaryOp.eq_negate_of_symbol hmutating hleft
      exact .negation rfl hnegative (.before hop .self)
  · have hoperand := (h.pair s hs inner after hright).part hframe hparts rfl rfl
    simpa [Piece.fill, Piece.lead] using hoperand

theorem keepsSigns_unaryBehind {op : UnaryOp} {operand : Expr} {ty : Ty}
    (hop : op.isPostfix = true) {text : String} (htext : d.expr c operand = .ok text)
    (h : d.KeepsSigns c operand text) :
    d.KeepsSigns c (.unary op operand ty)
      (Frame.fill [text] [.word "(", .part 0, .word op.symbol, .word ")"]) := by
  have hframe : d.Framed c (.unary op operand ty)
      ([.word "("] ++ .part 0 :: [.word op.symbol, .word ")"]) := .unaryBehind hop
  have hparts : d.PartTexts c (.unary op operand ty) [text] := .cons htext .nil
  have hlist : (Frame.fill [text] [.word "(", .part 0, .word op.symbol, .word ")"]).toList =
      '(' :: ((text.toList ++ op.symbol.toList) ++ [')']) := by simp [Piece.fill]
  refine keepsSigns_of_paren hlist rfl fun s hs before after hpair => ?_
  rcases pair_of_append hpair with ⟨rest, hleft⟩ | ⟨hleft, -⟩ | ⟨inner, rfl, hright⟩
  · have hoperand := (h.pair s hs before rest hleft).part hframe hparts rfl rfl
    simpa [Piece.fill, Piece.lead] using hoperand
  · exact absurd (by rw [hleft, List.getLast?_concat]) (h.last s hs)
  · obtain ⟨rfl, hsymbol, hmutating⟩ := UnaryOp.symbol_of_pair hright
    simpa using Doubled.symbol hmutating hsymbol (.behind hop .self htext)

/-! ## Expressions that keep signs -/

/-- The text of a name has no character that joins a symbol. -/
theorem plain_identifier {name : String} (h : Name.IsDotted name) :
    (d.identifier name).toList ≠ [] ∧ ∀ x ∈ (d.identifier name).toList, x ∉ joining :=
  ⟨identifier_ne_nil h.ne_nil, forall_identifier h.isText.plain (by decide)⟩

theorem plain_swizzleText (components : List UInt8) :
    ∀ x ∈ (Core.swizzleText components).toList, x ∉ joining := by
  intro x hx
  rw [Core.swizzleText, String.toList_ofList, List.mem_map] at hx
  obtain ⟨component, -, rfl⟩ := hx
  simp only [Core.componentLetter]
  split_ifs <;> decide

theorem quiet_binary (op : BinaryOp) :
    Frame.Quiet [.word "(", .part 0, .word (" " ++ op.symbol ++ " "), .part 1, .word ")"] := by
  intro text htext
  simp only [List.mem_cons, Piece.word.injEq, reduceCtorEq, List.not_mem_nil, false_or,
    or_false] at htext
  rcases htext with rfl | rfl | rfl
  · decide
  · cases op <;> decide
  · decide

/-- The frame of every expression keeps signs. -/
theorem Framed.keepsSigns (hd : d.HasFrames p) (hm : c.model.NamesShort)
    (hframe : d.Framed c e frame) (he : e.Fits p c.model)
    (hnames : ∀ name, e.name? = some name → Name.IsDotted name)
    (hwrites : ∀ op operand ty, e = .unary op operand ty → op.isMutating = true →
      operand.isNegative = false)
    (htexts : d.PartTexts c e texts) (hparts : d.PartsKeepSigns c e texts) :
    d.KeepsSigns c e (frame.fill texts) := by
  obtain ⟨htyped, -, -⟩ := he e .self
  have hopens : ∀ {i : Nat} {child : Expr} {rest : Frame}, e.children[i]? = some child →
      (∀ kind, child.ty ≠ .scalar kind) → Opens e (.part i :: rest) := fun hi hty =>
    .part hi ((he.child (List.mem_of_getElem? hi) _ .self).1.isNegative_eq hty)
  have hquiet := hframe.keepsSigns_of_quiet htexts hparts
  cases hframe with
  | literal =>
    cases htyped with
    | literal hfinite => simpa [Piece.fill] using keepsSigns_literal hd.floatSuffix hfinite
  | var =>
    obtain ⟨hne, hplain⟩ := plain_identifier (d := d) (hnames _ rfl)
    exact hquiet rfl (.word hne hplain)
      (Frame.quiet_of_plain (by simpa [Frame.chars, Piece.chars] using hplain))
  | resource hb =>
    obtain rfl : _ = _ := by simpa using List.find?_some hb
    obtain ⟨hne, hplain⟩ := plain_identifier (d := d) (hnames _ rfl)
    exact hquiet rfl (.word hne hplain)
      (Frame.quiet_of_plain (by simpa [Frame.chars, Piece.chars] using hplain))
  | field =>
    obtain ⟨-, hplain⟩ := plain_identifier (d := d) (hnames _ rfl)
    cases htyped with
    | field hty =>
      refine hquiet rfl (hopens rfl (by simp [hty])) (Frame.quiet_of_plain ?_)
      simpa [Frame.chars, Piece.chars] using ⟨by decide, hplain⟩
  | @swizzle _ components =>
    cases htyped with
    | swizzle hty =>
      refine hquiet rfl (hopens rfl (by simp [hty])) (Frame.quiet_of_plain ?_)
      simpa [Frame.chars, Piece.chars] using ⟨by decide, plain_swizzleText components⟩
  | index =>
    cases htyped with
    | index hty =>
      refine hquiet rfl (hopens rfl fun kind hkind => ?_) (Frame.quiet_of_plain (by decide))
      rw [hkind] at hty
      cases hty
  | unaryBefore hop =>
    rcases htexts with _ | ⟨hoperand, ⟨⟩⟩
    rcases hparts with _ | ⟨hkeeps, ⟨⟩⟩
    exact keepsSigns_unaryBefore hop (hwrites _ _ _ rfl) hoperand hkeeps
  | unaryBehind hop =>
    rcases htexts with _ | ⟨hoperand, ⟨⟩⟩
    rcases hparts with _ | ⟨hkeeps, ⟨⟩⟩
    exact keepsSigns_unaryBehind hop hoperand hkeeps
  | product => exact hquiet rfl (.word (by decide) (by decide)) (Frame.quiet_of_plain (by decide))
  | binary => exact hquiet rfl (.word (by decide) (by decide)) (quiet_binary _)
  | conditional =>
    exact hquiet rfl (.word (by decide) (by decide)) (Frame.quiet_of_plain (by decide))
  | @call _ _ _ f hf =>
    obtain ⟨hname, hshort⟩ := hm.of_function? hf
    have hdotted := hnames _ rfl
    have hplain : ∀ x ∈ (d.functionName c.model c.stage f).toList, x ∉ joining :=
      forall_functionName (hname ▸ hshort) (hname ▸ hdotted.isText.plain) (by decide)
    exact hquiet rfl (.word (functionName_ne_nil (hname ▸ hshort) (hname ▸ hdotted)) hplain)
      (Frame.quiet_of_plain (Frame.plain_call hplain _))
  | intrinsic hspells =>
    have hplain := hspells.neat.plain
    refine hquiet rfl ?_ (Frame.quiet_of_plain hplain)
    cases hspells.starts with
    | word hne => exact .word hne fun x hx => hplain x (by simp [Frame.chars, Piece.chars, hx])
    | @resource i ty rest hi hr =>
      rw [List.getElem?_map, Option.map_eq_some_iff] at hi
      obtain ⟨arg, harg, rfl⟩ := hi
      exact hopens harg fun kind hkind => by simp [hkind, Ty.isResource, Ty.resource?] at hr
  | construct _ hname =>
    exact hquiet rfl (.word hname.ne_nil hname.plain)
      (Frame.quiet_of_plain (Frame.neat_call hname _).plain)
  | cast _ hcasts =>
    obtain ⟨text, rest, rfl, hne⟩ := hcasts.starts
    have hplain := hcasts.neat.plain
    exact hquiet rfl (.word hne fun x hx => hplain x (by simp [Frame.chars, Piece.chars, hx]))
      (Frame.quiet_of_plain hplain)

/-- What is written in an expression is no negative constant. -/
def WritesNoConstant (e : Expr) : Prop :=
  ∀ op operand ty, (Expr.unary op operand ty).Within e → op.isMutating = true →
    operand.isNegative = false

theorem WritesNoConstant.within {x : Expr} (h : WritesNoConstant e) (hx : x.Within e) :
    WritesNoConstant x := fun op operand ty hy => h op operand ty (hy.trans hx)

theorem exists_keepsSigns (hd : d.HasFrames p) (hm : c.model.NamesShort)
    (he : e.Fits p c.model) (hnames : e.Names Name.IsDotted) (hwrites : WritesNoConstant e) :
    ∃ text, d.expr c e = .ok text ∧ d.KeepsSigns c e text := by
  refine exists_text
    (R := fun x => x.Fits p c.model ∧ x.Names Name.IsDotted ∧ WritesNoConstant x)
    (fun x hx => ?_) (fun x frame texts hx hframe htexts hparts => ?_)
    fun x hx => ⟨Core.Expr.Fits.within he hx, hnames.within hx, hwrites.within hx⟩
  · obtain ⟨htyped, hwf, hresolves⟩ := hx.1 x .self
    exact exists_framed hd htyped hwf hresolves
  · refine hframe.keepsSigns hd hm hx.1 (hx.2.1 x .self) ?_ htexts hparts
    rintro op operand ty rfl hop
    exact hx.2.2 op operand ty .self hop

end Dialect

end Shading
