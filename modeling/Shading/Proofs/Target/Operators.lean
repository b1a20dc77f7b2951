import Shading.Proofs.Elaboration.Places
import Shading.Proofs.Target.Signs

/-!
# Operators in expressions

The targets read the longest operator that they find, so the symbol of an operator with one
operand stays what it is only if the operand does not go on with a character that joins it
(`Joins`).

Operands in parentheses, names and numerals join nothing.  A negative constant starts with
a sign, and a negation before it reads as a decrement.  This is the only place where a symbol
is joined (`spellsOperators_of_build`, `negated_reads_decrement`).
-/

namespace Shading

open Shading.Core (Expr)

/-! ## Operators of the targets -/

/-- The operators of languages with the syntax of C. -/
def operators : List String :=
  ["+", "-", "*", "/", "%", "&", "|", "^", "~", "!", "<", ">", "=", "?", ":", ".", ",",
    "++", "--", "<<", ">>", "<=", ">=", "==", "!=", "&&", "||", "->", "::",
    "+=", "-=", "*=", "/=", "%=", "&=", "|=", "^=", "<<=", ">>="]

/-- A character makes another operator of a symbol that it follows. -/
def Joins (symbol : String) (c : Char) : Prop :=
  ∃ operator ∈ operators, symbol.toList ++ [c] <+: operator.toList

instance (symbol : String) (c : Char) : Decidable (Joins symbol c) :=
  inferInstanceAs (Decidable (∃ operator ∈ operators, _))

/-- Of the symbols before operands, only those of negations are joined. -/
theorem joins_iff {op : UnaryOp} {c : Char} : Joins op.symbol c ↔
    (op = .negate ∧ (c = '-' ∨ c = '>' ∨ c = '=')) ∨ (op = .not ∧ c = '=') := by
  cases op <;> simp [Joins, operators, UnaryOp.symbol]

/-! ## Operators that stay what they are -/

/-- What has the type of a resource has no parts. -/
theorem Core.Expr.Fits.children_eq_nil {p : Program} {m : Model} {e : Expr} (h : e.Fits p m)
    (hr : e.ty.isResource = true) : e.children = [] := by
  have hplain : ∀ {ty : Ty}, ty.Plain p → ty.isResource = true → False := fun hty hres => by
    cases hty.isResource_eq.symm.trans hres
  have hscalar : ∀ {ty : Ty}, ty.scalarKind?.isSome = true → ty.isResource = true → False :=
    fun {ty} hkind hres => by cases ty <;> simp_all [Ty.scalarKind?, Ty.isResource, Ty.resource?]
  obtain ⟨htyped, -, -⟩ := h e .self
  cases htyped with
  | literal | var | uniform | resource => rfl
  | field _ _ _ hden => exact (hplain hden.plain hr).elim
  | swizzle _ hne hlen _ =>
    exact (hplain (Scope.plain_swizzleTy (List.length_pos_iff.2 hne) hlen) hr).elim
  | @index base position ty hty =>
    have hbase := (h.child (c := base) (.head _) base .self).2.1
    exact (hplain (hty.plain hbase) hr).elim
  | unary _ hty => exact (hplain hty hr).elim
  | binary _ _ _ hty => exact (hplain hty hr).elim
  | conditional _ _ _ hty => exact (hplain hty hr).elim
  | call _ _ hty => exact (hplain hty hr).elim
  | intrinsic _ _ hty => exact (hplain hty hr).elim
  | construct hty => exact (hscalar hty.isSome_scalarKind? hr).elim
  | cast hty => exact (hscalar hty.isSome_scalarKind? hr).elim

namespace Target

variable {p : Program} {c : Context} {e : Expr} {frame : Frame} (t : Target) (fixup : Option Fixup)

theorem insertions_pos (i : Intrinsic) (tys : List Ty) (n : Nat) : 0 < t.insertions i tys n := by
  cases t
  case metal =>
    simp only [insertions, Metal.insertions]
    split <;> decide
  all_goals exact Nat.one_pos

/-- Every part of an expression that is a value is inserted. -/
theorem mem_parts (hframe : (t.language fixup).dialect.Framed c e frame) (he : e.Typed p)
    {i : Nat} {child : Expr} (hi : e.children[i]? = some child)
    (hvalue : child.ty.isResource = false) : i ∈ frame.parts := by
  have hlt := (List.getElem?_eq_some_iff.1 hi).1
  cases hframe with
  | call => simpa [Frame.parts_call, Expr.children] using hlt
  | construct => simpa [Frame.parts_call, Expr.children] using hlt
  | cast _ hcasts => simpa [hcasts.parts, Expr.children] using hlt
  | @intrinsic intrinsic args _ _ hspells =>
    cases he with
    | intrinsic haccepts =>
      have hty : (args.map Expr.ty)[i]? = some child.ty := by
        rw [List.getElem?_map]
        exact congrArg (Option.map Expr.ty) hi
      have htimes := (t.spellsTimes fixup haccepts).insertsTimes
      have hcount := htimes.counts _ hspells.inserts i _ hty hvalue
      exact List.count_pos_iff.1 (hcount ▸ t.insertions_pos _ _ i)
  | _ =>
    simp only [Expr.children, List.length_cons, List.length_nil] at hlt
    simp [Frame.parts, Piece.part?]
    try omega

/-- The text of every value in an expression stands in its text. -/
theorem exists_shows (he : e.Fits p c.model) {x : Expr} (hx : x.Within e)
    (hvalue : x.ty.isResource = false) :
    ∃ before, (t.language fixup).dialect.Shows c x e before := by
  induction e using Expr.induct with
  | h e ih =>
    rcases Expr.mem_walk.1 (Expr.mem_walk_iff.2 hx) with rfl | ⟨child, hchild, hx⟩
    · exact ⟨[], .self⟩
    · have hwithin := Expr.mem_walk_iff.1 hx
      have hfits := he.child hchild
      have hpart : child.ty.isResource = false := by
        by_contra hres
        rw [Bool.not_eq_false] at hres
        rcases Expr.mem_walk.1 hx with rfl | ⟨y, hy, -⟩
        · cases hvalue.symm.trans hres
        · rw [hfits.children_eq_nil hres] at hy
          cases hy
      obtain ⟨i, hi⟩ := List.mem_iff_getElem?.1 hchild
      obtain ⟨htyped, hwf, hresolves⟩ := he e .self
      obtain ⟨frame, hframe⟩ := Dialect.exists_framed (t.hasFrames fixup) htyped hwf hresolves
      obtain ⟨texts, htexts⟩ : ∃ texts, (t.language fixup).dialect.PartTexts c e texts :=
        exists_forall₂ fun y hy => Dialect.exists_expr (t.total_dialect fixup) (he.child hy)
      obtain ⟨piece, hpiece, hpart⟩ :=
        List.mem_filterMap.1 (t.mem_parts fixup hframe htyped hi hpart)
      obtain ⟨front, back, rfl⟩ := List.append_of_mem hpiece
      obtain ⟨before, hshows⟩ := ih child hchild hfits hwithin
      exact ⟨_, .part hframe htexts hpart hi hshows⟩

end Target

/-- The operators with one operand in the text of an expression are those of the expression,
but for negations of negative constants. -/
structure Dialect.SpellsOperators (d : Dialect) (c : Context) (e : Expr) (text : String) :
    Prop where
  /-- Two equal signs in a row are the symbol of an increment or a decrement, or a negation
  and the sign of the constant behind it. -/
  pair : ∀ s ∈ signs, ∀ before after, text.toList = before ++ s :: s :: after →
    d.Doubled c e s before
  symbol : ∀ op operand before, d.SymbolAt c e op operand before →
    ∃ after, text.toList = before ++ (op.symbol.toList ++ after)
  /-- What follows a symbol before an operand joins it at a negation of a negative constant, and
  nowhere else. -/
  joined : ∀ op operand before, op.isPostfix = false → d.SymbolAt c e op operand before →
    ∃ x after, text.toList = before ++ (op.symbol.toList ++ x :: after) ∧
      (Joins op.symbol x ↔ op = .negate ∧ operand.isNegative = true)
  /-- No operator is left out. -/
  shown : ∀ op operand ty, (Expr.unary op operand ty).Within e →
    ∃ before, d.SymbolAt c e op operand before

namespace Dialect

variable {p : Program} {d : Dialect} {c : Context} {e : Expr}

/-- A symbol before an operand is joined by the sign of a constant only. -/
theorem joins_first_iff {op : UnaryOp} {operand : Expr} {text : String}
    (h : d.KeepsSigns c operand text) : ∃ x rest, text.toList = x :: rest ∧
      (Joins op.symbol x ↔ op = .negate ∧ operand.isNegative = true) := by
  obtain ⟨x, rest, hlist, hjoining, hsign⟩ := h.first
  refine ⟨x, rest, hlist, joins_iff.trans ⟨?_, ?_⟩⟩
  · rintro (⟨rfl, rfl | rfl | rfl⟩ | ⟨rfl, rfl⟩)
    · exact ⟨rfl, hjoining (by decide)⟩
    · exact ⟨rfl, hjoining (by decide)⟩
    · exact ⟨rfl, hjoining (by decide)⟩
    · cases hsign (hjoining (by decide))
  · rintro ⟨rfl, hnegative⟩
    exact .inl ⟨rfl, .inl (hsign hnegative)⟩

/-- Expressions that fit keep their operators. -/
theorem exists_spellsOperators (t : Target) (fixup : Option Fixup) (hm : c.model.NamesShort)
    (he : e.Fits p c.model) (hnames : e.Names Name.IsDotted) (hwrites : WritesNoConstant e) :
    ∃ text, (t.language fixup).dialect.expr c e = .ok text ∧
      (t.language fixup).dialect.SpellsOperators c e text := by
  have hd := t.hasFrames fixup (p := p)
  obtain ⟨text, htext, hkeeps⟩ := exists_keepsSigns hd hm he hnames hwrites
  refine ⟨text, htext, hkeeps.pair, fun op operand before h => h.exists_text htext,
    fun op operand before hop h => ?_, fun op operand ty hx => ?_⟩
  · obtain ⟨ty, hunary⟩ := h.exists_within
    have hx : operand.Within e := (Expr.Within.unary .self).trans hunary
    obtain ⟨inner, hinner, hsigns⟩ := exists_keepsSigns hd hm (Core.Expr.Fits.within he hx)
      (hnames.within hx) (hwrites.within hx)
    obtain ⟨shown, after, hshown, hlist⟩ := h.exists_operand hop htext
    obtain rfl := Except.ok.inj (hinner.symm.trans hshown)
    obtain ⟨x, rest, hfirst, hiff⟩ := joins_first_iff hsigns
    exact ⟨x, rest ++ ')' :: after, by rw [hlist, hfirst, List.cons_append], hiff⟩
  · have hvalue : (Expr.unary op operand ty).ty.isResource = false := by
      cases (he _ hx).1 with
      | unary _ hty => exact hty.isResource_eq
    obtain ⟨before, hshows⟩ := t.exists_shows fixup he hx hvalue
    cases hop : op.isPostfix with
    | false => exact ⟨_, .before hop hshows⟩
    | true =>
      obtain ⟨inner, hinner⟩ := exists_expr (t.total_dialect fixup)
        (Core.Expr.Fits.within he ((Expr.Within.unary .self).trans hx))
      exact ⟨_, .behind hop hshows hinner⟩

end Dialect

namespace Program

/-- What elaborated code writes is a place, and no constant. -/
theorem writesNoConstant_of_elaborateFunction {p : Program} {d : FunctionDecl} {f : Function}
    (h : p.elaborateFunction d = .ok f) {e : Expr} (he : e.OccursIn f.body) :
    Dialect.WritesNoConstant e := by
  intro op operand ty hx hop
  obtain ⟨s, rfl, -, hbody⟩ := exists_scope_of_elaborateFunction h
  obtain ⟨hmade, hw⟩ := Scope.made_of_writtenIn hbody (.updated hop (hx.occursIn he))
  cases hmade.writeFault?_eq_none_iff.1 hw <;> rfl

/-- The operators in every model stay what they are, in the language of every target and in
every stage, but for negations of negative constants. -/
theorem spellsOperators_of_build {p : Program} {set : EntrySet} {m : Model}
    (h : p.build set = .ok m) {f : Function} (hf : f ∈ m.functions) {e : Expr}
    (he : e.OccursIn f.body) (hnames : e.Names Name.IsDotted) (stage : Stage) (t : Target)
    (fixup : Option Fixup) : ∃ text,
      (t.language fixup).dialect.expr ⟨m, stage, some f⟩ e = .ok text ∧
      (t.language fixup).dialect.SpellsOperators ⟨m, stage, some f⟩ e text := by
  obtain ⟨_, _, hbuilt⟩ := builtFrom_of_build h
  obtain ⟨d, -, hd⟩ := hbuilt.model_exact.hasFunction f hf
  exact Dialect.exists_spellsOperators t fixup hbuilt.namesShort (hbuilt.fits hf he) hnames
    (writesNoConstant_of_elaborateFunction hd he)

/-- The step of the loop in the sample's fragment stage. -/
def sampleStep : Expr := .unary .preIncrement (.var "i" .int) .int

theorem spellsOperators_sample : ∃ m f, sample.build sampleSet = .ok m ∧ f ∈ m.functions ∧
    sampleStep.OccursIn f.body ∧ sampleStep.Names Name.IsDotted ∧
    ∃ text, (Target.language .hlsl none).dialect.expr ⟨m, .fragment, some f⟩ sampleStep = .ok text ∧
      (Target.language .hlsl none).dialect.SpellsOperators ⟨m, .fragment, some f⟩ sampleStep
        text := by
  obtain ⟨m, f, h, hf, he⟩ : ∃ m f, sample.build sampleSet = .ok m ∧ f ∈ m.functions ∧
      sampleStep.OccursIn f.body :=
    ⟨_, _, rfl, .tail _ (.tail _ (.head _)), _, ⟨_, .tail _ (.head _), .step (.head _) .self⟩, _,
      .expr, .self⟩
  have hnames : sampleStep.Names Name.IsDotted := by
    intro x hx name hname
    cases hx with
    | self => cases hname
    | unary hx =>
      cases hx with
      | self => cases hname; rfl
  exact ⟨m, f, h, hf, he, hnames, spellsOperators_of_build h hf he hnames .fragment .hlsl none⟩

/-- A program that negates a negative constant. -/
def negated : Program where
  structs := []
  resources := []
  functions := [fragment]
  shaderSets := []
where
  negation : Surface.Expr := .unary .negate (.literal (.int (-1)) none) (some (.scalar .int))
  fragment : FunctionDecl := {
    name := "Demo.FS"
    metadata := ⟨some .fragment, none⟩
    params := []
    result := .vector .float 4
    body := [
      .declare "n" (.scalar .int) (some negation),
      .ret (some (.construct [.literal (.float ⟨0⟩) none] (some (.vector .float 4))))] }

/-- The negation in core code. -/
def negatedConstant : Expr := .unary .negate (.literal (.int (-1)) .int) .int

/-- Every target writes the negation of a negative constant as a decrement, although nothing
in it is incremented or decremented. -/
theorem negated_reads_decrement : ∃ m f, negated.build ⟨none, some "Demo.FS", none⟩ = .ok m ∧
    f ∈ m.functions ∧ negatedConstant.OccursIn f.body ∧ negatedConstant.Names Name.IsDotted ∧
    (∀ op operand ty, (Expr.unary op operand ty).Within negatedConstant → op.isMutating = false) ∧
    (∀ (t : Target) (fixup : Option Fixup),
      (t.language fixup).dialect.expr ⟨m, .fragment, some f⟩ negatedConstant = .ok "(--1)") ∧
    Joins UnaryOp.negate.symbol '-' := by
  have h : negated.build ⟨none, some "Demo.FS", none⟩ = .ok _ := rfl
  refine ⟨_, _, h, .head _, ⟨_, ⟨_, .head _, .self⟩, _, .init, .self⟩, ?_, ?_, ?_, by decide⟩
  · intro x hx name hname
    cases hx with
    | self => cases hname
    | unary hx =>
      cases hx with
      | self => cases hname
  · intro op operand ty hx
    cases hx with
    | self => rfl
    | unary hx => cases hx
  · intro t fixup
    cases t <;> rfl

end Program

end Shading
