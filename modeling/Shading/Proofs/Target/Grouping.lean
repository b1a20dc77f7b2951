import Shading.Proofs.Target.Spelling

/-!
# Brackets in expressions

The brackets of every expression match, as long as those of its names do: the brackets of
each frame match by themselves, and what is inserted is balanced (`Frame.balanced_fill`).

Unary, binary and conditional expressions are written in one pair of parentheses.  A
product through a matrix is a call of `mul` where operands are swapped.  So `parenthesized`
makes one group of every condition and every selector, and a branch, a loop or a switch is
headed by its word and that group (`Stmt.Headed`).
-/

namespace Shading

open Brackets
open Shading.Core (Expr Stmt)

/-! ## Filled frames -/

namespace Frame

variable {texts : List String} {frame : Frame}

/-- Balanced texts do not change what a frame opens and closes by itself. -/
theorem foldlM_fill (h : ∀ text ∈ texts, Balanced text.toList) (stack : List Char) :
    (frame.fill texts).toList.foldlM step stack = frame.chars.foldlM step stack := by
  have hpart : ∀ i, Balanced (texts.getD i "").toList := by
    intro i
    rw [List.getD_eq_getElem?_getD]
    cases hi : texts[i]? with
    | none => exact balanced_nil
    | some text => exact h text (List.mem_of_getElem? hi)
  induction frame generalizing stack with
  | nil => rfl
  | cons piece rest ih =>
    rw [fill_cons, String.toList_append, List.foldlM_append]
    cases piece with
    | word text =>
      rw [chars, List.flatMap_cons, List.foldlM_append]
      exact congrArg _ (funext ih)
    | part i =>
      rw [Piece.fill, (hpart i).foldlM stack]
      exact ih stack
    | enclosed i =>
      rw [Piece.fill, (parenthesized_of_balanced (hpart i)).enclosed.balanced.foldlM stack]
      exact ih stack

theorem balanced_fill (hframe : Balanced frame.chars)
    (h : ∀ text ∈ texts, Balanced text.toList) : Balanced (frame.fill texts).toList := by
  rw [Brackets.Balanced, foldlM_fill h]
  exact hframe

/-- A frame in parentheses is written in one pair of them. -/
theorem enclosed_fill (frame : Frame) (hframe : Balanced frame.chars)
    (h : ∀ text ∈ texts, Balanced text.toList) :
    Enclosed (fill texts (.word "(" :: (frame ++ [.word ")"]))).toList :=
  ⟨_, balanced_fill hframe h, by simp [fill_append, Piece.fill]⟩

end Frame

/-! ## Expressions -/

namespace Dialect

variable {p : Program} {d : Dialect} {c : Context}

/-- A product that is a call of `mul`. -/
def isMulCall (d : Dialect) : Expr → Bool
  | .binary op lhs rhs _ => d.callsMul && isMatrixProduct op lhs.ty rhs.ty
  | _ => false

end Dialect

/-- Unary, binary and conditional expressions. -/
def Core.Expr.isOperation : Expr → Bool
  | .unary _ _ _ | .binary _ _ _ _ | .conditional _ _ _ _ => true
  | _ => false

/-- A name without brackets. -/
def Name.NoBrackets (name : String) : Prop := ∀ c ∈ name.toList, isBracket c = false

instance (name : String) : Decidable (Name.NoBrackets name) :=
  inferInstanceAs (Decidable (∀ c ∈ name.toList, isBracket c = false))

/-- The brackets in the text of an expression match.  Operations are in one pair of
parentheses, and products that are calls of `mul` have theirs behind that name. -/
structure Dialect.Matches (d : Dialect) (e : Expr) (text : String) : Prop where
  balanced : Balanced text.toList
  enclosed : e.isOperation = true → d.isMulCall e = false → Enclosed text.toList
  mul : d.isMulCall e = true → ∃ group, Enclosed group ∧ text.toList = "mul".toList ++ group

namespace Dialect

variable {p : Program} {d : Dialect} {c : Context}

/-- A frame without an operation. -/
theorem matches_of_balanced {e : Expr} {frame : Frame} {texts : List String}
    (he : e.isOperation = false) (hframe : Balanced frame.chars)
    (h : ∀ text ∈ texts, Balanced text.toList) : d.Matches e (frame.fill texts) where
  balanced := frame.balanced_fill hframe h
  enclosed hop := by cases he.symm.trans hop
  mul hmul := by
    cases e with
    | binary => cases he
    | _ => cases hmul

/-- A frame of an operation in parentheses. -/
theorem matches_of_enclosed {e : Expr} (frame : Frame) {texts : List String}
    (hmul : d.isMulCall e = false) (hframe : Balanced frame.chars)
    (h : ∀ text ∈ texts, Balanced text.toList) :
    d.Matches e (Frame.fill texts (.word "(" :: (frame ++ [.word ")"]))) where
  balanced := (Frame.enclosed_fill frame hframe h).balanced
  enclosed _ _ := Frame.enclosed_fill frame hframe h
  mul hcall := by cases hmul.symm.trans hcall

theorem balanced_word {text : String} (h : Name.NoBrackets text) :
    Balanced (Frame.chars [.word text]) := by
  simpa [Frame.chars, Piece.chars] using balanced_of_forall h

theorem noBrackets_symbol (op : UnaryOp) : Name.NoBrackets op.symbol := by
  cases op <;> decide

theorem noBrackets_binarySymbol (op : BinaryOp) : Name.NoBrackets (" " ++ op.symbol ++ " ") := by
  cases op <;> decide

theorem noBrackets_swizzleText (components : List UInt8) :
    Name.NoBrackets (Core.swizzleText components) := by
  intro x hx
  rw [Core.swizzleText, String.toList_ofList, List.mem_map] at hx
  obtain ⟨component, -, rfl⟩ := hx
  simp only [Core.componentLetter]
  split_ifs <;> rfl

/-- A constant has no brackets. -/
theorem noBrackets_literalText (hd : d.HasFrames p) {value : Core.Literal}
    (h : ∀ x, value = .float x → x.isFinite = true) : Name.NoBrackets (d.literalText value) := by
  obtain ⟨numeral, hnumeral, htext⟩ := exists_literalText hd.floatSuffix h
  intro x hx
  rw [htext, List.mem_append] at hx
  have hsign : ∀ {x : Char}, x = '-' → isBracket x = false := by
    rintro _ rfl
    rfl
  rcases hx with hx | hx
  · split at hx
    · exact hsign (List.mem_singleton.1 hx)
    · cases hx
  · rcases hnumeral.eq_or_of_mem hx with hx | hx
    · exact (Name.not_of_isNameChar hx).1
    · exact hsign hx

/-- The frame of every expression keeps brackets matched. -/
theorem Framed.matches (hd : d.HasFrames p) (hm : c.model.NamesShort) {e : Expr} {frame : Frame}
    {texts : List String} (hframe : d.Framed c e frame) (he : e.Typed p)
    (hnames : ∀ name, e.name? = some name → Name.NoBrackets name)
    (h : ∀ text ∈ texts, Balanced text.toList) : d.Matches e (frame.fill texts) := by
  have hidentifier : ∀ {name}, Name.NoBrackets name → Name.NoBrackets (d.identifier name) :=
    fun hname => forall_identifier hname rfl
  cases hframe with
  | literal =>
    cases he with
    | literal hfinite =>
      exact matches_of_balanced rfl (balanced_word (noBrackets_literalText hd hfinite)) h
  | var => exact matches_of_balanced rfl (balanced_word (hidentifier (hnames _ rfl))) h
  | resource hb =>
    obtain rfl : _ = _ := by simpa using List.find?_some hb
    exact matches_of_balanced rfl (balanced_word (hidentifier (hnames _ rfl))) h
  | field =>
    have hpoint : Balanced (Frame.chars [.part 0, .word "."]) := by decide
    exact matches_of_balanced rfl (hpoint.append (balanced_word (hidentifier (hnames _ rfl)))) h
  | swizzle =>
    have hpoint : Balanced (Frame.chars [.part 0, .word "."]) := by decide
    exact matches_of_balanced rfl (hpoint.append (balanced_word (noBrackets_swizzleText _))) h
  | index => exact matches_of_balanced rfl (by decide) h
  | @unaryBefore op operand ty =>
    have hsymbol := balanced_word (noBrackets_symbol op)
    exact matches_of_enclosed [.word op.symbol, .part 0] rfl hsymbol h
  | @unaryBehind op operand ty =>
    have hsymbol := balanced_word (noBrackets_symbol op)
    exact matches_of_enclosed [.part 0, .word op.symbol] rfl hsymbol h
  | @product op lhs rhs ty hmul =>
    -- The call is `mul` and one pair of parentheses behind it.
    have hgroup := Frame.enclosed_fill [.part 1, .word ", ", .part 0] (by decide) h
    have htext : (Frame.fill texts [.word "mul(", .part 1, .word ", ", .part 0, .word ")"]).toList =
        "mul".toList ++ (Frame.fill texts
          (.word "(" :: ([.part 1, .word ", ", .part 0] ++ [.word ")"]))).toList := by
      simp [Piece.fill]
    have hcall : d.isMulCall (.binary op lhs rhs ty) = true := hmul
    exact ⟨Frame.balanced_fill (by decide) h, fun _ hno => by simp [hcall] at hno,
      fun _ => ⟨_, hgroup, htext⟩⟩
  | @binary op lhs rhs ty hmul =>
    have hsymbol := balanced_word (noBrackets_binarySymbol op)
    exact matches_of_enclosed [.part 0, .word (" " ++ op.symbol ++ " "), .part 1] hmul hsymbol h
  | conditional =>
    exact matches_of_enclosed [.part 0, .word " ? ", .part 1, .word " : ", .part 2] rfl
      (by decide) h
  | call hf =>
    obtain ⟨hname, hshort⟩ := hm.of_function? hf
    refine matches_of_balanced rfl (Frame.balanced_call ?_ _) h
    exact forall_functionName (hname ▸ hshort) (hname ▸ hnames _ rfl) rfl
  | intrinsic hi => exact matches_of_balanced rfl hi.neat.balanced h
  | construct _ hname => exact matches_of_balanced rfl (Frame.neat_call hname _).balanced h
  | cast _ hcasts => exact matches_of_balanced rfl hcasts.neat.balanced h

/-- The brackets of every expression match that fits and whose names have no brackets. -/
theorem exists_matches (hd : d.HasFrames p) (hm : c.model.NamesShort) {e : Expr}
    (he : e.Fits p c.model) (hnames : e.Names Name.NoBrackets) :
    ∃ text, d.expr c e = .ok text ∧ d.Matches e text := by
  refine exists_text
    (R := fun x => (x.Typed p ∧ x.ty.WellFormed p ∧ x.Resolves c.model) ∧
      ∀ name, x.name? = some name → Name.NoBrackets name)
    (fun x hx => exists_framed hd hx.1.1 hx.1.2.1 hx.1.2.2)
    (fun x frame texts hx hframe _ hparts => hframe.matches hd hm hx.1.1 hx.2 fun text ht => ?_)
    fun x hx => ⟨he x hx, hnames x hx⟩
  obtain ⟨part, -, hpart⟩ := forall₂_of_mem_right hparts ht
  exact hpart.balanced

end Dialect

/-! ## Heads of statements -/

/-- What a branch, a loop or a switch asks first. -/
def Core.Stmt.condition? : Stmt → Option Expr
  | .branch condition _ _ | .whileLoop condition _ | .doLoop _ condition
  | .switch condition _ _ => some condition
  | _ => none

theorem Core.Stmt.holds_of_condition? {s : Stmt} {e : Expr} (h : s.condition? = some e) :
    s.Holds e := by
  cases s with
  | branch => cases h; exact .branch
  | whileLoop => cases h; exact .whileLoop
  | doLoop => cases h; exact .doLoop
  | switch => cases h; exact .selector
  | _ => cases h

/-- A statement has a word and a group for its head.  The head of a `do` loop stands behind
the body. -/
inductive Core.Stmt.Headed (group : String) : Stmt → Code → Prop where
  | branch {condition yes no rest} :
      Headed group (.branch condition yes no) (.line ("if " ++ group) :: rest)
  | whileLoop {condition body rest} :
      Headed group (.whileLoop condition body) (.line ("while " ++ group) :: rest)
  | doLoop {body condition front} :
      Headed group (.doLoop body condition) (front ++ [.line ("\x7d while " ++ group ++ ";")])
  | switch {condition cases default rest} :
      Headed group (.switch condition cases default) (.line ("switch " ++ group) :: rest)

theorem Dialect.headed_of_stmt {d : Dialect} {c : Context} {s : Stmt} {e : Expr} {code : Code}
    (hs : s.condition? = some e) (h : d.stmt c s = .ok code) :
    ∃ text, d.expr c e = .ok text ∧ s.Headed (parenthesized text) code := by
  cases s with
  | branch =>
    cases hs
    simp only [stmt, bind_eq_ok, pure_eq_ok] at h
    obtain ⟨text, htext, yes, -, no, -, rfl⟩ := h
    exact ⟨text, htext, .branch⟩
  | whileLoop =>
    cases hs
    simp only [stmt, bind_eq_ok, pure_eq_ok] at h
    obtain ⟨text, htext, body, -, rfl⟩ := h
    exact ⟨text, htext, .whileLoop⟩
  | doLoop =>
    cases hs
    simp only [stmt, bind_eq_ok, pure_eq_ok] at h
    obtain ⟨body, -, text, htext, rfl⟩ := h
    have hlast : "\x7d" ++ (" " ++ ("while" ++ " " ++ parenthesized text) ++ ";") =
        "\x7d while " ++ parenthesized text ++ ";" := by
      rw [← String.toList_inj]
      simp
    have hcode : Code.line "do" ++ Code.block body (" " ++ headText "while" text ++ ";") =
        (Code.line "do" ++ (Code.opening ++ body) ++ [.dedent]) ++
          [.line ("\x7d while " ++ parenthesized text ++ ";")] := by
      simp only [headText, Code.block, Code.closing, hlast, List.append_assoc, List.cons_append,
        List.nil_append]
    exact ⟨text, htext, hcode ▸ .doLoop⟩
  | switch =>
    cases hs
    simp only [stmt, bind_eq_ok, pure_eq_ok] at h
    obtain ⟨text, htext, cases, -, default, -, rfl⟩ := h
    exact ⟨text, htext, .switch⟩
  | _ => cases hs

/-! ## Models -/

/-- The brackets in a model match in the language of every target, in every stage. -/
structure Model.BracketsMatch (m : Model) : Prop where
  expr : ∀ f ∈ m.functions, ∀ e : Expr, e.OccursIn f.body → e.Names Name.NoBrackets →
    ∀ (stage : Stage) (t : Target) (fixup : Option Fixup), ∃ text,
      (t.language fixup).dialect.expr ⟨m, stage, some f⟩ e = .ok text ∧
      (t.language fixup).dialect.Matches e text
  /-- Every head is a word and one group, which is the condition or has it inside. -/
  head : ∀ f ∈ m.functions, ∀ (s : Stmt) (e : Expr), s.OccursIn f.body → s.condition? = some e →
    e.Names Name.NoBrackets → ∀ (stage : Stage) (t : Target) (fixup : Option Fixup),
    ∃ text code, (t.language fixup).dialect.expr ⟨m, stage, some f⟩ e = .ok text ∧
      (t.language fixup).dialect.stmt ⟨m, stage, some f⟩ s = .ok code ∧
      s.Headed (parenthesized text) code ∧ Groups text
  /-- Balanced text, whether it is that of an expression or not, is put in one group. -/
  groups : ∀ text : String, Balanced text.toList → Groups text

namespace Program

/-- The brackets in every model match. -/
theorem bracketsMatch_of_build {p : Program} {set : EntrySet} {m : Model}
    (h : p.build set = .ok m) : m.BracketsMatch := by
  obtain ⟨_, _, hbuilt⟩ := builtFrom_of_build h
  have hexpr : ∀ f ∈ m.functions, ∀ e : Expr, e.OccursIn f.body → e.Names Name.NoBrackets →
      ∀ (stage : Stage) (t : Target) (fixup : Option Fixup), ∃ text,
        (t.language fixup).dialect.expr ⟨m, stage, some f⟩ e = .ok text ∧
        (t.language fixup).dialect.Matches e text := fun f hf e he hnames stage t fixup =>
    Dialect.exists_matches (t.hasFrames fixup) hbuilt.namesShort (hbuilt.fits hf he) hnames
  refine ⟨hexpr, ?_, fun text => parenthesized_of_balanced⟩
  intro f hf s e hs he hnames stage t fixup
  obtain ⟨code, hcode⟩ := Dialect.exists_stmt (c := ⟨m, stage, some f⟩) (t.total_dialect fixup)
    (hbuilt.fits_stmt hf hs)
  obtain ⟨text, htext, hheaded⟩ := Dialect.headed_of_stmt he hcode
  obtain ⟨text', htext', hmatches⟩ :=
    hexpr f hf e ⟨s, hs, e, Core.Stmt.holds_of_condition? he, .self⟩ hnames stage t fixup
  obtain rfl := Except.ok.inj (htext.symm.trans htext')
  exact ⟨text, code, htext, hcode, hheaded, parenthesized_of_balanced hmatches.balanced⟩

theorem bracketsMatch_sample :
    ∃ m, sample.build sampleSet = .ok m ∧ m.BracketsMatch := by
  have h : sample.build sampleSet = .ok _ := rfl
  exact ⟨_, h, bracketsMatch_of_build h⟩

end Program

end Shading
