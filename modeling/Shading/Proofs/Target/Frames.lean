import Shading.Proofs.Target.Body
import Shading.Proofs.Text.Brackets
import Shading.Proofs.Text.Numerals

/-!
# Frames

An expression is written from the texts of its parts.  A *frame* is what it adds to them:
characters of its own, and the places where the texts of the parts are inserted
(`Frame.fill`).  `Dialect.Framed` gives the frame of each form of expression, and what is
written is the frame with the texts filled in (`Framed.expr_eq`).

A dialect chooses the frames of intrinsics and conversions.  What all of these have in
common is that their own characters hold no sign and that their brackets match
(`Frame.Neat`).
-/

namespace Shading

open Shading.Core (Expr)

/-! ## Frames and what fills them -/

/-- A piece of a frame. -/
inductive Piece where
  | word (text : String)
  /-- The text of a part. -/
  | part (index : Nat)
  /-- The text of a part in one pair of parentheses. -/
  | enclosed (index : Nat)
deriving DecidableEq

namespace Piece

def fill (texts : List String) : Piece → String
  | .word text => text
  | .part index => texts.getD index ""
  | .enclosed index => parenthesized (texts.getD index "")

/-- The part whose text is inserted. -/
def part? : Piece → Option Nat
  | .word _ => none
  | .part index | .enclosed index => some index

/-- The characters of a frame itself. -/
def chars : Piece → List Char
  | .word text => text.toList
  | .part _ | .enclosed _ => []

end Piece

/-- Text with places for the texts of parts. -/
abbrev Frame := List Piece

namespace Frame

variable {texts : List String} {a b frame : Frame}

/-- A frame with texts inserted. -/
def fill (texts : List String) : Frame → String
  | [] => ""
  | piece :: rest => piece.fill texts ++ fill texts rest

/-- The parts whose texts are inserted, from left to right. -/
def parts (frame : Frame) : List Nat := frame.filterMap Piece.part?

/-- The characters of a frame itself, from left to right. -/
def chars (frame : Frame) : List Char := frame.flatMap Piece.chars

@[simp] theorem fill_nil : fill texts [] = "" := rfl

@[simp] theorem fill_cons (piece : Piece) :
    fill texts (piece :: frame) = piece.fill texts ++ fill texts frame := rfl

theorem fill_append : fill texts (a ++ b) = fill texts a ++ fill texts b := by
  induction a with
  | nil => simp
  | cons piece rest ih => simp [ih, String.append_assoc]

/-- Parts with commas between them. -/
def arguments (start : Nat) : Nat → Frame
  | 0 => []
  | 1 => [.part start]
  | n + 2 => .part start :: .word ", " :: arguments (start + 1) (n + 1)

/-- A call with a number of arguments. -/
def call (name : String) (n : Nat) : Frame :=
  .word name :: .word "(" :: (arguments 0 n ++ [.word ")"])

theorem fill_arguments (before rest : List String) :
    fill (before ++ rest) (arguments before.length rest.length) = ", ".intercalate rest := by
  induction rest generalizing before with
  | nil => rfl
  | cons text rest ih =>
    have hfirst : (before ++ text :: rest).getD before.length "" = text := by simp
    cases rest with
    | nil => simp [arguments, Piece.fill]
    | cons second rest =>
      have hrest := ih (before ++ [text])
      rw [List.append_assoc, List.length_append] at hrest
      rw [String.intercalate_cons_cons, ← hrest, String.append_assoc]
      simp only [List.length_cons, arguments, fill_cons, Piece.fill, hfirst]
      rfl

/-- A call inserts the text of each argument once. -/
theorem fill_call (name : String) (texts : List String) :
    fill texts (call name texts.length) = name ++ "(" ++ ", ".intercalate texts ++ ")" := by
  have hargs : fill texts (arguments 0 texts.length) = ", ".intercalate texts :=
    fill_arguments [] texts
  simp [call, Piece.fill, fill_append, hargs, String.append_assoc]

theorem parts_arguments (start n : Nat) : parts (arguments start n) = List.range' start n := by
  induction n generalizing start with
  | zero => rfl
  | succ n ih =>
    cases n with
    | zero => rfl
    | succ n =>
      show start :: parts (arguments (start + 1) (n + 1)) = _
      rw [ih, ← List.range'_succ]

theorem parts_call (name : String) (n : Nat) : parts (call name n) = List.range n := by
  show (arguments 0 n ++ [Piece.word ")"]).filterMap Piece.part? = _
  rw [List.filterMap_append, List.range_eq_range', ← parts_arguments]
  exact List.append_nil _

theorem mem_chars_arguments {start n : Nat} {c : Char} (h : c ∈ chars (arguments start n)) :
    c = ',' ∨ c = ' ' := by
  induction n generalizing start with
  | zero => cases h
  | succ n ih =>
    cases n with
    | zero => cases h
    | succ n =>
      simp only [arguments, chars, List.flatMap_cons, Piece.chars, List.nil_append,
        List.mem_append] at h
      rcases h with h | h
      · simpa using h
      · exact ih h

theorem chars_call (name : String) (n : Nat) :
    chars (call name n) = name.toList ++ '(' :: (chars (arguments 0 n) ++ [')']) := by
  simp [call, chars, Piece.chars]

end Frame

/-! ## Characters of frames -/

/-- The characters that an operator continues with another operator. -/
def joining : List Char := ['+', '-', '=', '>']

theorem Name.not_of_isNameChar {c : Char} (h : isNameChar c = true) :
    Brackets.isBracket c = false ∧ c ∉ joining := by
  have hne : ∀ x : Char, isNameChar x = false → c ≠ x := by
    rintro x hx rfl
    cases hx.symm.trans h
  simp [Brackets.isBracket, joining, hne '(' rfl, hne ')' rfl, hne '[' rfl, hne ']' rfl,
    hne '+' rfl, hne '-' rfl, hne '=' rfl, hne '>' rfl]

/-- A frame whose own characters hold no operator, and whose brackets match. -/
structure Frame.Neat (frame : Frame) : Prop where
  plain : ∀ c ∈ frame.chars, c ∉ joining
  balanced : Brackets.Balanced frame.chars

instance (frame : Frame) : Decidable frame.Neat :=
  decidable_of_iff ((∀ c ∈ frame.chars, c ∉ joining) ∧ Brackets.Balanced frame.chars)
    ⟨fun h => ⟨h.1, h.2⟩, fun h => ⟨h.plain, h.balanced⟩⟩

@[simp] theorem Frame.chars_append (a b : Frame) : chars (a ++ b) = chars a ++ chars b :=
  List.flatMap_append

theorem Frame.Neat.append {a b : Frame} (ha : a.Neat) (hb : b.Neat) : (a ++ b).Neat where
  plain := by simpa [or_imp, forall_and] using ⟨ha.plain, hb.plain⟩
  balanced := by simpa using ha.balanced.append hb.balanced

theorem Frame.neat_word {text : String} (h : Name.IsText text.toList) :
    Frame.Neat [.word text] where
  plain := by simpa [chars, Piece.chars] using fun c hc => (Name.not_of_isNameChar (h.chars c hc)).2
  balanced := by
    simpa [chars, Piece.chars] using
      Brackets.balanced_of_forall fun c hc => (Name.not_of_isNameChar (h.chars c hc)).1

/-- A frame in parentheses. -/
theorem Frame.Neat.enclose {frame : Frame} (h : frame.Neat) :
    Frame.Neat (.word "(" :: (frame ++ [.word ")"])) where
  plain := by
    intro c hc
    simp only [chars, List.flatMap_cons, List.flatMap_append, List.mem_append, Piece.chars] at hc
    rcases hc with hc | hc | hc
    · obtain rfl : c = '(' := by simpa using hc
      decide
    · exact h.plain c hc
    · obtain rfl : c = ')' := by simpa using hc
      decide
  balanced := by simpa [chars, Piece.chars] using h.balanced.enclose

/-- The brackets of a call of a name without brackets match. -/
theorem Frame.balanced_call {name : String} (h : ∀ c ∈ name.toList, Brackets.isBracket c = false)
    (n : Nat) : Brackets.Balanced (Frame.call name n).chars := by
  rw [chars_call]
  refine (Brackets.balanced_of_forall h).append (Brackets.balanced_of_forall ?_).enclose
  intro c hc
  rcases mem_chars_arguments hc with rfl | rfl <;> rfl

theorem Frame.plain_call {name : String} (h : ∀ c ∈ name.toList, c ∉ joining) (n : Nat) :
    ∀ c ∈ (Frame.call name n).chars, c ∉ joining := by
  intro c hc
  rw [chars_call, List.mem_append, List.mem_cons, List.mem_append, List.mem_singleton] at hc
  rcases hc with hc | rfl | hc | rfl
  · exact h c hc
  · decide
  · rcases mem_chars_arguments hc with rfl | rfl <;> decide
  · decide

theorem Frame.neat_call {name : String} (h : Name.IsText name.toList) (n : Nat) :
    (Frame.call name n).Neat where
  plain := plain_call (fun c hc => (Name.not_of_isNameChar (h.chars c hc)).2) n
  balanced := balanced_call (fun c hc => (Name.not_of_isNameChar (h.chars c hc)).1) n

/-! ## The frames of a dialect -/

/-- What is composed has components. -/
theorem Ty.Composes.isSome_scalarKind? {args : List Ty} {ty : Ty} (h : Ty.Composes args ty) :
    ty.scalarKind?.isSome = true := by cases h <;> rfl

theorem Ty.Converts.isSome_scalarKind? {source ty : Ty} (h : source.Converts ty) :
    ty.scalarKind?.isSome = true := by cases h <;> rfl

/-- Texts with the types of what they are written for. -/
def operandsOf (texts : List String) (tys : List Ty) : List Operand :=
  List.zipWith Operand.mk texts tys

theorem text_operandsOf {texts : List String} {tys : List Ty} (h : texts.length = tys.length) :
    (operandsOf texts tys).map (·.text) = texts := by
  induction texts generalizing tys with
  | nil => cases tys <;> rfl
  | cons text texts ih =>
    cases tys with
    | nil => cases h
    | cons ty tys => exact congrArg (text :: ·) (ih (Nat.succ.inj h))

theorem callText_operandsOf {texts : List String} {tys : List Ty}
    (h : texts.length = tys.length) (name : String) :
    callText name (operandsOf texts tys) = (Frame.call name texts.length).fill texts := by
  rw [Frame.fill_call, callText, text_operandsOf h]

namespace Dialect

variable {p : Program} {d : Dialect} {c : Context}

/-- Calls of an intrinsic with arguments of some types insert the texts of the arguments
into a frame, whatever these are. -/
def Inserts (d : Dialect) (i : Intrinsic) (tys : List Ty) (frame : Frame) : Prop :=
  ∀ symbol texts, texts.length = tys.length →
    d.intrinsic symbol i (operandsOf texts tys) = .ok (frame.fill texts)

/-- The frame of conversions to the type of a name. -/
structure Casts (d : Dialect) (name : String) (frame : Frame) : Prop where
  /-- The text of the operand is inserted, whatever it is. -/
  inserts : ∀ text, d.castText name text = frame.fill [text]
  parts : frame.parts = [0]
  neat : frame.Neat
  starts : ∃ text rest, frame = .word text :: rest ∧ text.toList ≠ []

/-- What a frame starts with: text of its own, or the text of a resource. -/
inductive StartsWith (tys : List Ty) : Frame → Prop where
  | word {text rest} : text.toList ≠ [] → StartsWith tys (.word text :: rest)
  | resource {i ty rest} : tys[i]? = some ty → ty.isResource = true →
      StartsWith tys (.part i :: rest)

/-- The frame of calls of an intrinsic. -/
structure Spells (d : Dialect) (i : Intrinsic) (tys : List Ty) (frame : Frame) : Prop where
  inserts : d.Inserts i tys frame
  neat : frame.Neat
  starts : StartsWith tys frame

/-- A function of a name is called. -/
theorem spells_call {i : Intrinsic} {tys : List Ty} {name : String}
    (hname : Name.IsText name.toList)
    (h : ∀ symbol args, args.length = tys.length →
      d.intrinsic symbol i args = .ok (callText name args)) :
    d.Spells i tys (.call name tys.length) where
  inserts := by
    intro symbol texts hl
    rw [h symbol _ (by simp [operandsOf, hl]), callText_operandsOf hl, hl]
  neat := Frame.neat_call hname _
  starts := .word hname.ne_nil

/-- The frame that the form of an expression gives. -/
inductive Framed (d : Dialect) (c : Context) : Expr → Frame → Prop where
  | literal {value ty} : Framed d c (.literal value ty) [.word (d.literalText value)]
  | var {name ty} : Framed d c (.var name ty) [.word (d.identifier name)]
  | resource {name ty b} : c.model.resource? name = some b →
      Framed d c (.resource name ty) [.word (d.identifier b.name)]
  | field {base member ty} :
      Framed d c (.field base member ty) [.part 0, .word ".", .word (d.identifier member)]
  | swizzle {base components ty} : Framed d c (.swizzle base components ty)
      [.part 0, .word ".", .word (Core.swizzleText components)]
  | index {base position ty} :
      Framed d c (.index base position ty) [.part 0, .word "[", .part 1, .word "]"]
  | unaryBefore {op operand ty} : op.isPostfix = false →
      Framed d c (.unary op operand ty) [.word "(", .word op.symbol, .part 0, .word ")"]
  | unaryBehind {op operand ty} : op.isPostfix = true →
      Framed d c (.unary op operand ty) [.word "(", .part 0, .word op.symbol, .word ")"]
  | product {op lhs rhs ty} : (d.callsMul && isMatrixProduct op lhs.ty rhs.ty) = true →
      Framed d c (.binary op lhs rhs ty) [.word "mul(", .part 1, .word ", ", .part 0, .word ")"]
  | binary {op lhs rhs ty} : (d.callsMul && isMatrixProduct op lhs.ty rhs.ty) = false →
      Framed d c (.binary op lhs rhs ty)
        [.word "(", .part 0, .word (" " ++ op.symbol ++ " "), .part 1, .word ")"]
  | conditional {condition yes no ty} : Framed d c (.conditional condition yes no ty)
      [.word "(", .part 0, .word " ? ", .part 1, .word " : ", .part 2, .word ")"]
  | call {function args ty f} : c.model.function? function = some f →
      Framed d c (.call function args ty)
        (.call (d.functionName c.model c.stage f) args.length)
  | intrinsic {i args ty frame} : d.Spells i (args.map Expr.ty) frame →
      Framed d c (.intrinsic i args ty) frame
  | construct {args ty name} : d.typeName ty = .ok name → Name.IsText name.toList →
      Framed d c (.construct args ty) (.call name args.length)
  | cast {operand ty name frame} : d.typeName ty = .ok name → d.Casts name frame →
      Framed d c (.cast operand ty) frame

/-- The texts of the parts of an expression. -/
def PartTexts (d : Dialect) (c : Context) (e : Expr) (texts : List String) : Prop :=
  List.Forall₂ (fun x text => d.expr c x = .ok text) e.children texts

theorem PartTexts.length {e : Expr} {texts : List String} (h : d.PartTexts c e texts) :
    texts.length = e.children.length := h.length_eq.symm

theorem PartTexts.length_map_ty {e : Expr} {texts : List String} (h : d.PartTexts c e texts) :
    texts.length = (e.children.map Expr.ty).length := by rw [h.length, List.length_map]

theorem operands_of_texts {args : List Expr} {texts : List String}
    (h : List.Forall₂ (fun x text => d.expr c x = .ok text) args texts) :
    d.operands c args = .ok (operandsOf texts (args.map Expr.ty)) := by
  induction h with
  | nil => rfl
  | cons hx _ ih =>
    simp only [operands, bind_eq_ok, pure_eq_ok]
    exact ⟨_, hx, _, ih, rfl⟩

/-- A call of an intrinsic is the frame with the texts of the arguments. -/
theorem Inserts.expr_eq {i : Intrinsic} {args : List Expr} {ty : Ty} {frame : Frame}
    {texts : List String} (h : d.Inserts i (args.map Expr.ty) frame)
    (ht : d.PartTexts c (.intrinsic i args ty) texts) :
    d.expr c (.intrinsic i args ty) = .ok (frame.fill texts) := by
  have hops := operands_of_texts ht
  simp only [Expr.children] at hops
  rw [expr, bind_of_ok hops]
  exact h _ _ ht.length_map_ty

/-- An expression is its frame with the texts of its parts. -/
theorem Framed.expr_eq {e : Expr} {frame : Frame} {texts : List String} (h : d.Framed c e frame)
    (ht : d.PartTexts c e texts) : d.expr c e = .ok (frame.fill texts) := by
  cases h with
  | literal => simp [expr, Piece.fill]
  | var => simp [expr, Piece.fill]
  | resource hb => simp [expr, hb, Piece.fill]
  | field =>
    rcases ht with _ | ⟨hbase, ⟨⟩⟩
    simp [expr, hbase, Piece.fill, String.append_assoc]
  | swizzle =>
    rcases ht with _ | ⟨hbase, ⟨⟩⟩
    simp [expr, hbase, Piece.fill, String.append_assoc]
  | index =>
    rcases ht with _ | ⟨hbase, _ | ⟨hposition, ⟨⟩⟩⟩
    simp [expr, hbase, hposition, Piece.fill, String.append_assoc]
  | unaryBefore hop =>
    rcases ht with _ | ⟨hoperand, ⟨⟩⟩
    simp [expr, hoperand, unaryText, hop, Piece.fill, String.append_assoc]
  | unaryBehind hop =>
    rcases ht with _ | ⟨hoperand, ⟨⟩⟩
    simp [expr, hoperand, unaryText, hop, Piece.fill, String.append_assoc]
  | product hmul =>
    rcases ht with _ | ⟨hleft, _ | ⟨hright, ⟨⟩⟩⟩
    simp [expr, hleft, hright, Dialect.binary, hmul, Piece.fill, String.append_assoc]
  | binary hmul =>
    rcases ht with _ | ⟨hleft, _ | ⟨hright, ⟨⟩⟩⟩
    simp [expr, hleft, hright, Dialect.binary, hmul, Piece.fill, String.append_assoc]
  | conditional =>
    rcases ht with _ | ⟨hcondition, _ | ⟨hyes, _ | ⟨hno, ⟨⟩⟩⟩⟩
    simp [expr, hcondition, hyes, hno, Piece.fill, String.append_assoc]
  | call hf =>
    have hops := operands_of_texts ht
    have hcall := callText_operandsOf ht.length_map_ty
    simp only [Expr.children, ht.length] at hops hcall
    simp only [expr, hf, hops, bind_eq_ok, pure_eq_ok]
    exact ⟨_, rfl, hcall _⟩
  | intrinsic hi => exact hi.inserts.expr_eq ht
  | construct hname =>
    have hops := operands_of_texts ht
    have hcall := callText_operandsOf ht.length_map_ty
    simp only [Expr.children, ht.length] at hops hcall
    simp only [expr, hname, hops, bind_eq_ok, pure_eq_ok]
    exact ⟨_, rfl, _, rfl, hcall _⟩
  | cast hname hcasts =>
    rcases ht with _ | ⟨hoperand, ⟨⟩⟩
    simp only [expr, Dialect.cast, hoperand, hname, bind_eq_ok, pure_eq_ok]
    exact ⟨_, rfl, _, rfl, hcasts.inserts _⟩

/-! ## Every expression has a frame -/

/-- A dialect with a frame for every intrinsic and every conversion. -/
structure HasFrames (p : Program) (d : Dialect) : Prop where
  floatSuffix : ∀ c ∈ d.floatSuffix.toList, Name.isNameChar c = true
  intrinsic : ∀ {i : Intrinsic} {tys : List Ty}, i.Accepts tys → ∃ frame, d.Spells i tys frame
  typeName : ∀ {ty : Ty}, ty.Plain p → ty.scalarKind?.isSome = true →
    ∃ name, d.typeName ty = .ok name ∧ Name.IsText name.toList
  cast : ∀ {name : String}, Name.IsText name.toList → ∃ frame, d.Casts name frame

theorem exists_framed (hd : d.HasFrames p) {e : Expr} (ht : e.Typed p) (hw : e.ty.WellFormed p)
    (hr : e.Resolves c.model) : ∃ frame, d.Framed c e frame := by
  cases e with
  | literal => exact ⟨_, .literal⟩
  | var => exact ⟨_, .var⟩
  | resource =>
    obtain ⟨b, hb⟩ := hr
    exact ⟨_, .resource hb⟩
  | field => exact ⟨_, .field⟩
  | swizzle => exact ⟨_, .swizzle⟩
  | index => exact ⟨_, .index⟩
  | unary op =>
    cases hop : op.isPostfix with
    | false => exact ⟨_, .unaryBefore hop⟩
    | true => exact ⟨_, .unaryBehind hop⟩
  | binary op lhs rhs =>
    cases hmul : d.callsMul && isMatrixProduct op lhs.ty rhs.ty with
    | false => exact ⟨_, .binary hmul⟩
    | true => exact ⟨_, .product hmul⟩
  | conditional => exact ⟨_, .conditional⟩
  | call =>
    obtain ⟨f, hf⟩ := hr
    exact ⟨_, .call hf⟩
  | intrinsic =>
    cases ht with
    | intrinsic haccepts =>
      obtain ⟨frame, hframe⟩ := hd.intrinsic haccepts
      exact ⟨frame, .intrinsic hframe⟩
  | construct args ty =>
    cases ht with
    | construct hcomposes =>
      obtain ⟨name, hname, htext⟩ := hd.typeName (hcomposes.plain hw) hcomposes.isSome_scalarKind?
      exact ⟨_, .construct hname htext⟩
  | cast operand ty =>
    cases ht with
    | cast hconverts =>
      obtain ⟨name, hname, htext⟩ := hd.typeName (hconverts.plain hw) hconverts.isSome_scalarKind?
      obtain ⟨frame, hcasts⟩ := hd.cast htext
      exact ⟨frame, .cast hname hcasts⟩

/-- What frames carry over from the texts of the parts holds of the text of every
expression. -/
theorem exists_text {R : Expr → Prop} {Q : Expr → String → Prop}
    (hframe : ∀ x, R x → ∃ frame, d.Framed c x frame)
    (hfill : ∀ x frame texts, R x → d.Framed c x frame → d.PartTexts c x texts →
      List.Forall₂ Q x.children texts → Q x (frame.fill texts))
    {e : Expr} (h : ∀ x : Expr, x.Within e → R x) : ∃ text, d.expr c e = .ok text ∧ Q e text := by
  induction e using Expr.induct with
  | h e ih =>
    obtain ⟨texts, htexts⟩ : ∃ texts,
        List.Forall₂ (fun x text => d.expr c x = .ok text ∧ Q x text) e.children texts :=
      exists_forall₂ fun x hx => ih x hx fun y hy => h y (.of_child hx hy)
    obtain ⟨frame, hf⟩ := hframe e (h e .self)
    have hparts : d.PartTexts c e texts := htexts.imp fun _ _ hx => hx.1
    exact ⟨_, hf.expr_eq hparts,
      hfill e frame texts (h e .self) hf hparts (htexts.imp fun _ _ hx => hx.2)⟩

end Dialect

end Shading
