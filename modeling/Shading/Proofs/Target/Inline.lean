import Shading.Generation.Backend
import Shading.Proofs.Target.Glsl
import Shading.Proofs.Target.Spelling
import Shading.Proofs.Text.Writer

/-!
# Text on one line

What a dialect writes on one line has neither braces nor ends of lines, as long as the names
in it have none: those of variables, resources and fields, of the functions that are called
and of the structs in types (`Core.namesOf`).  No expression has to be typed for that, and no
number has to be finite.
-/

namespace Shading

open Shading.Core (Expr Stmt Literal)

/-! ## Parts of a line -/

theorem Name.IsDotted.inline {name : String} (h : Name.IsDotted name) : Inline name :=
  fun c hc => isInline_of_isNameChar (h.isText.chars c hc)

theorem Name.inline_mangle {name : String} (h : Inline name) : Inline (Name.mangle name) := by
  intro c hc
  rcases Name.mem_mangle hc with hc | rfl
  · exact h c hc
  · rfl

theorem inline_correctedName (reserved : List String) {name : String} (h : Inline name) :
    Inline (correctedName reserved name) := by
  intro c hc
  rcases Name.mem_correctedName hc with hc | rfl
  · exact h c hc
  · rfl

theorem inline_toString (n : Nat) : Inline (toString n) := fun c hc =>
  isInline_of_isNameChar ((Name.isText_toString n).chars c hc)

theorem inline_toString_word (n : UInt32) : Inline (toString n) := inline_toString n.toNat

theorem inline_toString_int (n : Int) : Inline (toString n) := by
  cases n with
  | ofNat n => exact inline_toString n
  | negSucc n =>
    rw [Inline, Name.toList_toString_negSucc]
    exact List.forall_mem_cons.2 ⟨rfl, inline_toString (n + 1)⟩

theorem inline_parenthesized {text : String} (h : Inline text) : Inline (parenthesized text) := by
  rw [parenthesized]
  split
  · exact h
  · simp +decide [h]

theorem inline_intercalate {separator : String} {texts : List String}
    (hseparator : Inline separator) (h : AllInline texts) :
    Inline (separator.intercalate texts) := by
  induction texts with
  | nil => exact inline_empty
  | cons text rest ih =>
    obtain ⟨htext, hrest⟩ := List.forall_mem_cons.1 h
    cases rest with
    | nil => simpa using htext
    | cons next rest => simp [htext, hseparator, ih hrest]

theorem inline_callText {name : String} {args : List Operand} (hname : Inline name)
    (h : ∀ a ∈ args, Inline a.text) : Inline (callText name args) := by
  have hargs : Inline (", ".intercalate (args.map (·.text))) :=
    inline_intercalate (by decide) (List.forall_mem_map.2 h)
  simp +decide [callText, hname, hargs]

theorem ScalarKind.inline_text (kind : ScalarKind) : Inline kind.text := by cases kind <;> decide

theorem UnaryOp.inline_symbol (op : UnaryOp) : Inline op.symbol := by cases op <;> decide

theorem BinaryOp.inline_symbol (op : BinaryOp) : Inline op.symbol := by cases op <;> decide

theorem AssignOp.inline_symbol (op : AssignOp) : Inline op.symbol := by cases op <;> decide

theorem Intrinsic.inline_commonName {i : Intrinsic} {name : String}
    (h : i.commonName? = some name) : Inline name := by
  cases i <;> cases h <;> decide

theorem Core.inline_swizzleText (components : List UInt8) :
    Inline (Core.swizzleText components) := by
  intro c hc
  rw [Core.swizzleText, String.toList_ofList] at hc
  obtain ⟨component, -, rfl⟩ := List.mem_map.1 hc
  rw [Core.componentLetter]
  split_ifs <;> rfl

theorem Numeral.inline {numeral : List Char} (h : Numeral numeral) :
    ∀ c ∈ numeral, isInline c = true := by
  intro c hc
  rcases h.eq_or_of_mem hc with hc | rfl
  · exact isInline_of_isNameChar hc
  · rfl

/-- Every number is written on one line, those that are not finite included. -/
theorem Binary32.inline_text (x : Binary32) : Inline x.text := by
  cases hfinite : x.isFinite with
  | true =>
    obtain ⟨numeral, hnumeral, htext⟩ := exists_numeral_text hfinite
    rw [Inline, htext]
    refine List.forall_mem_append.2 ⟨?_, hnumeral.inline⟩
    split <;> decide
  | false =>
    rw [Binary32.text, if_neg (by simp [hfinite]), Binary32.specialText]
    split_ifs <;> decide

/-! ## Dialects -/

/-- What a dialect adds to texts on one line keeps them on it. -/
structure Dialect.SpellsInline (d : Dialect) : Prop where
  typeName : ∀ (ty : Ty) text, AllInline ty.structs → d.typeName ty = .ok text →
    Inline text
  floatSuffix : Inline d.floatSuffix
  castText : ∀ ty operand, Inline ty → Inline operand → Inline (d.castText ty operand)
  ownIntrinsic : ∀ (i : Intrinsic) args text, (∀ a ∈ args, Inline a.text) →
    d.ownIntrinsic? i args = some text → Inline text

/-- Types are spelled on one line where resources are, and where the text of an element goes into
the texts of arrays and buffers on one line. -/
theorem Dialect.inline_typeName {d : Dialect} (hvoid : d.typeName .void = .ok "void")
    (hscalar : ∀ kind, d.typeName (.scalar kind) = .ok kind.text)
    (hvector : ∀ kind size, ∃ stem, Inline stem ∧
      d.typeName (.vector kind size) = .ok (stem ++ toString size))
    (hmatrix : ∃ name, Inline name ∧ d.typeName .matrix = .ok name)
    (hstruct : ∀ name, d.typeName (.struct name) = .ok (d.globalName name))
    (harray : ∀ element length text, d.typeName (.array element length) = .ok text →
      ∃ inner, d.typeName element = .ok inner ∧ (Inline inner → Inline text))
    (hresource : ∀ kind access text, d.typeName (.resource kind access) = .ok text → Inline text)
    (hbuffer : ∀ kind element access text, d.typeName (.resourceOf kind element access) = .ok text →
      Inline text ∨ ∃ inner, d.typeName element = .ok inner ∧ (Inline inner → Inline text))
    (ty : Ty) (text : String) (hnames : AllInline ty.structs)
    (h : d.typeName ty = .ok text) : Inline text := by
  induction ty generalizing text with
  | void =>
    cases hvoid.symm.trans h
    decide
  | scalar kind =>
    cases (hscalar kind).symm.trans h
    exact kind.inline_text
  | vector kind size =>
    obtain ⟨stem, hstem, hname⟩ := hvector kind size
    cases hname.symm.trans h
    exact inline_append.2 ⟨hstem, inline_toString size.toNat⟩
  | matrix =>
    obtain ⟨name, hin, hname⟩ := hmatrix
    cases hname.symm.trans h
    exact hin
  | struct name =>
    cases (hstruct name).symm.trans h
    exact inline_correctedName d.reserved (Name.inline_mangle (hnames name (.head _)))
  | array element length ih =>
    obtain ⟨inner, hinner, htext⟩ := harray element length text h
    exact htext (ih inner hnames hinner)
  | resource kind access => exact hresource kind access text h
  | resourceOf kind element access ih =>
    obtain htext | ⟨inner, hinner, htext⟩ := hbuffer kind element access text h
    · exact htext
    · exact htext (ih inner hnames hinner)

/-! ### The dialects of the targets -/

theorem Hlsl.inline_bufferName {kind : ResourceKind} {access : Access} {element : String}
    (h : Inline element) : Inline (bufferName kind access element) := by
  unfold bufferName
  split
  · exact h
  · split <;> simp +decide [h]

theorem Hlsl.spellsInline : dialect.SpellsInline where
  typeName := by
    refine Dialect.inline_typeName rfl (fun _ => rfl)
      (fun kind size => ⟨_, kind.inline_text, rfl⟩) ⟨_, by decide, rfl⟩ (fun _ => rfl) ?_ ?_ ?_
    · intro element length text h
      simp only [dialect, typeName, bind_eq_ok, pure_eq_ok] at h
      obtain ⟨inner, hinner, rfl⟩ := h
      exact ⟨inner, hinner, fun hin => by simp +decide [hin, inline_toString_word]⟩
    · intro kind access text h
      cases kind <;> cases h <;> decide
    · intro kind element access text h
      simp only [dialect, typeName] at h
      split at h
      · next name hname =>
        cases h
        exact .inl (by cases kind <;> cases hname <;> decide)
      · simp only [bind_eq_ok, pure_eq_ok] at h
        obtain ⟨inner, hinner, rfl⟩ := h
        exact .inr ⟨inner, hinner, inline_bufferName⟩
  floatSuffix := by decide
  castText ty operand hty hoperand := by simp +decide [dialect, hty, hoperand]
  ownIntrinsic := by
    intro i args text hargs h
    cases i with
    | atan2 | frac | lerp | rsqrt | saturate | ddx | ddy =>
      cases h
      exact inline_callText (by decide) hargs
    | sample | load =>
      rcases args with _ | ⟨a, _ | ⟨b, _ | ⟨e, rest⟩⟩⟩ <;> cases h
      simp only [List.forall_mem_cons] at hargs
      simp +decide [hargs]
    | sampleLevel =>
      rcases args with _ | ⟨a, _ | ⟨b, _ | ⟨e, _ | ⟨level, rest⟩⟩⟩⟩ <;> cases h
      simp only [List.forall_mem_cons] at hargs
      simp +decide [hargs]
    | barrier => cases h; decide
    | _ => cases h

theorem Glsl.inline_resourceName {v : Version} (hv : v ∈ versions) {kind : ResourceKind} {ty : Ty}
    {text : String} (h : resourceName v kind ty = .ok text) : Inline text := by
  rw [resourceName] at h
  split at h <;> cases h
  next hname =>
    simp only [versions, List.mem_cons, List.not_mem_nil, or_false] at hv
    rcases hv with rfl | rfl | rfl <;> cases kind <;> cases hname <;> decide

theorem Glsl.inline_sampleText {v : Version} (hv : v ∈ versions)
    {texture sampler coordinates : Operand} {level : Option Operand}
    (htexture : Inline texture.text) (hsampler : Inline sampler.text)
    (hcoordinates : Inline coordinates.text) (hlevel : ∀ l ∈ level, Inline l.text) :
    Inline (sampleText v texture sampler coordinates level) := by
  have hsampled : Inline (v.samplerText texture sampler) := by
    simp only [versions, List.mem_cons, List.not_mem_nil, or_false] at hv
    rcases hv with rfl | rfl | rfl
    · exact htexture
    · exact htexture
    · simp only [vulkan450]
      split <;> simp +decide [htexture, hsampler]
  have hdepth : ∀ {text : String}, Inline text →
      Inline (if texture.ty.resourceKind? = some .depthTexture2D then text ++ ".r" else text) := by
    intro text htext
    split
    · exact inline_append.2 ⟨htext, by decide⟩
    · exact htext
  cases level with
  | none => exact hdepth (by simp +decide [hsampled, hcoordinates])
  | some level => exact hdepth (by simp +decide [hsampled, hcoordinates, hlevel level rfl])

theorem Glsl.spellsInline {v : Version} (hv : v ∈ versions) : (dialect v).SpellsInline where
  typeName := by
    refine Dialect.inline_typeName rfl (fun _ => rfl)
      (fun kind size => ⟨vectorMark kind ++ "vec", by cases kind <;> decide, rfl⟩)
      ⟨_, by decide, rfl⟩ (fun _ => rfl) ?_ ?_ ?_
    · intro element length text h
      simp only [dialect, typeName, bind_eq_ok, pure_eq_ok] at h
      obtain ⟨inner, hinner, rfl⟩ := h
      exact ⟨inner, hinner, fun hin => by simp +decide [hin, inline_toString_word]⟩
    · intro kind access text h
      simp only [dialect, typeName] at h
      split at h
      · cases h
      · exact inline_resourceName hv h
    · intro kind element access text h
      simp only [dialect, typeName] at h
      split at h
      · exact .inr ⟨text, h, id⟩
      · exact .inl (inline_resourceName hv h)
  floatSuffix := inline_empty
  castText ty operand hty hoperand := by simp +decide [dialect, hty, hoperand]
  ownIntrinsic := by
    intro i args text hargs h
    cases i with
    | atan2 | frac | lerp | rsqrt | ddx | ddy =>
      cases h
      exact inline_callText (by decide) hargs
    | saturate =>
      rcases args with _ | ⟨a, rest⟩ <;> cases h
      simp +decide [hargs a (.head _)]
    | sample | sampleLevel =>
      rcases args with _ | ⟨a, _ | ⟨b, _ | ⟨e, rest⟩⟩⟩ <;> cases h
      simp only [List.forall_mem_cons] at hargs
      obtain ⟨ha, hb, he, hrest⟩ := hargs
      exact inline_sampleText hv ha hb he fun l hl => hrest l (List.mem_of_mem_head? hl)
    | load =>
      rcases args with _ | ⟨a, _ | ⟨b, _ | ⟨e, _ | ⟨_, _⟩⟩⟩⟩ <;> cases h
      simp only [List.forall_mem_cons] at hargs
      simp +decide [hargs]
    | barrier => cases h; decide
    | _ => cases h

theorem Metal.inline_coordinatesText {texture coordinates : Operand}
    (h : Inline coordinates.text) : Inline (coordinatesText texture coordinates) := by
  rw [coordinatesText]
  split
  · simp +decide [inline_parenthesized h]
  · exact h

theorem Metal.spellsInline : dialect.SpellsInline where
  typeName := by
    refine Dialect.inline_typeName rfl (fun _ => rfl)
      (fun kind size => ⟨_, kind.inline_text, rfl⟩) ⟨_, by decide, rfl⟩ (fun _ => rfl) ?_ ?_ ?_
    · intro element length text h
      simp only [dialect, typeName, bind_eq_ok, pure_eq_ok] at h
      obtain ⟨inner, hinner, rfl⟩ := h
      exact ⟨inner, hinner, fun hin => by simp +decide [hin, inline_toString_word]⟩
    · intro kind access text h
      cases kind <;> cases h <;> decide
    · intro kind element access text h
      simp only [dialect, typeName] at h
      split at h
      · next name hname =>
        cases h
        exact .inl (by cases kind <;> cases hname <;> decide)
      · exact .inr ⟨text, h, id⟩
  floatSuffix := by decide
  castText ty operand hty hoperand := by simp +decide [dialect, hty, hoperand]
  ownIntrinsic := by
    intro i args text hargs h
    cases i with
    | atan2 | frac | lerp | rsqrt | saturate | ddx | ddy =>
      cases h
      exact inline_callText (by decide) hargs
    | sample =>
      rcases args with _ | ⟨a, _ | ⟨b, _ | ⟨e, _ | ⟨_, _⟩⟩⟩⟩ <;> cases h
      simp only [List.forall_mem_cons] at hargs
      simp +decide [hargs, inline_coordinatesText]
    | sampleLevel =>
      rcases args with _ | ⟨a, _ | ⟨b, _ | ⟨e, _ | ⟨level, _ | ⟨_, _⟩⟩⟩⟩⟩ <;> cases h
      simp only [List.forall_mem_cons] at hargs
      simp +decide [hargs, inline_coordinatesText]
    | load =>
      rcases args with _ | ⟨a, _ | ⟨b, _ | ⟨e, _ | ⟨_, _⟩⟩⟩⟩ <;> cases h
      simp only [List.forall_mem_cons] at hargs
      simp +decide [hargs]
    | barrier => cases h; decide
    | _ => cases h

/-- Every target keeps texts on their line. -/
theorem Target.spellsInline (t : Target) (fixup : Option Fixup) :
    (t.language fixup).dialect.SpellsInline := by
  cases t with
  | hlsl => exact Hlsl.spellsInline
  | glsl330 => exact Glsl.spellsInline (by simp [Glsl.versions])
  | glslEs300 => exact Glsl.spellsInline (by simp [Glsl.versions])
  | glsl450 => exact Glsl.spellsInline (by simp [Glsl.versions])
  | metal => exact Metal.spellsInline

/-! ## Names -/

/-- The names that an expression itself brings into a text: what it mentions, the short name of
the function it calls, and the structs of its type. -/
def Core.Expr.ownNames (m : Model) (e : Expr) : List String :=
  let called :=
    match e with
    | .call function _ _ => m.function? function
    | _ => none
  e.name?.toList ++ (called.map (·.name)).toList ++ e.ty.structs

/-- The names that a statement itself brings into a text. -/
def Core.Stmt.ownNames : Stmt → List String
  | .declare name ty _ => name :: ty.structs
  | _ => []

/-- The names that a body brings into a text. -/
def Core.namesOf (m : Model) (body : List Stmt) : List String :=
  (Stmt.walkAll body).flatMap Stmt.ownNames ++ (exprsOf body).flatMap (Expr.ownNames m)

theorem Core.Stmt.OccursIn.mem_namesOf {m : Model} {body : List Stmt} {s : Stmt} {name : String}
    (h : s.OccursIn body) (hname : name ∈ s.ownNames) : name ∈ namesOf m body := by
  obtain ⟨t, ht, hs⟩ := h
  have hwalk : s ∈ Stmt.walkAll body := Stmt.mem_walkAll.2 ⟨t, ht, Stmt.mem_walk_iff.2 hs⟩
  exact List.mem_append_left _ (List.mem_flatMap.2 ⟨s, hwalk, hname⟩)

theorem Core.Expr.OccursIn.mem_namesOf {m : Model} {body : List Stmt} {e : Expr} {name : String}
    (h : e.OccursIn body) (hname : name ∈ e.ownNames m) : name ∈ namesOf m body :=
  List.mem_append_right _ (List.mem_flatMap.2 ⟨e, mem_exprsOf_iff.2 h, hname⟩)

/-! ## Expressions -/

namespace Dialect

variable {d : Dialect} {c : Context}

theorem inline_identifier {name : String} (h : Inline name) : Inline (d.identifier name) :=
  inline_correctedName d.reserved h

theorem inline_functionName {stage : Stage} {f : Function} (hname : Inline f.name)
    (hqualified : Inline f.qualifiedName) : Inline (d.functionName c.model stage f) := by
  rw [functionName]
  split
  · exact inline_identifier hname
  · exact inline_identifier (Name.inline_mangle hqualified)

theorem SpellsInline.literalText (hd : d.SpellsInline) (value : Literal) :
    Inline (d.literalText value) := by
  cases value with
  | bool value =>
    rw [Dialect.literalText]
    split <;> decide
  | int value => exact inline_toString_int value.toInt
  | uint value => exact inline_append.2 ⟨inline_toString_word value, by decide⟩
  | float value => exact inline_append.2 ⟨value.inline_text, hd.floatSuffix⟩

theorem inline_unaryText (op : UnaryOp) {operand : String} (h : Inline operand) :
    Inline (unaryText op operand) := by
  unfold unaryText
  split <;> simp +decide [h, op.inline_symbol]

theorem inline_binary {lhs rhs : Operand} (op : BinaryOp) (hl : Inline lhs.text)
    (hr : Inline rhs.text) : Inline (d.binary op lhs rhs) := by
  unfold binary
  split <;> simp +decide [hl, hr, op.inline_symbol]

theorem SpellsInline.intrinsic (hd : d.SpellsInline) {symbol text : String} {i : Intrinsic}
    {args : List Operand} (hargs : ∀ a ∈ args, Inline a.text)
    (h : d.intrinsic symbol i args = .ok text) : Inline text := by
  rw [Dialect.intrinsic] at h
  split at h
  · next hown =>
    cases h
    exact hd.ownIntrinsic i args text hargs hown
  · split at h <;> cases h
    next hcommon => exact inline_callText (Intrinsic.inline_commonName hcommon) hargs

theorem inline_operands {args : List Expr} {ops : List Operand}
    (h : ∀ e ∈ args, ∀ text, d.expr c e = .ok text → Inline text)
    (hops : d.operands c args = .ok ops) : ∀ a ∈ ops, Inline a.text := by
  induction args generalizing ops with
  | nil =>
    cases hops
    exact List.forall_mem_nil _
  | cons e rest ih =>
    simp only [operands, bind_eq_ok, pure_eq_ok] at hops
    obtain ⟨text, htext, others, hothers, rfl⟩ := hops
    obtain ⟨he, hrest⟩ := List.forall_mem_cons.1 h
    exact List.forall_mem_cons.2 ⟨he text htext, ih hrest hothers⟩

/-- An expression is written on one line when its names stay on one. -/
theorem inline_expr (hd : d.SpellsInline) {e : Expr}
    (h : ∀ x : Expr, x.Within e → AllInline (x.ownNames c.model)) {text : String}
    (htext : d.expr c e = .ok text) : Inline text := by
  induction e using Expr.induct generalizing text with
  | h e ih =>
    have hown := h e .self
    have hchild : ∀ x ∈ e.children, ∀ text, d.expr c x = .ok text → Inline text :=
      fun x hx _ hx' => ih x hx (fun y hy => h y (.of_child hx hy)) hx'
    cases e with
    | literal value ty =>
      simp only [expr] at htext
      cases htext
      exact hd.literalText value
    | var name ty =>
      simp only [expr] at htext
      cases htext
      exact inline_identifier (hown name (by simp [Expr.ownNames, Expr.name?]))
    | resource name ty =>
      simp only [expr] at htext
      split at htext <;> cases htext
      next b hb =>
        have hname : b.name = name := by simpa using List.find?_some hb
        exact inline_identifier (hname ▸ hown name (by simp [Expr.ownNames, Expr.name?]))
    | field base field ty =>
      simp only [expr, bind_eq_ok, pure_eq_ok] at htext
      obtain ⟨b, hb, rfl⟩ := htext
      have hfield := inline_identifier (d := d)
        (hown field (by simp [Expr.ownNames, Expr.name?]))
      simp +decide [hchild base (by simp [Expr.children]) b hb, hfield]
    | swizzle base components ty =>
      simp only [expr, bind_eq_ok, pure_eq_ok] at htext
      obtain ⟨b, hb, rfl⟩ := htext
      simp +decide [hchild base (by simp [Expr.children]) b hb, Core.inline_swizzleText]
    | index base position ty =>
      simp only [expr, bind_eq_ok, pure_eq_ok] at htext
      obtain ⟨b, hb, i, hi, rfl⟩ := htext
      simp +decide [hchild base (by simp [Expr.children]) b hb,
        hchild position (by simp [Expr.children]) i hi]
    | unary op operand ty =>
      simp only [expr, bind_eq_ok, pure_eq_ok] at htext
      obtain ⟨o, ho, rfl⟩ := htext
      exact inline_unaryText op (hchild operand (by simp [Expr.children]) o ho)
    | binary op lhs rhs ty =>
      simp only [expr, bind_eq_ok, pure_eq_ok] at htext
      obtain ⟨l, hl, r, hr, rfl⟩ := htext
      exact inline_binary op (hchild lhs (by simp [Expr.children]) l hl)
        (hchild rhs (by simp [Expr.children]) r hr)
    | conditional condition yes no ty =>
      simp only [expr, bind_eq_ok, pure_eq_ok] at htext
      obtain ⟨b, hb, y, hy, n, hn, rfl⟩ := htext
      simp +decide [hchild condition (by simp [Expr.children]) b hb,
        hchild yes (by simp [Expr.children]) y hy, hchild no (by simp [Expr.children]) n hn]
    | call function args ty =>
      simp only [expr] at htext
      split at htext
      · cases htext
      · next f hf =>
        simp only [bind_eq_ok, pure_eq_ok] at htext
        obtain ⟨ops, hops, rfl⟩ := htext
        have hqualified : f.qualifiedName = function := by simpa using List.find?_some hf
        refine inline_callText (inline_functionName ?_ ?_) (inline_operands hchild hops)
        · exact hown f.name (by simp [Expr.ownNames, hf])
        · exact hqualified ▸ hown function (by simp [Expr.ownNames, Expr.name?])
    | intrinsic i args ty =>
      simp only [expr, bind_eq_ok] at htext
      obtain ⟨ops, hops, htext⟩ := htext
      exact hd.intrinsic (inline_operands hchild hops) htext
    | construct args ty =>
      simp only [expr, bind_eq_ok, pure_eq_ok] at htext
      obtain ⟨ops, hops, name, hname, rfl⟩ := htext
      refine inline_callText ?_ (inline_operands hchild hops)
      exact hd.typeName ty name (fun x hx => hown x (by simp [Expr.ownNames, Expr.ty, hx])) hname
    | cast operand ty =>
      simp only [expr, cast, bind_eq_ok, pure_eq_ok] at htext
      obtain ⟨o, ho, name, hname, rfl⟩ := htext
      refine hd.castText name o ?_ (hchild operand (by simp [Expr.children]) o ho)
      exact hd.typeName ty name (fun x hx => hown x (by simp [Expr.ownNames, Expr.ty, hx])) hname

end Dialect

end Shading
