import Shading.Proofs.Target.Intrinsics

/-!
# Names and constants in expressions

An expression names variables, resources, fields and functions (`Expr.name?`).  All that a
dialect does to a name is to put an underscore in the place of a point or behind the name,
and to leave out the qualifiers of the entry point's name.  So the text of a name has no
characters that the name has not, underscores apart.

A constant is written as a numeral or a word, with a sign before it if it is negative.
-/

namespace Shading

open Shading.Core (Expr Literal)

/-! ## Names -/

/-- The name that an expression itself mentions: of a variable, a resource, a field or a
called function. -/
def Core.Expr.name? : Expr → Option String
  | .var name _ | .resource name _ | .field _ name _ | .call name _ _ => some name
  | _ => none

/-- All names in an expression are of a kind. -/
def Core.Expr.Names (P : String → Prop) (e : Expr) : Prop :=
  ∀ x : Expr, x.Within e → ∀ name, x.name? = some name → P name

theorem Core.Expr.Names.within {P : String → Prop} {e x : Expr} (h : e.Names P)
    (hx : x.Within e) : x.Names P := fun y hy => h y (hy.trans hx)

namespace Name

variable {reserved : List String} {name : String} {c : Char}

theorem mem_correctedName (h : c ∈ (correctedName reserved name).toList) :
    c ∈ name.toList ∨ c = '_' := by
  rw [correctedName] at h
  split at h
  · simpa using h
  · exact .inl h

theorem mem_mangle (h : c ∈ (mangle name).toList) : c ∈ name.toList ∨ c = '_' := by
  rw [toList_mangle, List.mem_map] at h
  obtain ⟨x, hx, rfl⟩ := h
  split
  · exact .inr rfl
  · exact .inl hx

theorem mem_short (h : c ∈ (short name).toList) : c ∈ name.toList := by
  rw [short, String.toList_ofList, List.mem_reverse] at h
  exact List.mem_reverse.1 ((List.takeWhile_prefix _).subset h)

/-- The characters of a dotted name are characters of names. -/
theorem chars_of_dotted {start : Bool} {text : List Char} (h : dotted start text = true) :
    ∀ c ∈ text, isNameChar c = true := by
  induction text generalizing start with
  | nil => exact List.forall_mem_nil _
  | cons c rest ih =>
    rw [List.forall_mem_cons]
    cases start with
    | true =>
      obtain ⟨hc, hrest⟩ := Bool.and_eq_true_iff.1 h
      refine ⟨?_, ih hrest⟩
      simp only [Bool.or_eq_true, beq_iff_eq] at hc
      simp only [isNameChar, Char.isAlphanum]
      grind
    | false =>
      simp only [dotted] at h
      split at h
      · next hpoint => exact ⟨by rw [hpoint]; rfl, ih h⟩
      · obtain ⟨hc, hrest⟩ := Bool.and_eq_true_iff.1 h
        refine ⟨?_, ih hrest⟩
        simp only [Bool.or_eq_true, beq_iff_eq] at hc
        simp only [isNameChar]
        grind

theorem IsDotted.ne_nil (h : IsDotted name) : name.toList ≠ [] := by
  intro hnil
  rw [IsDotted, hnil] at h
  cases h

theorem IsDotted.isText (h : IsDotted name) : IsText name.toList := ⟨h.ne_nil, chars_of_dotted h⟩

/-- Behind the last point of a dotted name stands an identifier. -/
theorem IsDotted.short_ne_nil (h : IsDotted name) : (short name).toList ≠ [] := by
  intro hnil
  rw [short, String.toList_ofList, List.reverse_eq_nil_iff] at hnil
  cases hreverse : name.toList.reverse with
  | nil => exact h.ne_nil (List.reverse_eq_nil_iff.1 hreverse)
  | cons c rest =>
    rw [hreverse, List.takeWhile_cons] at hnil
    have hlist : name.toList = rest.reverse ++ [c] := by
      rw [← List.reverse_reverse name.toList, hreverse, List.reverse_cons]
    split at hnil
    · cases hnil
    · next hc =>
      obtain rfl : c = '.' := by simpa using hc
      rw [IsDotted, hlist] at h
      cases dotted_of_append_point h

end Name

namespace Dialect

variable {d : Dialect} {c : Context} {name : String}

/-- Characters that hold of a name hold of its text. -/
theorem forall_identifier {P : Char → Prop} (h : ∀ x ∈ name.toList, P x) (hunderscore : P '_') :
    ∀ x ∈ (d.identifier name).toList, P x := by
  intro x hx
  rcases Name.mem_correctedName hx with hx | rfl
  · exact h x hx
  · exact hunderscore

theorem forall_functionName {P : Char → Prop} {m : Model} {stage : Stage} {f : Function}
    (hshort : f.name = Name.short f.qualifiedName) (h : ∀ x ∈ f.qualifiedName.toList, P x)
    (hunderscore : P '_') : ∀ x ∈ (d.functionName m stage f).toList, P x := by
  rw [functionName]
  split
  · refine forall_identifier (fun x hx => ?_) hunderscore
    exact h x (Name.mem_short (hshort ▸ hx))
  · refine forall_identifier (fun x hx => ?_) hunderscore
    rcases Name.mem_mangle hx with hx | rfl
    · exact h x hx
    · exact hunderscore

theorem identifier_ne_nil (h : name.toList ≠ []) : (d.identifier name).toList ≠ [] := by
  rw [identifier, correctedName]
  split
  · simp
  · exact h

theorem functionName_ne_nil {m : Model} {stage : Stage} {f : Function}
    (hshort : f.name = Name.short f.qualifiedName) (h : Name.IsDotted f.qualifiedName) :
    (d.functionName m stage f).toList ≠ [] := by
  rw [functionName]
  split
  · exact identifier_ne_nil (hshort ▸ h.short_ne_nil)
  · refine identifier_ne_nil ?_
    rw [Name.toList_mangle]
    simpa using h.ne_nil

end Dialect

/-! ## Constants -/

/-- Numbers below zero, and zero with a sign. -/
def Core.Literal.isNegative : Literal → Bool
  | .int value => value.toInt < 0
  | .float value => value.isNegative
  | .bool _ | .uint _ => false

/-- A constant is a numeral, behind a sign if it is negative. -/
theorem Dialect.exists_literalText {d : Dialect}
    (hsuffix : ∀ c ∈ d.floatSuffix.toList, Name.isNameChar c = true) {value : Literal}
    (h : ∀ x, value = .float x → x.isFinite = true) : ∃ numeral, Numeral numeral ∧
      (d.literalText value).toList = (if value.isNegative then ['-'] else []) ++ numeral := by
  cases value with
  | bool value =>
    cases value
    · exact ⟨"false".toList, .plain (by decide), rfl⟩
    · exact ⟨"true".toList, .plain (by decide), rfl⟩
  | int value =>
    have htext : d.literalText (.int value) = toString value.toInt := rfl
    rw [htext, Core.Literal.isNegative]
    cases value.toInt with
    | ofNat n =>
      refine ⟨_, .plain (Name.isText_toString n), ?_⟩
      rw [if_neg (by simp)]
      rfl
    | negSucc n =>
      refine ⟨_, .plain (Name.isText_toString (n + 1)), ?_⟩
      rw [if_pos (by simp [Int.negSucc_lt_zero])]
      show ("-" ++ toString (n + 1)).toList = _
      rw [String.toList_append]
      rfl
  | uint value =>
    refine ⟨_, .plain ((Name.isText_toString value.toNat).append (b := ['u']) (by decide)), ?_⟩
    show (toString value.toNat ++ "u").toList = _
    rw [String.toList_append]
    rfl
  | float value =>
    obtain ⟨numeral, hnumeral, htext⟩ := Binary32.exists_numeral_text (h value rfl)
    refine ⟨_, hnumeral.append hsuffix, ?_⟩
    rw [literalText, floatText, String.toList_append, htext, List.append_assoc]
    rfl

/-! ## The frames of every target -/

variable {p : Program}

/-- Whether a type has a name, of the characters of names. -/
def isSpelled : Except Error String → Bool
  | .ok name => decide (Name.IsText name.toList)
  | .error _ => false

theorem exists_of_isSpelled {result : Except Error String} (h : isSpelled result = true) :
    ∃ name, result = .ok name ∧ Name.IsText name.toList := by
  cases result with
  | ok name => exact ⟨name, rfl, of_decide_eq_true h⟩
  | error => cases h

/-- The names of scalars, vectors and matrices are made of the characters of names when
these are. -/
theorem exists_typeName_of_isSpelled {typeName : Ty → Except Error String}
    (hscalar : ∀ kind, isSpelled (typeName (.scalar kind)) = true)
    (hvector : ∀ kind, ([2, 3, 4].all fun size => isSpelled (typeName (.vector kind size))) = true)
    (hmatrix : isSpelled (typeName .matrix) = true) {ty : Ty} (h : ty.Plain p)
    (hs : ty.scalarKind?.isSome = true) :
    ∃ name, typeName ty = .ok name ∧ Name.IsText name.toList := by
  refine exists_of_isSpelled ?_
  cases h with
  | scalar => exact hscalar _
  | @vector kind size h2 h4 =>
    rw [UInt8.le_iff_toNat_le] at h2 h4
    have hsize : size.toNat = 2 ∨ size.toNat = 3 ∨ size.toNat = 4 := by
      have h2 : 2 ≤ size.toNat := h2
      have h4 : size.toNat ≤ 4 := h4
      omega
    refine List.all_eq_true.1 (hvector kind) size ?_
    rcases hsize with h | h | h
    · rw [UInt8.toNat_inj.1 (h.trans (by rfl : 2 = (2 : UInt8).toNat))]; decide
    · rw [UInt8.toNat_inj.1 (h.trans (by rfl : 3 = (3 : UInt8).toNat))]; decide
    · rw [UInt8.toNat_inj.1 (h.trans (by rfl : 4 = (4 : UInt8).toNat))]; decide
  | matrix => exact hmatrix
  | _ => cases hs

namespace Dialect

variable {d : Dialect}

/-- A conversion is a call of the type. -/
theorem casts_call (h : ∀ ty operand, d.castText ty operand = ty ++ "(" ++ operand ++ ")")
    {name : String} (hname : Name.IsText name.toList) : ∃ frame, d.Casts name frame :=
  ⟨.call name 1, fun text => (h name text).trans (Frame.fill_call name [text]).symm,
    Frame.parts_call name 1, Frame.neat_call hname 1, _, _, rfl, hname.ne_nil⟩

end Dialect

theorem Hlsl.hasFrames : dialect.HasFrames p where
  floatSuffix := by decide
  intrinsic h := (spellsTimes h).imp fun _ hframe => hframe.1
  typeName := exists_typeName_of_isSpelled (by intro kind; cases kind <;> decide)
    (by intro kind; cases kind <;> decide) (by decide)
  cast {name} hname := by
    have hoperand : Frame.Neat [.part 0] := by decide
    refine ⟨_, fun text => ?_, rfl,
      ((Frame.neat_word hname).enclose.append hoperand.enclose).enclose, _, _, rfl, by decide⟩
    rw [← String.toList_inj]
    simp [dialect, Piece.fill]

theorem Glsl.hasFrames {v : Version} (hv : v ∈ versions) : (dialect v).HasFrames p where
  floatSuffix := List.forall_mem_nil _
  intrinsic h := (spellsTimes hv h).imp fun _ hframe => hframe.1
  typeName := by
    -- The versions differ in the names of textures only.
    refine exists_typeName_of_isSpelled (fun kind => ?_) (fun kind => ?_) (by rfl)
    · show isSpelled (typeName core330 (.scalar kind)) = true
      cases kind <;> decide
    · show ([2, 3, 4].all fun size => isSpelled (typeName core330 (.vector kind size))) = true
      cases kind <;> decide
  cast := Dialect.casts_call fun _ _ => rfl

theorem Metal.hasFrames : dialect.HasFrames p where
  floatSuffix := by decide
  intrinsic h := (spellsTimes h).imp fun _ hframe => hframe.1
  typeName := exists_typeName_of_isSpelled (by intro kind; cases kind <;> decide)
    (by intro kind; cases kind <;> decide) (by decide)
  cast := Dialect.casts_call fun _ _ => rfl

/-- Every target has a frame for every intrinsic and every conversion. -/
theorem Target.hasFrames (t : Target) (fixup : Option Fixup) :
    (t.language fixup).dialect.HasFrames p := by
  cases t with
  | hlsl => exact Hlsl.hasFrames
  | glsl330 => exact Glsl.hasFrames (by simp [Glsl.versions])
  | glslEs300 => exact Glsl.hasFrames (by simp [Glsl.versions])
  | glsl450 => exact Glsl.hasFrames (by simp [Glsl.versions])
  | metal => exact Metal.hasFrames

theorem Target.total_dialect (t : Target) (fixup : Option Fixup) :
    (t.language fixup).dialect.Total p := by
  cases t with
  | hlsl => exact Hlsl.total_dialect
  | glsl330 => exact Glsl.total_dialect
  | glslEs300 => exact Glsl.total_dialect
  | glsl450 => exact Glsl.total_dialect
  | metal => exact Metal.total_dialect

/-! ## Expressions of a model -/

/-- The functions of a model have the last parts of their qualified names for short names. -/
def Model.NamesShort (m : Model) : Prop :=
  ∀ f ∈ m.functions, f.name = Name.short f.qualifiedName

theorem Model.NamesShort.of_function? {m : Model} (h : m.NamesShort) {name : String}
    {f : Function} (hf : m.function? name = some f) :
    f.qualifiedName = name ∧ f.name = Name.short name := by
  have hname : f.qualifiedName = name := by simpa using List.find?_some hf
  exact ⟨hname, hname ▸ h f (List.mem_of_find?_eq_some hf)⟩

namespace Program.BuiltFrom

variable {p : Program} {set : EntrySet} {m : Model} {reached : Expanded Function}
  {uses : List StageUse}

theorem namesShort (h : BuiltFrom p set m reached uses) : m.NamesShort := by
  intro f hf
  obtain ⟨d, -, hd⟩ := h.model_exact.hasFunction f hf
  obtain ⟨params, result, body, -, -, -, rfl⟩ := elaborateFunction_eq_ok hd
  rfl

/-- Every expression of a model can be written. -/
theorem fits (h : BuiltFrom p set m reached uses) {f : Function} (hf : f ∈ m.functions) {e : Expr}
    (he : e.OccursIn f.body) : e.Fits p m := by
  intro x hx
  have hocc := hx.occursIn he
  obtain ⟨d, -, hd⟩ := h.model_exact.hasFunction f hf
  obtain ⟨htyped, hwf⟩ := typed_expr_of_elaborateFunction hd hocc
  exact ⟨htyped, hwf, h.resolves hf hocc⟩

/-- Every statement of a model can be written. -/
theorem fits_stmt (h : BuiltFrom p set m reached uses) {f : Function} (hf : f ∈ m.functions)
    {s : Core.Stmt} (hs : s.OccursIn f.body) : s.Fits p m f.result := by
  intro t ht
  have hocc := ht.occursIn hs
  obtain ⟨d, -, hd⟩ := h.model_exact.hasFunction f hf
  exact ⟨typed_stmt_of_elaborateFunction hd hocc, fun e he => h.fits hf ⟨t, hocc, e, he, .self⟩⟩

end Program.BuiltFrom

end Shading
