import Shading.Proofs.Target.Linkage
import Shading.Proofs.Target.Order

/-!
# Arrays in HLSL

HLSL declares an array in declarator form, with its length behind the name (`Declarator`).
Fields and local variables are declared by `declarationText`, which writes that form.
Each of them starts a line of the source, or stands in the head of a `for` loop
(`OpensLine`).  Parameters and results are no arrays.

The variable of a uniform buffer does not go through `declarationText`.  Its element is
spelled as a type, with the length before the name, so it is in declarator form only
when the element is not an array (`declarator_iff_of_typeName`,
`lit_not_in_declarator_form`).
-/

namespace Shading

open Shading.Core (Stmt)

/-! ## Lines of statements -/

/-- What stands behind a declared variable: nothing, a value or a semantic. -/
inductive Follows : String → Prop where
  | nothing : Follows ""
  | value {text : String} : Follows (" = " ++ text)
  | semantic {text : String} : Follows (" : " ++ text)

/-- A line that starts with a declared variable, or has it in the head of a `for` loop. -/
inductive OpensLine (text : String) : String → Prop where
  | own {after : String} : Follows after → OpensLine text (text ++ after ++ ";")
  | header {after condition step : String} : Follows after →
      OpensLine text (Dialect.forText (text ++ after) condition step)

theorem OpensLine.ne_empty {text line : String} (h : OpensLine text line) : line ≠ "" := by
  cases h <;> simp [Dialect.forText]

theorem Core.Stmt.Within.eq_of_isSimple {s t : Stmt} (h : s.Within t) (ht : t.isSimple = true) :
    s = t := by
  cases h with
  | self => rfl
  | _ => cases ht

namespace Dialect

variable {p : Program} {d : Dialect} {c : Context} {result ty : Ty} {name : String} {code : Code}

/-- Code has a line that declares a variable. -/
def Introduces (d : Dialect) (ty : Ty) (name : String) (code : Code) : Prop :=
  ∃ text line, d.declaration ty (d.identifier name) = .ok text ∧ OpensLine text line ∧
    .line line ∈ code

theorem Introduces.mono {a b : Code} (h : d.Introduces ty name a) (hab : ∀ step ∈ a, step ∈ b) :
    d.Introduces ty name b := by
  obtain ⟨text, line, htext, hopens, hline⟩ := h
  exact ⟨text, line, htext, hopens, hab _ hline⟩

/-- What a statement declares is declared in the body it stands in. -/
theorem introduces_of_mem_stmts {body : List Stmt} (h : d.stmts c body = .ok code) {s : Stmt}
    (hs : s ∈ body) (hopens : ∀ piece, d.stmt c s = .ok piece → d.Introduces ty name piece) :
    d.Introduces ty name code := by
  induction body generalizing code with
  | nil => cases hs
  | cons first rest ih =>
    simp only [stmts, bind_eq_ok, pure_eq_ok] at h
    obtain ⟨a, ha, b, hb, rfl⟩ := h
    rcases List.mem_cons.1 hs with rfl | hs
    · exact (hopens a ha).mono fun step hstep => List.mem_append_left _ hstep
    · exact (ih hb hs).mono fun step hstep => List.mem_append_right _ hstep

/-- What the body of a case declares is declared in the cases. -/
theorem introduces_of_mem_cases {cases : List Core.Case} (h : d.cases c cases = .ok code)
    {labels : List Core.Literal} {body : List Stmt} (hk : .mk labels body ∈ cases)
    (hopens : ∀ piece, d.stmts c body = .ok piece → d.Introduces ty name piece) :
    d.Introduces ty name code := by
  induction cases generalizing code with
  | nil => cases hk
  | cons first rest ih =>
    obtain ⟨labels', body'⟩ := first
    simp only [Dialect.cases, bind_eq_ok, pure_eq_ok] at h
    obtain ⟨a, ha, b, hb, rfl⟩ := h
    rcases List.mem_cons.1 hk with heq | hk
    · cases heq
      exact (hopens a ha).mono fun step hstep => by simp [Code.block, hstep]
    · exact (ih hb hk).mono fun step hstep => List.mem_append_right _ hstep

/-- The code of a `for` loop has that of its body, wherever the initializers stand. -/
theorem exists_forBody {init : List Stmt} {condition : Option Core.Expr} {step body : List Stmt}
    (h : d.stmt c (.forLoop init condition step body) = .ok code) :
    ∃ piece, d.stmts c body = .ok piece ∧ ∀ step ∈ piece, step ∈ code := by
  simp only [stmt, bind_eq_ok] at h
  obtain ⟨_, -, _, -, h⟩ := h
  rcases init with _ | ⟨first, _ | ⟨second, rest⟩⟩
  · simp only [bind_eq_ok, pure_eq_ok] at h
    obtain ⟨piece, hpiece, rfl⟩ := h
    exact ⟨piece, hpiece, fun step hstep => by simp [Code.block, hstep]⟩
  · simp only [bind_eq_ok, pure_eq_ok] at h
    obtain ⟨_, -, piece, hpiece, rfl⟩ := h
    exact ⟨piece, hpiece, fun step hstep => by simp [Code.block, hstep]⟩
  · simp only [bind_eq_ok, pure_eq_ok] at h
    obtain ⟨_, -, _, -, piece, hpiece, rfl⟩ := h
    exact ⟨piece, hpiece, fun step hstep => by simp [Code.block, hstep]⟩

/-- A declaration starts with its variable, and its initial value stands behind that. -/
theorem exists_of_simple_declare {text : String} {init : Option Core.Expr}
    (h : d.simple c (.declare name ty init) = .ok text) :
    ∃ declared after, d.declaration ty (d.identifier name) = .ok declared ∧ Follows after ∧
      text = declared ++ after := by
  simp only [simple, bind_eq_ok] at h
  obtain ⟨declared, hdeclared, h⟩ := h
  cases init with
  | none => exact ⟨declared, "", hdeclared, .nothing, by simpa using (pure_eq_ok.1 h).symm⟩
  | some init =>
    simp only [bind_eq_ok, pure_eq_ok] at h
    obtain ⟨value, -, rfl⟩ := h
    exact ⟨declared, " = " ++ value, hdeclared, .value, String.append_assoc⟩

/-- A declaration that is a statement of its own has a line of its own. -/
theorem introduces_of_declare {init : Option Core.Expr}
    (h : d.stmt c (.declare name ty init) = .ok code) : d.Introduces ty name code := by
  simp only [stmt, simpleLine, bind_eq_ok, pure_eq_ok] at h
  obtain ⟨text, htext, rfl⟩ := h
  obtain ⟨declared, after, hdeclared, hafter, rfl⟩ := exists_of_simple_declare htext
  exact ⟨declared, _, hdeclared, .own hafter, .head _⟩

/-- The initializers of a `for` loop are declared in its code: a single one in the head of
the loop, and several before it. -/
theorem introduces_of_mem_init {init : List Stmt} {condition : Option Core.Expr}
    {step body : List Stmt} {value : Option Core.Expr} (hmem : .declare name ty value ∈ init)
    (h : d.stmt c (.forLoop init condition step body) = .ok code) : d.Introduces ty name code := by
  simp only [stmt, bind_eq_ok] at h
  obtain ⟨_, -, _, -, h⟩ := h
  rcases init with _ | ⟨first, _ | ⟨second, rest⟩⟩
  · cases hmem
  · simp only [bind_eq_ok, pure_eq_ok] at h
    obtain ⟨text, htext, _, -, rfl⟩ := h
    obtain rfl := List.mem_singleton.1 hmem
    obtain ⟨declared, after, hdeclared, hafter, rfl⟩ := exists_of_simple_declare htext
    exact ⟨declared, _, hdeclared, .header hafter, .head _⟩
  · simp only [bind_eq_ok, pure_eq_ok] at h
    obtain ⟨a, ha, b, hb, _, -, rfl⟩ := h
    have hinits : d.stmts c (first :: second :: rest) = .ok (a ++ b) := by
      rw [stmts, bind_of_ok ha, bind_of_ok hb]
      rfl
    have hinner := introduces_of_mem_stmts hinits hmem fun _ => introduces_of_declare
    refine hinner.mono fun step hstep => ?_
    rcases List.mem_append.1 hstep with hstep | hstep <;> simp [Code.block, hstep]

/-- Every local variable of a statement is declared in its code.  No step of a loop is a
declaration. -/
theorem introduces_of_within {init : Option Core.Expr} {s : Stmt}
    (hw : (Stmt.declare name ty init).Within s)
    (htyped : ∀ t : Stmt, t.Within s → t.Typed p result) (h : d.stmt c s = .ok code) :
    d.Introduces ty name code := by
  induction hw generalizing code with
  | self => exact introduces_of_declare h
  | yes hs _ ih =>
    simp only [stmt, bind_eq_ok, pure_eq_ok] at h
    obtain ⟨_, -, yes, hyes, no, -, rfl⟩ := h
    have hinner := introduces_of_mem_stmts hyes hs fun _ =>
      ih fun t ht => htyped t (.yes hs ht)
    exact hinner.mono fun step hstep => by simp [Code.block, hstep]
  | no hs _ ih =>
    simp only [stmt, elseBlock, bind_eq_ok, pure_eq_ok] at h
    obtain ⟨_, -, yes, -, _, ⟨no, hno, rfl⟩, rfl⟩ := h
    have hinner := introduces_of_mem_stmts hno hs fun _ =>
      ih fun t ht => htyped t (.no hs ht)
    exact hinner.mono fun step hstep => by simp [Code.block, hstep]
  | init hs hw =>
    cases htyped _ .self with
    | forLoop hinit =>
      obtain rfl := hw.eq_of_isSimple (hinit _ hs)
      exact introduces_of_mem_init hs h
  | step hs hw =>
    cases htyped _ .self with
    | forLoop _ _ hstep =>
      obtain rfl := hw.eq_of_isSimple (Stmt.isSimple_of_isStep (hstep _ hs))
      cases hstep _ hs
  | forBody hs _ ih =>
    obtain ⟨piece, hpiece, hinto⟩ := exists_forBody h
    have hinner := introduces_of_mem_stmts hpiece hs fun _ =>
      ih fun t ht => htyped t (.forBody hs ht)
    exact hinner.mono hinto
  | whileBody hs _ ih =>
    simp only [stmt, bind_eq_ok, pure_eq_ok] at h
    obtain ⟨_, -, body, hbody, rfl⟩ := h
    have hinner := introduces_of_mem_stmts hbody hs fun _ =>
      ih fun t ht => htyped t (.whileBody hs ht)
    exact hinner.mono fun step hstep => by simp [Code.block, hstep]
  | doBody hs _ ih =>
    simp only [stmt, bind_eq_ok, pure_eq_ok] at h
    obtain ⟨body, hbody, _, -, rfl⟩ := h
    have hinner := introduces_of_mem_stmts hbody hs fun _ =>
      ih fun t ht => htyped t (.doBody hs ht)
    exact hinner.mono fun step hstep => by simp [Code.block, hstep]
  | case hk hs _ ih =>
    simp only [stmt, bind_eq_ok, pure_eq_ok] at h
    obtain ⟨_, -, cases, hcases, default, -, rfl⟩ := h
    have hinner := introduces_of_mem_cases hcases hk fun _ hbody =>
      introduces_of_mem_stmts hbody hs fun _ => ih fun t ht => htyped t (.case hk hs ht)
    exact hinner.mono fun step hstep => by simp [Code.block, hstep]
  | default hs _ ih =>
    simp only [stmt, defaultBlock, bind_eq_ok, pure_eq_ok] at h
    obtain ⟨_, -, cases, -, _, ⟨body, hbody, rfl⟩, rfl⟩ := h
    have hinner := introduces_of_mem_stmts hbody hs fun _ =>
      ih fun t ht => htyped t (.default hs ht)
    exact hinner.mono fun step hstep => by simp [Code.block, hstep]
  | block hs _ ih =>
    simp only [stmt, bind_eq_ok, pure_eq_ok] at h
    obtain ⟨body, hbody, rfl⟩ := h
    have hinner := introduces_of_mem_stmts hbody hs fun _ =>
      ih fun t ht => htyped t (.block hs ht)
    exact hinner.mono fun step hstep => by simp [Code.block, hstep]

end Dialect

/-! ## Declarator form -/

namespace Hlsl

variable {p : Program} {m : Model} {stage : Stage} {ty : Ty} {name text : String} {f : Function}

/-- A variable in declarator form.  The type of the elements stands before the name of an
array, and the length behind it. -/
inductive Declarator (name : String) : Ty → String → Prop where
  | array {element : Ty} {length : UInt32} {text : String} : element.isArray = false →
      typeName element = .ok text →
      Declarator name (.array element length) (text ++ " " ++ name ++ "[" ++ toString length ++ "]")
  | other {ty : Ty} {text : String} : ty.isArray = false → typeName ty = .ok text →
      Declarator name ty (text ++ " " ++ name)

/-- What is declared by the shared declaration is in declarator form. -/
theorem declarator_of_declaration (hty : ty.Plain p) (h : dialect.declaration ty name = .ok text) :
    Declarator name ty text := by
  cases hty with
  | array helement _ harray _ =>
    simp only [Dialect.declaration, declarationText, bind_eq_ok, pure_eq_ok] at h
    obtain ⟨element, hname, rfl⟩ := h
    exact .array harray hname
  | _ =>
    simp only [Dialect.declaration, declarationText, bind_eq_ok, pure_eq_ok] at h
    obtain ⟨name, hname, rfl⟩ := h
    exact .other rfl hname

/-- A type before a name is in declarator form when it is not an array.  The length of an
array is in the spelling of its type, so it stands before the name. -/
theorem declarator_iff_of_typeName (h : typeName ty = .ok text) :
    Declarator name ty (text ++ " " ++ name) ↔ ty.isArray = false := by
  refine ⟨fun hform => ?_, fun hty => .other hty h⟩
  generalize hfull : text ++ " " ++ name = full at hform
  cases hform with
  | other hty _ => exact hty
  | @array element length inner harray hname =>
    simp only [typeName, hname, bind_eq_ok, pure_eq_ok] at h
    obtain ⟨_, ⟨⟩, rfl⟩ := h
    have hlists := congrArg String.toList hfull
    simp at hlists

/-- How a source declares its variables. -/
structure DeclaresVariables (m : Model) (stage : Stage) (source : String) : Prop where
  /-- Fields and local variables are in declarator form. -/
  fields : ∀ d ∈ m.structsFor stage, ∀ field ∈ d.fields, ∃ text line,
    Declarator (dialect.identifier field.name) field.ty text ∧ OpensLine text line ∧
    HasLine source line
  locals : ∀ f ∈ m.functionsFor stage, ∀ name ty init,
    (Stmt.declare name ty init).OccursIn f.body → ∃ text line,
    Declarator (dialect.identifier name) ty text ∧ OpensLine text line ∧ HasLine source line
  signatures : ∀ f ∈ m.functionsFor stage, f.result.isArray = false ∧
    ∀ param ∈ f.params, param.ty.isArray = false
  /-- The variable of a uniform buffer is, unless it is an array. -/
  buffers : ∀ b ∈ m.resourcesFor stage, b.ty.kind = .uniformBuffer → ∃ element text,
    b.ty.element = some element ∧ typeName element = .ok text ∧
    HasLine source (text ++ " " ++ dialect.identifier b.name ++ ";") ∧
    (Declarator (dialect.identifier b.name) element (text ++ " " ++ dialect.identifier b.name) ↔
      element.isArray = false)

section Pieces

variable {c : Context} {code : Code}

/-- What stands behind a field is nothing or its semantic. -/
theorem follows_of_mem_behindFields {d : StructDef} {behind : String}
    (h : behind ∈ behindFields c d) : Follows behind := by
  obtain ⟨semantic, -, rfl⟩ := List.mem_map.1 h
  split
  · exact .nothing
  · exact .semantic

/-- A field is declared in the definition of its struct. -/
theorem introduces_of_definesStruct {d : StructDef}
    (h : dialect.DefinesStruct d (behindFields c d) code) {field : Field}
    (hfield : field ∈ d.fields) : dialect.Introduces field.ty field.name code := by
  obtain ⟨hlength, hlines⟩ := h
  obtain ⟨⟨_, behind⟩, hmem, rfl⟩ : ∃ pair ∈ d.fields.zip (behindFields c d), pair.1 = field :=
    List.mem_map.1 ((List.map_fst_zip (Nat.le_of_eq hlength.symm)).symm ▸ hfield)
  obtain ⟨line, hline, text, htext, rfl⟩ := forall₂_of_mem_left hlines hmem
  refine ⟨text, _, htext, .own (follows_of_mem_behindFields (List.of_mem_zip hmem).2), ?_⟩
  have hin := List.mem_flatMap_of_mem (f := Code.line) hline (.head _)
  simp [Code.block, hin]

/-- The variable of a uniform buffer has a line of its own, with its type as it is spelled. -/
theorem exists_line_of_declaredAt {register : String} {b : Binding}
    (h : DeclaredAt register b code) (hb : p.Declares b.ty) (hkind : b.ty.kind = .uniformBuffer) :
    ∃ element text, b.ty.element = some element ∧ typeName element = .ok text ∧
      .line (text ++ " " ++ dialect.identifier b.name ++ ";") ∈ code := by
  cases h with
  | plain hother _ => exact absurd hkind hother
  | @block text _ htext =>
    generalize hty : b.ty = r at hb hkind htext
    cases hb with
    | plain hk =>
      cases hkind
      cases hk
    | @buffer _ element access _ _ _ _ =>
      cases hkind
      simp only [ResourceTy.toTy, typeName, textureName?, bind_eq_ok, pure_eq_ok] at htext
      obtain ⟨text, htext, rfl⟩ := htext
      exact ⟨element, text, rfl, htext, by simp [Code.block, Code.line, bufferName]⟩

/-- The piece of a function holds its definition, whether it is a helper or the entry point. -/
theorem Writes.exists_definesFunction (h : Writes c (.function f) code) :
    ∃ behind function, dialect.DefinesFunction c f behind function ∧
      ∀ step ∈ function, step ∈ code := by
  cases h with
  | helper _ hdefines => exact ⟨_, _, hdefines, fun _ => List.mem_append_left _⟩
  | entry _ hdefines => exact ⟨_, _, hdefines, fun _ => List.mem_append_right _⟩

end Pieces

end Hlsl

namespace Program

variable {p : Program} {set : EntrySet} {m : Model}

/-- The variables of a model that was built are declared in declarator form, apart from
uniform buffers that are arrays. -/
theorem declaresVariables_of_build (h : p.build set = .ok m) : ∀ stage ∈ set.stages,
    ∃ source, Hlsl.language.generate m stage = .ok source ∧
      Hlsl.DeclaresVariables m stage source := by
  intro stage hstage
  obtain ⟨_, _, hbuilt⟩ := builtFrom_of_build h
  obtain ⟨f, hw⟩ := hbuilt.writable hstage
  obtain ⟨source, hsource⟩ := Hlsl.exists_source hw
  obtain ⟨code, hcode, rfl⟩ := Language.generate_eq_ok.1 hsource
  obtain ⟨pieces, hpieces, rfl⟩ := (hbuilt.definesInOrder_hlsl hcode).pieces
  refine ⟨_, hsource, ?_⟩
  have hpiece : ∀ item ∈ m.items stage, ∃ piece,
      Hlsl.Writes ⟨m, stage, none⟩ item piece ∧
      ∀ line, .line line ∈ piece → line ≠ "" →
        HasLine ((Hlsl.header ++ pieces.flatten).text 0) line := by
    intro item hitem
    obtain ⟨piece, hmem, hwrites⟩ := forall₂_of_mem_left hpieces hitem
    refine ⟨piece, hwrites, fun line hline hne => Code.hasLine_of_mem 0 ?_ hne⟩
    exact List.mem_append_right _ (List.mem_flatten.2 ⟨piece, hmem, hline⟩)
  refine ⟨fun d hd field hfield => ?_, fun f hf name ty init hdeclare => ?_, fun f hf => ?_,
    fun b hb hkind => ?_⟩
  · obtain ⟨piece, hwrites, hlines⟩ := hpiece (.struct d) (by simp [Model.items, hd])
    cases hwrites with
    | struct hstruct =>
      obtain ⟨text, line, htext, hopens, hline⟩ := Hlsl.introduces_of_definesStruct hstruct hfield
      have hplain := hw.fields d (List.mem_filter.1 hd).1 field hfield
      exact ⟨text, line, Hlsl.declarator_of_declaration hplain htext, hopens,
        hlines line hline hopens.ne_empty⟩
  · obtain ⟨piece, hwrites, hlines⟩ := hpiece (.function f) (by simp [Model.items, hf])
    obtain ⟨s, hs, hwithin⟩ := hdeclare
    have hfits := hw.body f (List.mem_filter.1 hf).1 s hs
    obtain ⟨behind, function, hdefines, hinto⟩ := hwrites.exists_definesFunction
    obtain ⟨-, -, hbody, -⟩ := hdefines
    obtain ⟨text, line, htext, hopens, hline⟩ := Dialect.introduces_of_mem_stmts hbody hs
      fun _ => Dialect.introduces_of_within hwithin fun t ht => (hfits t ht).1
    have hplain : ty.Plain p := by cases (hfits _ hwithin).1 <;> assumption
    exact ⟨text, line, Hlsl.declarator_of_declaration hplain htext, hopens,
      hlines line (hinto _ (by simp [Code.block, hline])) hopens.ne_empty⟩
  · obtain ⟨d, -, hd⟩ := hbuilt.model_exact.hasFunction f (List.mem_filter.1 hf).1
    exact ⟨(plain_result_of_elaborateFunction hd).2, fun param hparam =>
      (plain_param_of_elaborateFunction hd hparam).2.2⟩
  · obtain ⟨piece, hwrites, hlines⟩ := hpiece (.resource b) (by simp [Model.items, hb])
    cases hwrites with
    | resource hresource =>
      obtain ⟨element, text, helement, htext, hline⟩ := Hlsl.exists_line_of_declaredAt hresource
        (hw.resources b (List.mem_filter.1 hb).1) hkind
      exact ⟨element, text, helement, htext, hlines _ hline (by simp),
        Hlsl.declarator_iff_of_typeName htext⟩

/-- A program with arrays in a struct and in a function, and a loop over them. -/
def tones : Program where
  structs := [⟨"Demo.Scene", [⟨"Tones", four, none⟩]⟩]
  resources := [⟨"Scene", .uniformBuffer, some (.named "Demo.Scene"), .readOnly, none, none⟩]
  functions := [fragment]
  shaderSets := []
where
  four : Surface.TypeExpr := .array (.vector .float 4) 4
  copies : Surface.Expr := .var "copies" (some four)
  index : Surface.Expr := .var "i" (some (.scalar .int))
  fragment : FunctionDecl := {
    name := "Demo.FS"
    metadata := ⟨some .fragment, none⟩
    params := []
    result := .vector .float 4
    body := [
      .declare "copies" four none,
      .forLoop [.declare "i" (.scalar .int) (some (.literal (.int 0) none))]
        (some (.binary .lt index (.literal (.int 4) none) (some (.scalar .bool))))
        [.expr (.unary .preIncrement index (some (.scalar .int)))]
        [.assign (.index copies index none) .assign
          (.index (.member (.resource "Scene" none) "Tones" none) index none)],
      .ret (some (.index copies (.literal (.int 3) none) none))] }

theorem declaresVariables_tones : ∃ m, tones.build ⟨none, some "Demo.FS", none⟩ = .ok m ∧
    ∀ stage ∈ EntrySet.stages ⟨none, some "Demo.FS", none⟩, ∃ source,
      Hlsl.language.generate m stage = .ok source ∧ Hlsl.DeclaresVariables m stage source := by
  have h : tones.build ⟨none, some "Demo.FS", none⟩ = .ok _ := rfl
  exact ⟨_, h, declaresVariables_of_build h⟩

/-- A program with four lights in a uniform buffer. -/
def lit : Program where
  structs := []
  resources := [⟨"Lights", .uniformBuffer, some lights, .readOnly, none, none⟩]
  functions := [fragment]
  shaderSets := []
where
  lights : Surface.TypeExpr := .array (.vector .float 4) 4
  fragment : FunctionDecl := {
    name := "Demo.FS"
    metadata := ⟨some .fragment, none⟩
    params := []
    result := .vector .float 4
    body := [.ret (some (.index (.resource "Lights" none) (.literal (.int 0) none) none))] }

/-- The lights are declared with their number before the name. -/
theorem lit_not_in_declarator_form : ∃ m source, lit.build ⟨none, some "Demo.FS", none⟩ = .ok m ∧
    m.resources.map (fun b => (b.name, b.ty)) =
      [("Lights", ⟨.uniformBuffer, some (.array .float4 4), .readOnly⟩)] ∧
    Hlsl.language.generate m .fragment = .ok source ∧ HasLine source "float4[4] Lights;" ∧
    ¬ Hlsl.Declarator "Lights" (.array .float4 4) "float4[4] Lights" := by
  have h : lit.build ⟨none, some "Demo.FS", none⟩ = .ok _ := rfl
  have hname : Hlsl.typeName (.array .float4 4) = .ok "float4[4]" := rfl
  refine ⟨_, _, h, rfl, rfl, Code.hasLine_of_mem 0 (by decide) (by decide), fun hform => ?_⟩
  cases (Hlsl.declarator_iff_of_typeName hname).1 hform

end Program

end Shading
