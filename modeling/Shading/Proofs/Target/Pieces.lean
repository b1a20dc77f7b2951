import Shading.Proofs.Model.Order
import Shading.Proofs.Target.Emission
import Shading.Proofs.Target.Globals
import Shading.Proofs.Target.Main
import Shading.Proofs.Target.Margins

/-!
# Pieces of a source

The source of a stage in HLSL and GLSL is a header and one piece of code for each
definition of the stage (`Model.items`): its structs, its resources and its functions,
the entry point last, and in GLSL `main` behind it.  A piece has the form of what it defines
and nothing besides: a head that names it, its lines or its body in braces, and an empty
line (`Hlsl.Writes`, `Glsl.Writes`).  Bodies are balanced, so no piece reaches into
another.
-/

namespace Shading

open Code (Balanced)

/-! ## Definitions of a stage -/

/-- What is defined at the outside of a source. -/
inductive Item where
  | struct (d : StructDef)
  | resource (b : Binding)
  | function (f : Function)
  /-- The function `main` with the variables of the stage.  It calls an entry point, and
  structs are between the two. -/
  | main (f : Function) (structs : List StructDef)

/-- The definitions of a stage: its structs, its resources and its functions. -/
def Model.items (m : Model) (stage : Stage) : List Item :=
  (m.structsFor stage).map .struct ++ (m.resourcesFor stage).map .resource ++
    (m.functionsFor stage).map .function

/-- The definition of `main`, with the structs that the entry point reads and returns. -/
def Model.mainItem (m : Model) (f : Function) : Item :=
  .main f ((m.input? f).toList ++ (m.output? f).toList)

/-- A function of a stage, as a thing that has a name. -/
def Global.ofFunction (c : Context) (f : Function) : Global :=
  if c.model.isEntry c.stage f then .entry f.name else .helper f.qualifiedName

theorem Global.name_ofFunction (d : Dialect) (c : Context) (f : Function) :
    (ofFunction c f).name d.reserved = d.functionName c.model c.stage f := by
  rw [ofFunction, Dialect.functionName]
  split <;> rfl

/-! ## Forms -/

namespace Dialect

/-- The lines of fields, each declared by its name with some text behind it. -/
def FieldLines (d : Dialect) (fields : List (Field × String)) (lines : List String) : Prop :=
  List.Forall₂ (fun field line => ∃ declaration,
    d.declaration field.1.ty (d.identifier field.1.name) = .ok declaration ∧
      line = declaration ++ field.2 ++ ";") fields lines

/-- The definition of a struct, with some text behind each of its fields. -/
inductive DefinesStruct (d : Dialect) (s : StructDef) (behind : List String) : Code → Prop where
  | intro {lines : List String} : behind.length = s.fields.length →
      d.FieldLines (s.fields.zip behind) lines →
      DefinesStruct d s behind (Code.line ("struct " ++ (Global.struct s.name).name d.reserved) ++
        Code.block (lines.flatMap Code.line) ";" ++ Code.blank)

/-- The definition of a function, with some text behind its head. -/
inductive DefinesFunction (d : Dialect) (c : Context) (f : Function) (behind : String) :
    Code → Prop where
  | intro {params : List String} {result : String} {body : Code} :
      f.params.mapM d.parameter = .ok params → d.typeName f.result = .ok result →
      d.stmts (c.within f) f.body = .ok body → Balanced body →
      DefinesFunction d c f behind (Code.line (result ++ " " ++
        (Global.ofFunction c f).name d.reserved ++ "(" ++ ", ".intercalate params ++ ")" ++
          behind) ++ Code.block body "")

variable {d : Dialect} {c : Context} {f : Function} {code : Code}

/-- Fields are written one by one. -/
theorem exists_fieldLines {α : Type} {write : α → Except Error Code} {pieces : List α}
    (field : α → Field × String) (h : Language.collect write pieces = .ok code)
    (hw : ∀ a piece, write a = .ok piece → ∃ declaration,
      d.declaration (field a).1.ty (d.identifier (field a).1.name) = .ok declaration ∧
        piece = Code.line (declaration ++ (field a).2 ++ ";")) :
    ∃ lines, d.FieldLines (pieces.map field) lines ∧ code = lines.flatMap Code.line := by
  obtain ⟨codes, hcodes, rfl⟩ := Language.collect_eq_ok.1 h
  clear h
  induction hcodes with
  | nil => exact ⟨[], .nil, rfl⟩
  | @cons a piece _ _ hpiece _ ih =>
    obtain ⟨declaration, hdeclaration, rfl⟩ := hw a piece hpiece
    obtain ⟨lines, hlines, heq⟩ := ih
    refine ⟨_ :: lines, .cons ⟨declaration, hdeclaration, rfl⟩ hlines, ?_⟩
    rw [List.flatten_cons, heq, List.flatMap_cons]

theorem definesFunction_of_functionWith (hd : d.SpellsInline) {behind : String}
    (h : d.functionWith c f behind = .ok code) : d.DefinesFunction c f behind code := by
  simp only [functionWith, signature, bind_eq_ok, pure_eq_ok] at h
  obtain ⟨_, ⟨params, hparams, result, hresult, rfl⟩, body, hbody, rfl⟩ := h
  rw [← Global.name_ofFunction]
  exact .intro hparams hresult hbody (blocksOf_stmts hd hbody).balanced

/-- A function stands before an empty line. -/
theorem exists_definesFunction_of_function (hd : d.SpellsInline) (h : d.function c f = .ok code) :
    ∃ function, d.DefinesFunction c f "" function ∧ code = function ++ Code.blank := by
  simp only [function, bind_eq_ok, pure_eq_ok] at h
  obtain ⟨function, hfunction, rfl⟩ := h
  exact ⟨function, definesFunction_of_functionWith hd hfunction, rfl⟩

end Dialect

namespace Language

/-- A language that writes resources, helpers and the entry point in order, in some forms.
Behind the entry point there may be more. -/
structure WritesInOrder (l : Language) (Writes : Context → Item → Code → Prop)
    (rest : Model → Function → List Item) : Prop where
  arrangement : l.arrangement = inOrder l.dialect l.resource l.entry
  struct : ∀ c d code, l.struct c d = .ok code → Writes c (.struct d) code
  resource : ∀ c b code, l.resource c b = .ok code → Writes c (.resource b) code
  helper : ∀ c f code, c.model.isEntry c.stage f = false → l.dialect.function c f = .ok code →
    Writes c (.function f) code
  entry : ∀ c f code, c.model.isEntry c.stage f = true → l.entry c f = .ok code →
    ∃ pieces, List.Forall₂ (Writes c) (.function f :: rest c.model f) pieces ∧
      code = pieces.flatten

/-- The code of a stage is a header and a piece for each definition of the stage. -/
theorem WritesInOrder.exists_pieces {l : Language} {Writes : Context → Item → Code → Prop}
    {rest : Model → Function → List Item} (hl : l.WritesInOrder Writes rest) {m : Model}
    {stage : Stage} {f : Function} {code : Code} (hf : m.EndsWith stage f)
    (h : l.code m stage = .ok code) :
    ∃ pieces, List.Forall₂ (Writes ⟨m, stage, none⟩) (m.items stage ++ rest m f) pieces ∧
      code = l.header ⟨m, stage, none⟩ ++ pieces.flatten := by
  simp only [Language.code, hf.entry, hl.arrangement, Language.inOrder, bind_eq_ok, pure_eq_ok,
    Language.collect_eq_ok] at h
  obtain ⟨_, ⟨structs, hstructs, rfl⟩, _, ⟨_, ⟨resources, hresources, rfl⟩, _,
    ⟨helpers, hhelpers, rfl⟩, _, hmain, rfl⟩, rfl⟩ := h
  obtain ⟨last, hlast, rfl⟩ := hl.entry _ f _ hf.isEntry hmain
  refine ⟨structs ++ resources ++ helpers ++ last, ?_, by simp⟩
  rw [Model.items, hf.functions, List.map_append, ← List.append_assoc,
    List.append_assoc _ _ (rest m f)]
  refine List.rel_append (List.rel_append (List.rel_append ?_ ?_) ?_) hlast
  · exact List.forall₂_map_left_iff.2 (hstructs.imp fun d code => hl.struct _ d code)
  · exact List.forall₂_map_left_iff.2 (hresources.imp fun b code => hl.resource _ b code)
  · have hboth := (List.forall₂_and_left _ _).2 ⟨fun _ => List.of_mem_filter, hhelpers⟩
    refine List.forall₂_map_left_iff.2 (hboth.imp fun g code hg => ?_)
    exact hl.helper _ g code (by simpa using hg.1) hg.2

end Language

/-! ## HLSL -/

namespace Hlsl

variable {c : Context} {b : Binding} {code : Code}

/-- What stands behind the fields of a struct: their semantics, if the struct crosses a stage
boundary. -/
def behindFields (c : Context) (d : StructDef) : List String :=
  (fieldSemantics d).map fun semantic =>
    if (c.model.roles d.name).isEmpty then "" else " : " ++ semantic

theorem definesStruct {d : StructDef} (h : struct c d = .ok code) :
    dialect.DefinesStruct d (behindFields c d) code := by
  simp only [struct, bind_eq_ok, pure_eq_ok] at h
  obtain ⟨fields, hfields, rfl⟩ := h
  have hlength : (behindFields c d).length = d.fields.length := by
    rw [behindFields, List.length_map, fieldSemantics, length_semanticsFrom]
  have hfield : ∀ (p : Field × String) piece,
      fieldLine (!(c.model.roles d.name).isEmpty) p.1 p.2 = .ok piece → ∃ declaration,
        dialect.declaration p.1.ty (dialect.identifier p.1.name) = .ok declaration ∧
        piece = Code.line (declaration ++
          (if (c.model.roles d.name).isEmpty then "" else " : " ++ p.2) ++ ";") := by
    rintro ⟨field, semantic⟩ piece hpiece
    simp only [fieldLine, bind_eq_ok, pure_eq_ok] at hpiece
    obtain ⟨declaration, hdeclaration, rfl⟩ := hpiece
    refine ⟨declaration, hdeclaration, ?_⟩
    cases (c.model.roles d.name).isEmpty <;> simp [String.append_assoc]
  obtain ⟨lines, hlines, rfl⟩ := Dialect.exists_fieldLines
    (fun p => (p.1, if (c.model.roles d.name).isEmpty then "" else " : " ++ p.2)) hfields hfield
  refine .intro hlength ?_
  rw [behindFields, List.zip_map_right]
  exact hlines

/-- The declaration of a resource at a register: of a block for a uniform buffer, and of a
variable for any other resource. -/
inductive DeclaredAt (register : String) (b : Binding) : Code → Prop where
  | block {ty : String} : b.ty.kind = .uniformBuffer → typeName b.ty.toTy = .ok ty →
      DeclaredAt register b
        (Code.line ("cbuffer " ++ Name.mangle b.name ++ "Buffer : " ++ register) ++
          Code.block (Code.line (ty ++ " " ++ dialect.identifier b.name ++ ";")) ";" ++ Code.blank)
  | plain {ty : String} : b.ty.kind ≠ .uniformBuffer → typeName b.ty.toTy = .ok ty →
      DeclaredAt register b
        (Code.line (ty ++ " " ++ dialect.identifier b.name ++ " : " ++ register ++ ";") ++
          Code.blank)

theorem declaredAt_of_resource (c : Context) (h : resource c b = .ok code) :
    DeclaredAt (registerText c.model b) b code := by
  simp only [resource, bind_eq_ok] at h
  obtain ⟨ty, hty, h⟩ := h
  split at h
  · next hkind => exact pure_eq_ok.1 h ▸ .block hkind hty
  · next hkind => exact pure_eq_ok.1 h ▸ .plain hkind hty

/-- The piece of code for a definition of a stage. -/
inductive Writes (c : Context) : Item → Code → Prop where
  | struct {d : StructDef} {code : Code} : dialect.DefinesStruct d (behindFields c d) code →
      Writes c (.struct d) code
  | resource {b : Binding} {code : Code} : DeclaredAt (registerText c.model b) b code →
      Writes c (.resource b) code
  | helper {f : Function} {code : Code} : c.model.isEntry c.stage f = false →
      dialect.DefinesFunction c f "" code → Writes c (.function f) (code ++ Code.blank)
  | entry {f : Function} {code : Code} : c.model.isEntry c.stage f = true →
      dialect.DefinesFunction c f (resultSemantic c.stage f.result) code →
      Writes c (.function f) (groupLine c.stage f.groupSize ++ code)

theorem writesInOrder : language.WritesInOrder Writes fun _ _ => [] where
  arrangement := rfl
  struct _ _ _ h := .struct (definesStruct h)
  resource c _ _ h := .resource (declaredAt_of_resource c h)
  helper c f code hf h := by
    obtain ⟨function, hfunction, rfl⟩ := Dialect.exists_definesFunction_of_function spellsInline h
    exact .helper hf hfunction
  entry c f code hf h := by
    simp only [language, entry, bind_eq_ok, pure_eq_ok] at h
    obtain ⟨function, hfunction, rfl⟩ := h
    have hdefines := Dialect.definesFunction_of_functionWith spellsInline hfunction
    exact ⟨[_], .cons (.entry hf hdefines) .nil, by simp⟩

end Hlsl

/-! ## GLSL -/

namespace Glsl

variable {v : Version} {c : Context} {b : Binding} {f : Function} {code : Code}

theorem definesStruct {d : StructDef} (h : struct v d = .ok code) :
    (dialect v).DefinesStruct d (d.fields.map fun _ => "") code := by
  simp only [struct, bind_eq_ok, pure_eq_ok] at h
  obtain ⟨fields, hfields, rfl⟩ := h
  have hfield : ∀ field piece, fieldLine v field = .ok piece → ∃ declaration,
      (dialect v).declaration field.ty ((dialect v).identifier field.name) = .ok declaration ∧
      piece = Code.line (declaration ++ "" ++ ";") := by
    intro field piece hpiece
    simp only [fieldLine, bind_eq_ok, pure_eq_ok] at hpiece
    obtain ⟨declaration, hdeclaration, rfl⟩ := hpiece
    exact ⟨declaration, hdeclaration, by rw [String.append_empty]⟩
  obtain ⟨lines, hlines, rfl⟩ := Dialect.exists_fieldLines (fun field => (field, "")) hfields hfield
  have hzip : d.fields.zip (d.fields.map fun _ => "") = d.fields.map fun field => (field, "") := by
    have hmap : (d.fields.map id).zip (d.fields.map fun _ => "") =
        d.fields.map fun field => (id field, "") := List.zip_map'
    rwa [List.map_id] at hmap
  exact .intro (List.length_map _) (hzip ▸ hlines)

/-- The declaration of a resource.  A buffer is a variable in a block, and a sampler has no
declaration where textures have their own. -/
inductive DeclaresResource (v : Version) (stage : Stage) (b : Binding) : Code → Prop where
  | uniform {declaration : String} : b.ty.kind = .uniformBuffer →
      (dialect v).declaration b.ty.toTy ((dialect v).identifier b.name) = .ok declaration →
      DeclaresResource v stage b
        (Code.line (v.resourceLayout b.slot (some "std140") ++ "uniform " ++
            (Name.mangle b.name ++ "Buffer")) ++
          Code.block (Code.line (declaration ++ ";")) ";" ++ Code.blank)
  | storage {ty : String} : b.ty.kind = .structuredBuffer → v.storageBuffers stage = true →
      typeName v b.ty.toTy = .ok ty →
      DeclaresResource v stage b
        (Code.line (v.resourceLayout b.slot (some "std430") ++ accessText b.ty.access ++
            "buffer " ++ (Name.mangle b.name ++ "Buffer")) ++
          Code.block (Code.line (ty ++ " " ++ (dialect v).identifier b.name ++ "[];")) ";" ++
          Code.blank)
  | plain {ty : String} : b.ty.kind.isBuffer = false →
      ¬ (b.ty.kind = .sampler ∧ .separateSamplers ∉ v.capabilities) →
      typeName v b.ty.toTy = .ok ty →
      DeclaresResource v stage b
        (Code.line (v.resourceLayout b.slot none ++ "uniform " ++ ty ++ " " ++
          (dialect v).identifier b.name ++ ";") ++ Code.blank)
  | sampler : b.ty.kind = .sampler → .separateSamplers ∉ v.capabilities →
      DeclaresResource v stage b []

theorem declaresResource (h : resource v c b = .ok code) :
    DeclaresResource v c.stage b code := by
  simp only [resource] at h
  split at h
  · next hkind =>
    simp only [bind_eq_ok, pure_eq_ok] at h
    obtain ⟨declaration, hdeclaration, rfl⟩ := h
    exact .uniform hkind hdeclaration
  · next hkind =>
    split at h
    · next hstorage =>
      simp only [bind_eq_ok, pure_eq_ok] at h
      obtain ⟨ty, hty, rfl⟩ := h
      exact .storage hkind hstorage hty
    · cases h
  · next kind huniform hstructured =>
    have hkind : b.ty.kind.isBuffer = false := by
      cases hb : b.ty.kind <;> first | rfl | exact absurd hb huniform | exact absurd hb hstructured
    split at h
    · next hsampler =>
      cases h
      exact .sampler hsampler.1 hsampler.2
    · next hsampler =>
      simp only [bind_eq_ok, pure_eq_ok] at h
      obtain ⟨ty, hty, rfl⟩ := h
      exact .plain hkind hsampler hty

/-- The piece of code for a definition of a stage. -/
inductive Writes (v : Version) (fixup : Fixup) (c : Context) : Item → Code → Prop where
  | struct {d : StructDef} {code : Code} :
      (dialect v).DefinesStruct d (d.fields.map fun _ => "") code →
      Writes v fixup c (.struct d) code
  | resource {b : Binding} {code : Code} : DeclaresResource v c.stage b code →
      Writes v fixup c (.resource b) code
  | function {f : Function} {code : Code} : (dialect v).DefinesFunction c f "" code →
      Writes v fixup c (.function f) (code ++ Code.blank)
  | main {f : Function} {structs : List StructDef} {code : Code} :
      DefinesMain v fixup c f code → Writes v fixup c (.main f structs) code

theorem writesInOrder (hv : v ∈ versions) (fixup : Option Fixup) : (language v fixup).WritesInOrder
    (Writes v (fixup.getD v.defaultFixup)) fun m f => [m.mainItem f] where
  arrangement := rfl
  struct _ _ _ h := .struct (definesStruct h)
  resource _ _ _ h := .resource (declaresResource h)
  helper c f code _ h := by
    obtain ⟨function, hfunction, rfl⟩ :=
      Dialect.exists_definesFunction_of_function (spellsInline hv) h
    exact .function hfunction
  entry c f code _ h := by
    obtain ⟨_, main, hfunction, hmain, rfl⟩ := entry_eq_ok h
    obtain ⟨function, hdefines, rfl⟩ :=
      Dialect.exists_definesFunction_of_function (spellsInline hv) hfunction
    have hwires : Writes v (fixup.getD v.defaultFixup) c (c.model.mainItem f) main :=
      .main (definesMain_of_stageMain hmain)
    exact ⟨[_, main], .cons (.function hdefines) (.cons hwires .nil), by simp⟩

end Glsl

end Shading
