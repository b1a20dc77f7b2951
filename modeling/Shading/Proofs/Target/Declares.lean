import Shading.Proofs.Target.Pieces

/-!
# What a source declares

A source is a sequence of pieces, and each piece has the form of what it declares
(`Hlsl.Piece`, `Glsl.Piece`, `Metal.Piece`).  The names stand in the heads of the pieces;
the bodies of structs and functions stand in braces.  `Code.Declares` puts the pieces
together.

The list of things that a language declares for a stage is written down beside it
(`Hlsl.globals`, `Glsl.globals`, `Metal.globals`), and its code declares them, in order and
no others.  In Metal the resources and functions of a stage are members of a container,
which is a scope of its own (`Metal.members`).
-/

namespace Shading

/-! ## Sequences of pieces -/

namespace Code

/-- The starts of lines that declare nothing. -/
def directives : List String := ["#", "using ", "precision ", "layout(local_size_x = "]

/-- Lines that declare nothing, and an empty line behind them. -/
inductive Header : Code → Prop where
  | intro {lines : List String} :
      (∀ line ∈ lines, ∃ start ∈ directives, start.toList <+: line.toList) →
      Header (lines.flatMap Code.line ++ Code.blank)

/-- Code is a sequence of pieces, and declares what these declare, in order. -/
inductive Declares (Piece : Code → List Global → Prop) : Code → List Global → Prop where
  | nil : Declares Piece [] []
  | cons {piece rest : Code} {things others : List Global} : Piece piece things →
      Declares Piece rest others → Declares Piece (piece ++ rest) (things ++ others)

namespace Declares

variable {Piece : Code → List Global → Prop} {α : Type}

theorem append {a b : Code} {things others : List Global} (ha : Declares Piece a things)
    (hb : Declares Piece b others) : Declares Piece (a ++ b) (things ++ others) := by
  induction ha with
  | nil => exact hb
  | cons hpiece _ ih =>
    rw [List.append_assoc, List.append_assoc]
    exact .cons hpiece ih

theorem single {piece : Code} {things : List Global} (h : Piece piece things) :
    Declares Piece piece things := by
  simpa using cons h nil

/-- Pieces declare what each of them does. -/
theorem flatten {Writes : α → Code → Prop} {items : List α} {pieces : List Code}
    {things : α → List Global} (h : List.Forall₂ Writes items pieces)
    (hw : ∀ a piece, Writes a piece → Piece piece (things a)) :
    Declares Piece pieces.flatten (items.flatMap things) := by
  induction h with
  | nil => exact .nil
  | @cons a piece _ _ hpiece _ ih =>
    rw [List.flatMap_cons, List.flatten_cons]
    exact .cons (hw a piece hpiece) ih

theorem collect {write : α → Except Error Code} {pieces : List α} {code : Code}
    {things : α → List Global} (h : Language.collect write pieces = .ok code)
    (hw : ∀ a ∈ pieces, ∀ piece, write a = .ok piece → Piece piece (things a)) :
    Declares Piece code (pieces.flatMap things) := by
  obtain ⟨codes, hcodes, rfl⟩ := Language.collect_eq_ok.1 h
  have hboth := (List.forall₂_and_left (p := (· ∈ pieces)) _ _).2 ⟨fun _ => id, hcodes⟩
  exact flatten hboth fun a piece ⟨hmem, hpiece⟩ => hw a hmem piece hpiece

theorem collect_map {write : α → Except Error Code} {pieces : List α} {code : Code}
    {thing : α → Global} (h : Language.collect write pieces = .ok code)
    (hw : ∀ a ∈ pieces, ∀ piece, write a = .ok piece → Piece piece [thing a]) :
    Declares Piece code (pieces.map thing) := by
  rw [List.map_eq_flatMap]
  exact collect h hw

end Declares

end Code

open Code (Declares)

/-- The structs of a stage. -/
def Context.structs (c : Context) : List Global :=
  (c.model.structsFor c.stage).map (.struct ·.name)

/-- The functions of a stage. -/
def Context.functions (c : Context) : List Global :=
  (c.model.functionsFor c.stage).map (.ofFunction c)

/-! ## HLSL -/

namespace Hlsl

variable {c : Context}

/-- A resource.  A uniform buffer is a variable in a block. -/
def resourceGlobals (b : Binding) : List Global :=
  if b.ty.kind = .uniformBuffer then [.block b.name, .resource b.name] else [.resource b.name]

/-- What a definition declares. -/
def itemGlobals (c : Context) : Item → List Global
  | .struct d => [.struct d.name]
  | .resource b => resourceGlobals b
  | .function f => [.ofFunction c f]
  | .main _ _ => []

/-- What a source declares. -/
def globals (c : Context) : List Global :=
  c.structs ++ (c.model.resourcesFor c.stage).flatMap resourceGlobals ++ c.functions

/-- A piece of a source, and what it declares. -/
inductive Piece (c : Context) : Code → List Global → Prop where
  | header : Code.Header header → Piece c header []
  | item {item : Item} {code : Code} : Writes c item code → Piece c code (itemGlobals c item)

theorem declares_header : Declares (Piece c) header [] := by
  have hheader : Code.Header (["#pragma pack_matrix(row_major)"].flatMap Code.line ++ Code.blank) :=
    .intro (by decide)
  exact .single (.header hheader)

theorem declares_code {m : Model} {stage : Stage} {pieces : List Code}
    (h : List.Forall₂ (Writes ⟨m, stage, none⟩) (m.items stage) pieces) :
    Declares (Piece ⟨m, stage, none⟩) (header ++ pieces.flatten) (globals ⟨m, stage, none⟩) := by
  have hpieces : Declares (Piece ⟨m, stage, none⟩) pieces.flatten
      ((m.items stage).flatMap (itemGlobals ⟨m, stage, none⟩)) :=
    .flatten h fun _ _ => .item
  have hglobals : (m.items stage).flatMap (itemGlobals ⟨m, stage, none⟩) =
      globals ⟨m, stage, none⟩ := by
    simp only [Model.items, List.flatMap_append, List.flatMap_map, itemGlobals, globals,
      Context.structs, Context.functions, ← List.map_eq_flatMap]
  exact hglobals ▸ declares_header.append hpieces

end Hlsl

/-! ## GLSL -/

namespace Glsl

variable {v : Version} {fixup : Fixup} {c : Context}

/-- A resource.  A buffer is a variable in a block, and a sampler is not declared where
textures have their own. -/
def resourceGlobals (v : Version) (b : Binding) : List Global :=
  if b.ty.kind.isBuffer then [.block b.name, .resource b.name]
  else if b.ty.kind = .sampler ∧ .separateSamplers ∉ v.capabilities then []
  else [.resource b.name]

/-- A variable of a stage. -/
def StageVariable.global : StageVariable → Global
  | .attribute _ field => .input field.name
  | .varying _ location _ => .varying location
  | .target index _ => .target index
  | .color => .target 0

/-- What stands around the entry point of a stage: the variables of the stage, and `main`. -/
def wiring (c : Context) (f : Function) : List Global :=
  (ports c f).map StageVariable.global ++ [.main]

/-- The varyings of a struct. -/
def varyingGlobals (d : StructDef) : List Global :=
  d.varyings.zipIdx.map fun (_, location) => .varying location

/-- The render targets of a result. -/
def targetGlobals (result : Ty) : Option StructDef → List Global
  | some d => (targets d).map fun (_, index) => .target index
  | none => if result.isVoid then [] else [.target 0]

theorem global_attributes (d : StructDef) :
    (StageVariable.attributes d).map StageVariable.global = d.fields.map (.input ·.name) := by
  rw [StageVariable.attributes, List.map_map, ← List.zipIdx_map_fst 0 d.fields, List.map_map,
    List.zipIdx_map_fst]
  rfl

theorem global_varyings (direction : String) (d : StructDef) :
    (StageVariable.varyings direction d).map StageVariable.global = varyingGlobals d := by
  rw [StageVariable.varyings, List.map_map]
  rfl

theorem global_targets (result : Ty) (d : Option StructDef) :
    (StageVariable.targets result d).map StageVariable.global = targetGlobals result d := by
  cases d with
  | some d => simp [StageVariable.targets, StageVariable.global, targetGlobals]
  | none =>
    rw [StageVariable.targets, targetGlobals]
    split <;> rfl

/-- A vertex stage has the attributes of its input and the varyings of its result. -/
theorem wiring_vertex (m : Model) (g : Option Function) (f : Function) :
    wiring ⟨m, .vertex, g⟩ f =
      ((m.input? f).toList.flatMap fun d => d.fields.map (.input ·.name)) ++
        (m.output? f).toList.flatMap varyingGlobals ++ [.main] := by
  simp [wiring, ports, vertexPorts, List.map_flatMap, global_attributes, global_varyings]

/-- A fragment stage has the varyings of its input and the render targets of its result. -/
theorem wiring_fragment (m : Model) (g : Option Function) (f : Function) :
    wiring ⟨m, .fragment, g⟩ f = (m.input? f).toList.flatMap varyingGlobals ++
      targetGlobals f.result (m.output? f) ++ [.main] := by
  simp [wiring, ports, fragmentPorts, List.map_flatMap, global_varyings, global_targets]

/-- What a definition declares. -/
def itemGlobals (v : Version) (c : Context) : Item → List Global
  | .struct d => [.struct d.name]
  | .resource b => resourceGlobals v b
  | .function f => [.ofFunction c f]
  | .main f _ => wiring c f

/-- What the definitions of a stage declare. -/
def definitions (v : Version) (c : Context) : List Global :=
  c.structs ++ (c.model.resourcesFor c.stage).flatMap (resourceGlobals v) ++ c.functions

/-- What a source declares: the definitions of a stage, and behind them its wiring. -/
def globals (v : Version) (c : Context) (f : Function) : List Global :=
  definitions v c ++ wiring c f

/-- A piece of a source, and what it declares. -/
inductive Piece (v : Version) (fixup : Fixup) (c : Context) : Code → List Global → Prop where
  | header : Code.Header (header v c) → Piece v fixup c (header v c) []
  | item {item : Item} {code : Code} : Writes v fixup c item code →
      Piece v fixup c code (itemGlobals v c item)

theorem declares_header (hv : v ∈ versions) : Declares (Piece v fixup c) (header v c) [] := by
  have hversion : ∀ stage storage, ∀ line ∈ v.versionLines stage storage,
      ∃ start ∈ Code.directives, start.toList <+: line.toList := by
    intro stage storage
    simp only [versions, List.mem_cons, List.not_mem_nil, or_false] at hv
    rcases hv with rfl | rfl | rfl <;> cases stage <;> cases storage <;> decide
  refine .single (.header ?_)
  simp only [header]
  split
  · next size _ _ =>
    have hgroup : ∃ start ∈ Code.directives, start.toList <+:
        ("layout(local_size_x = " ++ toString size.x ++ ", local_size_y = " ++ toString size.y ++
          ", local_size_z = " ++ toString size.z ++ ") in;").toList :=
      ⟨"layout(local_size_x = ", by decide, by simp⟩
    have hlines := List.forall_mem_append.2 ⟨hversion c.stage
      ((c.model.resourcesFor c.stage).any (·.ty.kind = .structuredBuffer)),
      List.forall_mem_singleton.2 hgroup⟩
    simpa using Code.Header.intro hlines
  · rw [List.append_nil]
    exact .intro (hversion _ _)

theorem flatMap_itemGlobals (m : Model) (stage : Stage) :
    (m.items stage).flatMap (itemGlobals v ⟨m, stage, none⟩) =
      definitions v ⟨m, stage, none⟩ := by
  simp only [Model.items, List.flatMap_append, List.flatMap_map, itemGlobals, definitions,
    Context.structs, Context.functions, ← List.map_eq_flatMap]

theorem declares_code (hv : v ∈ versions) {m : Model} {stage : Stage} {f : Function}
    {pieces : List Code} (h : List.Forall₂ (Writes v fixup ⟨m, stage, none⟩)
      (m.items stage ++ [m.mainItem f]) pieces) :
    Declares (Piece v fixup ⟨m, stage, none⟩) (header v ⟨m, stage, none⟩ ++ pieces.flatten)
      (globals v ⟨m, stage, none⟩ f) := by
  have hpieces : Declares (Piece v fixup ⟨m, stage, none⟩) pieces.flatten
      ((m.items stage ++ [m.mainItem f]).flatMap (itemGlobals v ⟨m, stage, none⟩)) :=
    .flatten h fun _ _ => .item
  rw [List.flatMap_append, flatMap_itemGlobals, List.flatMap_singleton] at hpieces
  exact (declares_header hv).append hpieces

end Glsl

/-! ## Metal -/

namespace Metal

variable {c : Context} {f : Function} {code : Code}

/-- The constant for the thread group of a compute stage. -/
def groupGlobals (c : Context) (f : Function) : List Global :=
  match c.stage, f.groupSize with
  | .compute, some _ => [.groupSize f.name]
  | _, _ => []

/-- What a source declares outside of the container. -/
def globals (c : Context) (f : Function) : List Global :=
  groupGlobals c f ++ c.structs ++ [.container, .ofFunction c f]

/-- What a source declares in the container.  Its constructor has its name. -/
def members (c : Context) : List Global :=
  (c.model.resourcesFor c.stage).map (.resource ·.name) ++
    (if (c.model.resourcesFor c.stage).isEmpty then [] else [.container]) ++ c.functions

/-- A piece of the container, and what it declares. -/
inductive Member (c : Context) : Code → List Global → Prop where
  | blank : Member c Code.blank []
  | resource {b : Binding} {declaration : String} :
      resourceDeclaration b ((Global.resource b.name).name reserved) = .ok declaration →
      Member c (Code.line (declaration ++ ";")) [.resource b.name]
  | constructor {params : List String} : c.model.resourcesFor c.stage ≠ [] →
      (c.model.resourcesFor c.stage).mapM (fun b =>
        resourceDeclaration b (dialect.identifier b.name ++ "_param")) = .ok params →
      Member c (Code.blank ++ Code.line (container ++ "(" ++ ", ".intercalate params ++ ")") ++
        Code.line (": " ++ ", ".intercalate ((c.model.resourcesFor c.stage).map fun b =>
          dialect.identifier b.name ++ "(" ++ dialect.identifier b.name ++ "_param)")) ++
        Code.line "\x7b\x7d") [.container]
  | function {f : Function} {code : Code} : dialect.DefinesFunction c f "" code →
      Member c (code ++ Code.blank) [.ofFunction c f]

/-- What stands behind the fields of a struct: their attributes. -/
def behindFields (c : Context) (d : StructDef) : List String :=
  d.fields.zipIdx.map fun (field, index) => fieldAttributes c.model d.name index field

/-- The call of a function in the container. -/
def forwardText (c : Context) (f : Function) : String :=
  container ++ "(" ++ ", ".intercalate ((c.model.resourcesFor c.stage).map fun b =>
    dialect.identifier b.name) ++ ")." ++ (Global.ofFunction c f).name reserved ++ "(" ++
    ", ".intercalate (f.params.map fun p => dialect.identifier p.name) ++ ");"

/-- A piece of a source, and what it declares. -/
inductive Piece (c : Context) (f : Function) : Code → List Global → Prop where
  | header : Code.Header (Code.line "#include <metal_stdlib>" ++
        Code.line "using namespace metal;" ++ Code.blank) →
      Piece c f (Code.line "#include <metal_stdlib>" ++ Code.line "using namespace metal;" ++
        Code.blank) []
  | groupSize {size : GroupSize} : c.stage = .compute → f.groupSize = some size →
      Piece c f (Code.line ("constant uint3 " ++ (Global.groupSize f.name).name reserved ++
        " = uint3" ++ toString size ++ ";") ++ Code.blank) [.groupSize f.name]
  | struct {d : StructDef} {code : Code} : dialect.DefinesStruct d (behindFields c d) code →
      Piece c f code [.struct d.name]
  | container {body : Code} : Declares (Member c) body (members c) → body.Balanced →
      Piece c f (Code.line ("struct " ++ container) ++ Code.block body ";" ++ Code.blank)
        [.container]
  | entry {params resourceParams : List String} {result : String} :
      f.params.mapM stageParameter = .ok params →
      (c.model.resourcesFor c.stage).mapM (resourceParameter c) = .ok resourceParams →
      typeName f.result = .ok result →
      Piece c f (Code.line (stageWord c.stage ++ " " ++ result ++ " " ++
          (Global.ofFunction c f).name reserved ++ "(" ++
          ", ".intercalate (params ++ resourceParams) ++ ")") ++
        Code.block (Code.line (if f.result.isVoid then forwardText c f
          else "return " ++ forwardText c f)) "") [.ofFunction c f]

theorem declares_header (hf : c.model.entryFunction? c.stage = some f) :
    Declares (Piece c f) (header c) (groupGlobals c f) := by
  have hheader : Code.Header (["#include <metal_stdlib>", "using namespace metal;"].flatMap
      Code.line ++ Code.blank) := .intro (by decide)
  refine (Declares.single (Piece.header hheader)).append ?_
  obtain ⟨m, stage, g⟩ := c
  cases stage with
  | vertex | fragment => exact .nil
  | compute =>
    simp only [hf]
    split
    · next size hsize =>
      have htext : f.name ++ "_ThreadGroupSize" = (Global.groupSize f.name).name reserved := rfl
      have hline : "constant uint3 " ++ f.name ++ "_ThreadGroupSize = uint3" ++ toString size ++
          ";" = "constant uint3 " ++ (Global.groupSize f.name).name reserved ++ " = uint3" ++
            toString size ++ ";" := by
        rw [← htext]
        simp [← String.toList_inj]
      rw [hsize, hline]
      exact .single (.groupSize rfl hsize)
    · next hsize =>
      rw [hsize]
      exact .nil

theorem definesStruct {d : StructDef} (h : struct c d = .ok code) :
    dialect.DefinesStruct d (behindFields c d) code := by
  simp only [struct, bind_eq_ok, pure_eq_ok] at h
  obtain ⟨fields, hfields, rfl⟩ := h
  have hfield : ∀ (p : Field × Nat) piece, fieldLine c.model d.name p.2 p.1 = .ok piece →
      ∃ declaration,
        dialect.declaration p.1.ty (dialect.identifier p.1.name) = .ok declaration ∧
        piece = Code.line (declaration ++ fieldAttributes c.model d.name p.2 p.1 ++ ";") := by
    rintro ⟨field, index⟩ piece hpiece
    simp only [fieldLine, bind_eq_ok, pure_eq_ok] at hpiece
    obtain ⟨declaration, hdeclaration, rfl⟩ := hpiece
    exact ⟨declaration, hdeclaration, rfl⟩
  obtain ⟨lines, hlines, rfl⟩ := Dialect.exists_fieldLines
    (fun p => (p.1, fieldAttributes c.model d.name p.2 p.1)) hfields hfield
  have hzip : d.fields.zip (behindFields c d) =
      d.fields.zipIdx.map fun p => (p.1, fieldAttributes c.model d.name p.2 p.1) := by
    have hmap : (d.fields.zipIdx.map Prod.fst).zip (behindFields c d) =
        d.fields.zipIdx.map fun p => (p.1, fieldAttributes c.model d.name p.2 p.1) := List.zip_map'
    rwa [List.zipIdx_map_fst] at hmap
  exact .intro (by simp [behindFields]) (hzip ▸ hlines)

theorem declares_member {b : Binding} (h : resource c b = .ok code) :
    Member c code [.resource b.name] := by
  simp only [resource, bind_eq_ok, pure_eq_ok] at h
  obtain ⟨declaration, hdeclaration, rfl⟩ := h
  exact .resource hdeclaration

theorem declares_constructor
    (h : containerConstructor (c.model.resourcesFor c.stage) = .ok code) :
    Declares (Member c) code
      (if (c.model.resourcesFor c.stage).isEmpty then [] else [.container]) := by
  rw [containerConstructor] at h
  split at h
  · next hempty =>
    cases h
    rw [if_pos hempty]
    exact .nil
  · next hempty =>
    simp only [bind_eq_ok, pure_eq_ok] at h
    obtain ⟨params, hparams, rfl⟩ := h
    rw [if_neg hempty]
    exact .single (.constructor (fun hnil => hempty (List.isEmpty_iff.2 hnil)) hparams)

theorem declares_function (h : dialect.function c f = .ok code) :
    Member c code [.ofFunction c f] := by
  obtain ⟨function, hfunction, rfl⟩ := Dialect.exists_definesFunction_of_function spellsInline h
  exact .function hfunction

theorem declares_entry (h : entry c f = .ok code) : Piece c f code [.ofFunction c f] := by
  simp only [entry, bind_eq_ok, pure_eq_ok] at h
  obtain ⟨params, hparams, resourceParams, hresourceParams, result, hresult, rfl⟩ := h
  simp only [← Global.name_ofFunction]
  exact .entry hparams hresourceParams hresult

/-- Outside of the container and in it, a source declares what it should. -/
theorem declares_code {m : Model} {stage : Stage} (hf : m.entryFunction? stage = some f)
    (h : language.code m stage = .ok code) :
    ∃ before body after,
      code = before ++ (Code.line ("struct " ++ container) ++ Code.block body ";") ++ after ∧
      Declares (Piece ⟨m, stage, none⟩ f) code (globals ⟨m, stage, none⟩ f) ∧
      Declares (Member ⟨m, stage, none⟩) body (members ⟨m, stage, none⟩) := by
  simp only [Language.code, hf, language, arrangement, bind_eq_ok, pure_eq_ok] at h
  obtain ⟨structs, hstructs, _, ⟨resources, hresources, constructor, hconstructor, functions,
    hfunctions, entry, hentry, rfl⟩, rfl⟩ := h
  have hmembers : Declares (Member ⟨m, stage, none⟩)
      (resources ++ constructor ++ Code.blank ++ functions) (members ⟨m, stage, none⟩) := by
    have hdeclared := (Declares.collect_map hresources fun _ _ _ => declares_member).append
      (declares_constructor hconstructor)
    have hblank := hdeclared.append (.single .blank)
    rw [List.append_nil] at hblank
    exact hblank.append (.collect_map hfunctions fun _ _ _ => declares_function)
  have hbalanced : (resources ++ constructor ++ Code.blank ++ functions).Balanced :=
    (((Language.balanced_collect hresources fun _ _ => balanced_resource).append
      (balanced_containerConstructor hconstructor)).append_blank).append
        (Language.balanced_collect hfunctions fun _ _ => Dialect.balanced_function spellsInline)
  refine ⟨header ⟨m, stage, none⟩ ++ structs, resources ++ constructor ++ Code.blank ++ functions,
    Code.blank ++ entry, by simp only [List.append_assoc], ?_, hmembers⟩
  have hstructs := Declares.collect_map hstructs fun d _ piece hd =>
    Piece.struct (f := f) (definesStruct hd)
  exact ((declares_header hf).append hstructs).append
    (.cons (.container hmembers hbalanced) (.single (declares_entry hentry)))

end Metal

end Shading
