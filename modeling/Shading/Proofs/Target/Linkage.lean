import Shading.Proofs.Model.Varyings
import Shading.Proofs.Target.Emission
import Shading.Proofs.Text.Lines

/-!
# Sources that link

The vertex and the fragment stage of a model are compiled apart and meet at their
varyings.  HLSL matches varyings by semantic and GLSL by name and layout.  Both spell
what the vertex stage writes as what the fragment stage reads
(`stagesLink_of_build`).

In HLSL the number in a semantic counts the fields of its kind before it.  The two
structs are numbered apart, and they agree because the varyings that are read are a
beginning of those that are written, kind by kind.
-/

namespace Shading

/-! ## HLSL -/

namespace Hlsl

/-- The varyings of a struct with their semantics, in order of location. -/
def varyingSemantics (d : StructDef) : List (Field × String) :=
  (d.fields.zip (fieldSemantics d)).filter fun entry => entry.1.semantic ≠ some .systemPosition

/-- Positions have a semantic of their own, so the others are numbered as without them. -/
theorem varyingSemantics_eq (d : StructDef) :
    varyingSemantics d = d.varyings.zip (semanticsFrom [] d.varyings) := by
  suffices h : ∀ (earlier : List String) (fields : List Field),
      (fields.zip (semanticsFrom earlier fields)).filter
          (fun entry => entry.1.semantic ≠ some .systemPosition) =
        (fields.filter (·.semantic ≠ some .systemPosition)).zip
          (semanticsFrom earlier (fields.filter (·.semantic ≠ some .systemPosition))) from
    h [] d.fields
  intro earlier fields
  induction fields generalizing earlier with
  | nil => rfl
  | cons field rest ih =>
    by_cases hposition : field.semantic = some .systemPosition
    · simpa [semanticsFrom, hposition, fixedSemantic?] using ih earlier
    · rw [List.filter_cons_of_pos (by simpa using hposition)]
      simp only [semanticsFrom]
      split
      · simpa [hposition] using ih earlier
      · simpa [hposition] using ih (numberedSemantic field.semantic :: earlier)

/-- A varying that is linked to one without a fixed semantic is of the same kind. -/
theorem kind_of_links {written read : Field} (h : written.links read = true)
    (hw : fixedSemantic? written.semantic = none) :
    fixedSemantic? read.semantic = none ∧
      numberedSemantic read.semantic = numberedSemantic written.semantic := by
  obtain ⟨-, hlinkage⟩ := Field.links_iff.1 h
  simp only [Field.linkage] at hlinkage
  cases hws : written.semantic with
  | none =>
    rw [hws, Option.getD_none] at hlinkage
    cases hrs : read.semantic with
    | none => exact ⟨rfl, rfl⟩
    | some r =>
      rw [hrs, Option.getD_some] at hlinkage
      exact hlinkage ▸ ⟨rfl, rfl⟩
  | some w =>
    rw [hws, Option.getD_some] at hlinkage
    rw [hws] at hw
    cases hrs : read.semantic with
    | none =>
      rw [hrs, Option.getD_none] at hlinkage
      exact hlinkage ▸ ⟨rfl, rfl⟩
    | some r =>
      rw [hrs, Option.getD_some] at hlinkage
      exact hlinkage ▸ ⟨hw, rfl⟩

/-- Varyings that are read get the semantics of those that are written at their places. -/
theorem semanticsFrom_of_links {written read : List Field} (earlier : List String)
    (hlinks : ∀ (l : Nat) (field : Field), read[l]? = some field →
      ∃ w : Field, written[l]? = some w ∧ w.links field = true)
    (hfixed : ∀ field ∈ written, fixedSemantic? field.semantic = none) {l : Nat}
    (hl : l < read.length) :
    (semanticsFrom earlier read)[l]? = (semanticsFrom earlier written)[l]? := by
  induction read generalizing written earlier l with
  | nil => cases hl
  | cons field rest ih =>
    obtain ⟨w, hw, hlink⟩ := hlinks 0 field rfl
    cases written with
    | nil => cases hw
    | cons _ others =>
      cases hw
      have hfirst := hfixed w (.head _)
      obtain ⟨hread, hkind⟩ := kind_of_links hlink hfirst
      simp only [semanticsFrom, hread, hfirst, hkind]
      cases l with
      | zero => rfl
      | succ l =>
        -- Both sides count the same kinds before the rest.
        exact ih _ (fun l field h => hlinks (l + 1) field h)
          (fun field h => hfixed field (.tail _ h)) (Nat.lt_of_succ_lt_succ hl)

theorem length_semanticsFrom (earlier : List String) (fields : List Field) :
    (semanticsFrom earlier fields).length = fields.length := by
  induction fields generalizing earlier with
  | nil => rfl
  | cons field rest ih =>
    simp only [semanticsFrom]
    split <;> simp [ih]

/-- A varying that no render target takes has a numbered semantic. -/
theorem fixedSemantic?_of_mem_varyings {d : StructDef} {field : Field}
    (hd : ∀ field ∈ d.fields, Signature.target? field = none) (hf : field ∈ d.varyings) :
    fixedSemantic? field.semantic = none := by
  obtain ⟨hmem, hposition⟩ := List.mem_filter.1 hf
  have htarget := hd field hmem
  rw [Signature.target?] at htarget
  simp only [fixedSemantic?]
  split
  · next hs => simp [hs] at hposition
  · next n hs => simp [hs] at htarget
  · rfl

/-- What is read at a location has the semantic of what is written there. -/
theorem exists_semantic {output input : StructDef}
    (htargets : ∀ field ∈ output.fields, Signature.target? field = none)
    (hlinks : ∀ (l : Nat) (field : Field), input.varyings[l]? = some field →
      ∃ w : Field, output.varyings[l]? = some w ∧ w.links field = true)
    {l : Nat} {field w : Field} (hl : input.varyings[l]? = some field)
    (hw : output.varyings[l]? = some w) :
    ∃ semantic, (varyingSemantics input)[l]? = some (field, semantic) ∧
      (varyingSemantics output)[l]? = some (w, semantic) := by
  obtain ⟨hlt, -⟩ := List.getElem?_eq_some_iff.1 hl
  have hsame := semanticsFrom_of_links [] hlinks
    (fun _ => fixedSemantic?_of_mem_varyings htargets) hlt
  have hread : l < (semanticsFrom [] input.varyings).length := by
    rwa [length_semanticsFrom]
  refine ⟨(semanticsFrom [] input.varyings)[l], ?_, ?_⟩
  · rw [varyingSemantics_eq, List.getElem?_zip_eq_some]
    exact ⟨hl, List.getElem?_eq_getElem hread⟩
  · rw [varyingSemantics_eq, List.getElem?_zip_eq_some]
    exact ⟨hw, hsame ▸ List.getElem?_eq_getElem hread⟩

end Hlsl

/-! ## GLSL -/

namespace Glsl

variable {v : Version} {m : Model} {f : Function} {fixup : Option Fixup}

/-- A source declares the varying at a location, with a type. -/
def DeclaresVarying (v : Version) (text direction : String) (location : Nat) (ty : Ty) : Prop :=
  ∃ name, typeName v ty = .ok name ∧
    HasLine text (v.varyingLayout location ++ interpolation ty ++ direction ++ " " ++
      (name ++ " " ++ varyingName location) ++ ";")

/-- The code of a stage ends with its wiring. -/
theorem exists_append_main {stage : Stage} {code : Code}
    (h : (language v fixup).code m stage = .ok code) (hf : m.entryFunction? stage = some f) :
    ∃ before main, (match stage with
        | .vertex => vertexMain v (fixup.getD v.defaultFixup) ⟨m, stage, none⟩ f
        | .fragment => fragmentMain v ⟨m, stage, none⟩ f
        | .compute => computeMain v ⟨m, stage, none⟩ f) = .ok main ∧ code = before ++ main := by
  cases stage
  all_goals
    simp only [Language.code, hf, language, Language.inOrder, entry, bind_eq_ok, pure_eq_ok] at h
    obtain ⟨structs, -, _, ⟨resources, -, helpers, -, _, ⟨function, -, main, hmain, rfl⟩, rfl⟩,
      rfl⟩ := h
    exact ⟨_, main, hmain, by simp only [← List.append_assoc]; rfl⟩

/-- The wiring of a stage is part of its code. -/
theorem exists_main {stage : Stage} {code : Code}
    (h : (language v fixup).code m stage = .ok code) (hf : m.entryFunction? stage = some f) :
    ∃ main, (match stage with
        | .vertex => vertexMain v (fixup.getD v.defaultFixup) ⟨m, stage, none⟩ f
        | .fragment => fragmentMain v ⟨m, stage, none⟩ f
        | .compute => computeMain v ⟨m, stage, none⟩ f) = .ok main ∧
      ∀ step ∈ main, step ∈ code := by
  obtain ⟨before, main, hmain, rfl⟩ := exists_append_main h hf
  exact ⟨main, hmain, fun step => List.mem_append_right _⟩

theorem interfaceStruct_eq {c : Context} {ty : Ty} {name : String} {d : StructDef}
    (hty : ty.structName? = some name) (hd : c.model.struct? name = some d) :
    interfaceStruct c ty = .ok (some d) := by simp [interfaceStruct, hty, hd]

/-- The varyings of a struct are declared one by one. -/
theorem mem_varyingLines {d : StructDef} {direction : String} {code : Code}
    (h : varyingLines v direction d = .ok code) {l : Nat} {field : Field}
    (hl : d.varyings[l]? = some field) (hi : field.ty.isInterface = true) :
    ∃ name, typeName v field.ty = .ok name ∧
      .line (v.varyingLayout l ++ interpolation field.ty ++ direction ++ " " ++
        (name ++ " " ++ varyingName l) ++ ";") ∈ code := by
  obtain ⟨piece, hpiece, hsub⟩ := Language.mem_collect h (List.mk_mem_zipIdx_iff_getElem?.2 hl)
  simp only [varyingLine, Dialect.declaration, declarationText, bind_eq_ok, pure_eq_ok] at hpiece
  obtain ⟨declaration, hdeclaration, rfl⟩ := hpiece
  -- Scalars and vectors are declared by their type and name alone.
  obtain ⟨name, hname, rfl⟩ : ∃ name, typeName v field.ty = .ok name ∧
      name ++ " " ++ varyingName l = declaration := by
    cases hty : field.ty <;> simp only [hty, Ty.isInterface, reduceCtorEq] at hi
    all_goals
      simp only [hty, bind_eq_ok, pure_eq_ok] at hdeclaration
      exact hdeclaration
  exact ⟨name, hname, hsub _ (.head _)⟩

/-- A declaration among the code of a stage is in its text. -/
theorem declaresVarying_of_mem {code : Code} {direction : String} {l : Nat} {ty : Ty}
    (h : ∃ name, typeName v ty = .ok name ∧
      .line (v.varyingLayout l ++ interpolation ty ++ direction ++ " " ++
        (name ++ " " ++ varyingName l) ++ ";") ∈ code) :
    DeclaresVarying v (code.text 0) direction l ty := by
  obtain ⟨name, hname, hmem⟩ := h
  refine ⟨name, hname, Code.hasLine_of_mem 0 hmem fun hempty => ?_⟩
  simp [String.append_eq_empty_iff] at hempty

theorem vertex_declares {text : String} (h : (language v fixup).generate m .vertex = .ok text)
    (hf : m.entryFunction? .vertex = some f) {name : String} {output : StructDef}
    (hresult : f.result = .struct name) (houtput : m.struct? name = some output) {l : Nat}
    {field : Field} (hl : output.varyings[l]? = some field) (hi : field.ty.isInterface = true) :
    DeclaresVarying v text "out" l field.ty := by
  obtain ⟨code, hcode, rfl⟩ := Language.generate_eq_ok.1 h
  obtain ⟨main, hmain, hsub⟩ := exists_main hcode hf
  have hstruct : interfaceStruct ⟨m, .vertex, none⟩ f.result = .ok (some output) :=
    interfaceStruct_eq (by rw [hresult]; rfl) houtput
  simp only [vertexMain, bind_eq_ok, pure_eq_ok, hstruct, Except.ok.injEq,
    exists_eq_left'] at hmain
  obtain ⟨_, -, _, -, varyings, hvaryings, _, -, rfl⟩ := hmain
  obtain ⟨piece, hpiece, hin⟩ := Language.mem_collect hvaryings (a := output) (by simp)
  obtain ⟨ty, hty, hmem⟩ := mem_varyingLines hpiece hl hi
  exact declaresVarying_of_mem ⟨ty, hty, hsub _ (by simp [hin _ hmem])⟩

theorem fragment_declares {text : String}
    (h : (language v fixup).generate m .fragment = .ok text)
    (hf : m.entryFunction? .fragment = some f) {name : String} {input : StructDef}
    (hname : f.inputStruct? = some name) (hinput : m.struct? name = some input) {l : Nat}
    {field : Field} (hl : input.varyings[l]? = some field) (hi : field.ty.isInterface = true) :
    DeclaresVarying v text "in" l field.ty := by
  obtain ⟨code, hcode, rfl⟩ := Language.generate_eq_ok.1 h
  obtain ⟨main, hmain, hsub⟩ := exists_main hcode hf
  obtain ⟨param, hparam, hty⟩ := Option.bind_eq_some_iff.1 hname
  have hstruct : inputStruct ⟨m, .fragment, none⟩ f = .ok (some input) := by
    simp only [inputStruct, hparam]
    exact interfaceStruct_eq hty hinput
  simp only [fragmentMain, bind_eq_ok, pure_eq_ok, hstruct, Except.ok.injEq,
    exists_eq_left'] at hmain
  obtain ⟨_, -, varyings, hvaryings, _, -, _, -, rfl⟩ := hmain
  obtain ⟨piece, hpiece, hin⟩ := Language.mem_collect hvaryings (a := input) (by simp)
  obtain ⟨ty, hty, hmem⟩ := mem_varyingLines hpiece hl hi
  exact declaresVarying_of_mem ⟨ty, hty, hsub _ (by simp [hin _ hmem])⟩

end Glsl

/-! ## Both stages -/

/-- What is written at a location is read there: it has the type of what is read, its
semantic in HLSL, and its declaration in GLSL. -/
structure Model.LinksVarying (m : Model) (output input : StructDef) (l : Nat)
    (read written : Field) : Prop where
  written_at : output.varyings[l]? = some written
  ty : written.ty = read.ty
  hlsl : ∃ semantic, (Hlsl.varyingSemantics input)[l]? = some (read, semantic) ∧
    (Hlsl.varyingSemantics output)[l]? = some (written, semantic)
  glsl_out : ∀ v ∈ Glsl.versions, ∀ fixup text,
    (Glsl.language v fixup).generate m .vertex = .ok text →
    Glsl.DeclaresVarying v text "out" l read.ty
  glsl_in : ∀ v ∈ Glsl.versions, ∀ fixup text,
    (Glsl.language v fixup).generate m .fragment = .ok text →
    Glsl.DeclaresVarying v text "in" l read.ty

/-- A vertex stage links to a fragment stage that reads a struct. -/
inductive Model.Links (m : Model) (vertex : Function) (input : StructDef) : Prop where
  /-- A position alone carries no varyings. -/
  | position : vertex.result = .float4 → input.varyings = [] → m.Links vertex input
  | struct {name : String} {output : StructDef} : vertex.result = .struct name →
      m.struct? name = some output →
      (∀ (l : Nat) (read : Field), input.varyings[l]? = some read →
        ∃ written, m.LinksVarying output input l read written) → m.Links vertex input

/-- The vertex and the fragment stage of a model link. -/
structure Model.StagesLink (m : Model) : Prop where
  links : ∃ vertex fragment, m.entryFunction? .vertex = some vertex ∧
    m.entryFunction? .fragment = some fragment ∧
    ∀ name, fragment.inputStruct? = some name →
      ∃ input, m.struct? name = some input ∧ m.Links vertex input
  /-- Both stages have sources, except where GLSL ES cannot declare a resource. -/
  sources : ∀ v ∈ Glsl.versions, v.target ≠ .glslEs300 → ∀ fixup,
    (∃ text, (Glsl.language v fixup).generate m .vertex = .ok text) ∧
      ∃ text, (Glsl.language v fixup).generate m .fragment = .ok text

/-- What is read from a vertex stage links to it. -/
theorem StructDef.ReadFrom.links {m : Model} {vertex fragment : Function} {input : StructDef}
    {name : String} (h : input.ReadFrom m vertex) (hv : m.entryFunction? .vertex = some vertex)
    (hf : m.entryFunction? .fragment = some fragment) (hname : fragment.inputStruct? = some name)
    (hinput : m.struct? name = some input) : m.Links vertex input := by
  cases h with
  | position hresult hnone => exact .position hresult hnone
  | @struct _ output hresult houtput htargets hlinks hinterface =>
    refine .struct hresult houtput fun l read hread => ?_
    obtain ⟨written, hwritten, hlink⟩ := hlinks l read hread
    obtain ⟨hty, -⟩ := Field.links_iff.1 hlink
    have hi := hinterface written
      (List.mem_filter.1 (List.mem_of_getElem? (l := output.varyings) hwritten)).1
    refine ⟨written, {
      written_at := hwritten
      ty := hty
      hlsl := Hlsl.exists_semantic htargets hlinks hread hwritten
      glsl_out := fun v _ fixup text htext => ?_
      glsl_in := fun v _ fixup text htext => ?_ }⟩
    · exact hty ▸ Glsl.vertex_declares htext hv hresult houtput hwritten hi
    · exact Glsl.fragment_declares htext hf hname hinput hread (hty ▸ hi)

namespace Program

variable {p : Program} {set : EntrySet} {m : Model}

/-- The vertex and the fragment stage of a model that was built link. -/
theorem stagesLink_of_build (h : p.build set = .ok m) {v f : String} (hv : set.vertex = some v)
    (hf : set.fragment = some f) : m.StagesLink := by
  obtain ⟨_, _, hbuilt⟩ := builtFrom_of_build h
  have hentry : set.entryName? .vertex = some v ∧ set.entryName? .fragment = some f := ⟨hv, hf⟩
  obtain ⟨vertex, hentryV, hfindV, -⟩ := hbuilt.entryFunction hentry.1
  obtain ⟨fragment, hentryF, hfindF, -⟩ := hbuilt.entryFunction hentry.2
  refine ⟨⟨vertex, fragment, hentryV, hentryF, fun name hname => ?_⟩, fun g hg hes fixup => ?_⟩
  · obtain ⟨input, hinput, hread⟩ := hbuilt.reads_written hv hf hfindV hfindF hname
    exact ⟨input, hinput, hread.links hentryV hentryF hname hinput⟩
  · have hdeclares : ∀ stage kind, g.declares stage kind = true := by
      simp only [Glsl.versions, List.mem_cons, List.not_mem_nil, or_false] at hg
      rcases hg with rfl | rfl | rfl
      · exact Glsl.declares_core330
      · exact absurd rfl hes
      · exact Glsl.declares_vulkan450
    obtain ⟨_, hwV⟩ := hbuilt.writable (EntrySet.mem_stages_of_entryName? hentry.1)
    obtain ⟨_, hwF⟩ := hbuilt.writable (EntrySet.mem_stages_of_entryName? hentry.2)
    exact ⟨Glsl.exists_source hg hwV fixup fun b _ => hdeclares _ _,
      Glsl.exists_source hg hwF fixup fun b _ => hdeclares _ _⟩

theorem stagesLink_sample : ∃ m, sample.build sampleSet = .ok m ∧
    sampleSet.vertex = some "Demo.VS" ∧ sampleSet.fragment = some "Demo.FS" ∧ m.StagesLink := by
  have h : sample.build sampleSet = .ok _ := rfl
  exact ⟨_, h, rfl, rfl, stagesLink_of_build h rfl rfl⟩

end Program

end Shading
