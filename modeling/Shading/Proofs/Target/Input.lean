import Shading.Proofs.Target.Linkage

/-!
# The input of a stage

Three tests tell which parameter of an entry point holds what the stage reads.  The
checks take every parameter without a builtin for it, and so does the call in `main`,
which passes `_stage_input` there.  `Function.input?` looks for a struct without any
semantic.  It decides what `main` declares and fills and which part a struct plays.

The three agree when the struct parameter has no semantic of its own, and only then
(`readsInput_of_build`).  A semantic that is no builtin passes the checks, and `main`
then passes a variable that it does not declare (`marked_input_undeclared`).
-/

namespace Shading

/-! ## GLSL -/

namespace Glsl

/-- Code that declares a struct for the stage's input and sets all its fields. -/
def FillsInput (v : Version) (d : StructDef) (code : Code) : Prop :=
  ∃ values : List String, values.length = d.fields.length ∧
    code = inputVariable v d ++
      (d.fields.zip values).flatMap fun (field, value) => inputLine v field value

/-- The call of the entry point with given arguments. -/
def callOf (v : Version) (m : Model) (stage : Stage) (f : Function) (args : List String) : String :=
  (dialect v).functionName m stage f ++ "(" ++ ", ".intercalate args ++ ")"

/-- A source ends with `main`, which calls the entry point behind the code for its input. -/
def CallsEntry (v : Version) (m : Model) (stage : Stage) (f : Function) (text : String)
    (input : Code) (args : List String) : Prop :=
  ∃ before lead after, text = (before ++ mainFunction
    (input ++ Code.line (lead ++ callOf v m stage f args ++ ";") ++ after)).text 0

variable {v : Version} {m : Model} {f : Function} {fixup : Option Fixup}

theorem fillsInput_attributeInputs (v : Version) (d : StructDef) :
    FillsInput v d (attributeInputs v d) := by
  refine ⟨d.fields.map fun field => (dialect v).identifier field.name, by simp, ?_⟩
  rw [attributeInputs]
  congr 1
  induction d.fields with
  | nil => rfl
  | cons field rest ih => simp [ih]

theorem varyingName_ne_fragCoord (location : Nat) : varyingName location ≠ "gl_FragCoord" := by
  intro h
  have hhead := congrArg (·.toList.head?) h
  simp [varyingName] at hhead

/-- The fields of a fragment stage's input are set one by one.  Those that hold a position
are set from the position of the pixel, and no others are. -/
theorem exists_fragmentInputs (v : Version) (location : Nat) (fields : List Field) :
    ∃ values : List String, values.length = fields.length ∧
      fragmentInputs v location fields =
        ((fields.zip values).flatMap fun (field, value) => inputLine v field value) ∧
      ∀ entry ∈ fields.zip values,
        entry.2 = "gl_FragCoord" ↔ entry.1.semantic = some .systemPosition := by
  induction fields generalizing location with
  | nil => exact ⟨[], rfl, rfl, by simp⟩
  | cons field rest ih =>
    rw [fragmentInputs]
    split
    · next hposition =>
      obtain ⟨values, hlength, hvalues, hpixel⟩ := ih location
      refine ⟨"gl_FragCoord" :: values, by simp [hlength], by simp [hvalues], ?_⟩
      exact List.forall_mem_cons.2 ⟨by simp [hposition], hpixel⟩
    · next hposition =>
      obtain ⟨values, hlength, hvalues, hpixel⟩ := ih (location + 1)
      refine ⟨varyingName location :: values, by simp [hlength], by simp [hvalues], ?_⟩
      exact List.forall_mem_cons.2
        ⟨iff_of_false (varyingName_ne_fragCoord location) hposition, hpixel⟩

theorem fillsInput_fragmentInputs (v : Version) (d : StructDef) :
    FillsInput v d (inputVariable v d ++ fragmentInputs v 0 d.fields) := by
  obtain ⟨values, hlength, hvalues, -⟩ := exists_fragmentInputs v 0 d.fields
  exact ⟨values, hlength, by rw [hvalues]⟩

/-- The outputs of a vertex stage start with the call. -/
theorem exists_vertexOutputs (v : Version) (output : Option StructDef) (call : String) :
    ∃ lead after, vertexOutputs v output call = Code.line (lead ++ call ++ ";") ++ after := by
  cases output with
  | none => exact ⟨"gl_Position = ", [], rfl⟩
  | some d => exact ⟨(dialect v).globalName d.name ++ " _stage_output = ", _, List.append_assoc ..⟩

/-- The outputs of a fragment stage start with the call. -/
theorem exists_fragmentOutputs (v : Version) (result : Ty) (output : Option StructDef)
    (call : String) : ∃ lead after,
      fragmentOutputs v result output call = Code.line (lead ++ call ++ ";") ++ after := by
  cases output with
  | none =>
    rw [fragmentOutputs]
    split
    · exact ⟨"", [], by simp⟩
    · exact ⟨targetName 0 ++ " = ", [], rfl⟩
  | some d => exact ⟨(dialect v).globalName d.name ++ " _stage_output = ", _, rfl⟩

theorem exists_call_of_vertexMain {fixup : Fixup} {c : Context} {main : Code}
    (h : vertexMain v fixup c f = .ok main) :
    ∃ input args before lead after, inputStruct c f = .ok input ∧
      f.params.mapM (argument v c) = .ok args ∧
      main = before ++ mainFunction (input.toList.flatMap (attributeInputs v) ++
        Code.line (lead ++ callOf v c.model c.stage f args ++ ";") ++ after) := by
  simp only [vertexMain, entryCall, bind_eq_ok, pure_eq_ok] at h
  obtain ⟨input, hinput, output, -, attributes, -, varyings, -, _, ⟨args, hargs, rfl⟩, rfl⟩ := h
  obtain ⟨lead, after, houtputs⟩ :=
    exists_vertexOutputs v output (callOf v c.model c.stage f args)
  refine ⟨input, args, attributes ++ varyings ++ Code.blank, lead, after ++ fixupLines fixup,
    hinput, hargs, ?_⟩
  rw [callOf] at houtputs
  rw [houtputs, callOf]
  simp only [List.append_assoc]

theorem exists_call_of_fragmentMain {c : Context} {main : Code}
    (h : fragmentMain v c f = .ok main) :
    ∃ input args before lead after, inputStruct c f = .ok input ∧
      f.params.mapM (argument v c) = .ok args ∧
      main = before ++ mainFunction
        ((input.toList.flatMap fun d => inputVariable v d ++ fragmentInputs v 0 d.fields) ++
          Code.line (lead ++ callOf v c.model c.stage f args ++ ";") ++ after) := by
  simp only [fragmentMain, entryCall, bind_eq_ok, pure_eq_ok] at h
  obtain ⟨input, hinput, output, -, varyings, -, targets, -, _, ⟨args, hargs, rfl⟩, rfl⟩ := h
  obtain ⟨lead, after, houtputs⟩ :=
    exists_fragmentOutputs v f.result output (callOf v c.model c.stage f args)
  refine ⟨input, args, varyings ++ targets ++ Code.blank, lead, after, hinput, hargs, ?_⟩
  rw [callOf] at houtputs
  rw [houtputs, callOf]
  simp only [List.append_assoc]

/-- The call in `main` stands behind the code for the struct that `Function.input?` finds. -/
theorem exists_callsEntry {stage : Stage} (hs : stage ≠ .compute) {text : String}
    (h : (language v fixup).generate m stage = .ok text) (hf : m.entryFunction? stage = some f) :
    ∃ input code args, inputStruct ⟨m, stage, none⟩ f = .ok input ∧
      f.params.mapM (argument v ⟨m, stage, none⟩) = .ok args ∧
      CallsEntry v m stage f text code args ∧ (input = none → code = []) ∧
      ∀ d, input = some d → FillsInput v d code := by
  obtain ⟨code, hcode, rfl⟩ := Language.generate_eq_ok.1 h
  obtain ⟨start, main, hmain, rfl⟩ := exists_append_main hcode hf
  cases stage with
  | vertex =>
    obtain ⟨input, args, before, lead, after, hinput, hargs, rfl⟩ := exists_call_of_vertexMain hmain
    refine ⟨input, input.toList.flatMap (attributeInputs v), args, hinput, hargs,
      ⟨start ++ before, lead, after, congrArg (Code.text 0) (List.append_assoc ..).symm⟩, ?_, ?_⟩
    · rintro rfl
      rfl
    · rintro d rfl
      simpa using fillsInput_attributeInputs v d
  | fragment =>
    obtain ⟨input, args, before, lead, after, hinput, hargs, rfl⟩ :=
      exists_call_of_fragmentMain hmain
    refine ⟨input, input.toList.flatMap fun d => inputVariable v d ++ fragmentInputs v 0 d.fields,
      args, hinput, hargs, ⟨start ++ before, lead, after, congrArg (Code.text 0) (List.append_assoc ..).symm⟩, ?_, ?_⟩
    · rintro rfl
      rfl
    · rintro d rfl
      simpa using fillsInput_fragmentInputs v d
  | compute => exact absurd rfl hs

/-- The builtins of GLSL are spelled in their own way. -/
theorem builtin?_ne_input (hv : v ∈ versions) (semantic : Semantic) :
    builtin? v semantic ≠ some "_stage_input" := by
  simp only [versions, List.mem_cons, List.not_mem_nil, or_false] at hv
  rcases hv with rfl | rfl | rfl <;> cases semantic <;> simp [builtin?, core330, es300, vulkan450]

/-- What `main` passes for a parameter is the stage's input if the parameter has no
builtin. -/
theorem argument_eq_input_iff (hv : v ∈ versions) {c : Context} {param : Parameter} {arg : String}
    (h : argument v c param = .ok arg) : arg = "_stage_input" ↔ param.builtin? = none := by
  rw [argument] at h
  split at h
  · next hnone =>
    cases h
    simp [hnone]
  · next semantic hsemantic =>
    simp only [hsemantic, reduceCtorEq, iff_false]
    rintro rfl
    split at h
    · cases h
    · next name hname =>
      split at h
      · have hhead := congrArg (fun text => text.toList.head?) (Except.ok.inj h)
        simp at hhead
      · cases h
        exact builtin?_ne_input hv semantic hname

/-- The call passes the stage's input if a parameter has no builtin. -/
theorem input_mem_args_iff (hv : v ∈ versions) {c : Context} {params : List Parameter}
    {args : List String} (h : params.mapM (argument v c) = .ok args) :
    "_stage_input" ∈ args ↔ ∃ param ∈ params, param.builtin? = none := by
  have hargs := mapM_eq_ok_iff.1 h
  constructor
  · intro hmem
    obtain ⟨param, hparam, harg⟩ := forall₂_of_mem_right hargs hmem
    exact ⟨param, hparam, (argument_eq_input_iff hv harg).1 rfl⟩
  · intro hparams
    obtain ⟨param, hparam, hnone⟩ := hparams
    obtain ⟨arg, harg, hmem⟩ := forall₂_of_mem_left hargs hparam
    exact (argument_eq_input_iff hv hmem).2 hnone ▸ harg

/-- The struct of the stage's input is that of the parameter that `Function.input?` finds. -/
theorem inputStruct_of_input? {c : Context} {input : Option StructDef}
    (h : inputStruct c f = .ok input) {param : Parameter} (hparam : f.input? = some param)
    {name : String} (hty : param.ty = .struct name) :
    ∃ d, c.model.struct? name = some d ∧ input = some d := by
  simp only [inputStruct, hparam, interfaceStruct, hty, Ty.structName?] at h
  split at h
  · cases h
  · next d hd =>
    cases h
    exact ⟨d, hd, rfl⟩

end Glsl

/-! ## Parameters -/

theorem eq_of_length_filter {α : Type} {q : α → Bool} {list : List α}
    (h : (list.filter q).length ≤ 1) {a b : α} (ha : a ∈ list) (hqa : q a = true) (hb : b ∈ list)
    (hqb : q b = true) : a = b := by
  have hamem := List.mem_filter.2 ⟨ha, hqa⟩
  have hbmem := List.mem_filter.2 ⟨hb, hqb⟩
  rcases hfilter : list.filter q with _ | ⟨x, _ | ⟨y, rest⟩⟩
  · simp [hfilter] at hamem
  · rw [hfilter, List.mem_singleton] at hamem hbmem
    rw [hamem, hbmem]
  · simp [hfilter] at h

theorem Ty.isSome_structName?_iff {ty : Ty} :
    ty.structName?.isSome = true ↔ ∃ name, ty = .struct name := by
  cases ty <;> simp [structName?]

/-- Of at most one struct parameter, `Function.input?` finds one without a semantic. -/
theorem Function.input?_eq_some_iff {f : Function}
    (h : (f.params.filter (·.ty.structName?.isSome)).length ≤ 1) {param : Parameter} :
    f.input? = some param ↔
      param ∈ f.params ∧ param.semantic = none ∧ ∃ name, param.ty = .struct name := by
  have hfound : ∀ p, f.input? = some p →
      p ∈ f.params ∧ p.semantic = none ∧ ∃ name, p.ty = .struct name := by
    intro p hp
    have hsome := List.find?_some hp
    rw [Bool.and_eq_true, Option.isNone_iff_eq_none, Ty.isSome_structName?_iff] at hsome
    exact ⟨List.mem_of_find?_eq_some hp, hsome⟩
  refine ⟨hfound param, fun hparam => ?_⟩
  obtain ⟨hmem, hnone, hstruct⟩ := hparam
  have hstruct' := Ty.isSome_structName?_iff.2 hstruct
  obtain ⟨p, hp⟩ : ∃ p, f.input? = some p := by
    rw [← Option.isSome_iff_exists, Function.input?, List.find?_isSome]
    exact ⟨param, hmem, by simp [hnone, hstruct']⟩
  obtain ⟨hpmem, -, hpstruct⟩ := hfound p hp
  rw [hp, eq_of_length_filter h hpmem (Ty.isSome_structName?_iff.2 hpstruct) hmem hstruct']

/-! ## Models -/

/-- The part that the struct plays which a stage reads. -/
def Role.read? : Stage → Option Role
  | .vertex => some .vertexInput
  | .fragment => some .fragmentInput
  | .compute => none

theorem Model.hasRole_read_iff {m : Model} {stage : Stage} {f : Function}
    (hf : m.entryFunction? stage = some f) {role : Role} (hr : Role.read? stage = some role)
    {name : String} : m.hasRole name role = true ↔ f.inputStruct? = some name := by
  cases stage with
  | compute => cases hr
  | _ =>
    cases hr
    simp [hasRole, hf]

/-- The checks, `Function.input?` and `main` agree on the parameter that holds what a
stage reads. -/
structure Model.AgreesOnInput (m : Model) (stage : Stage) (f : Function) : Prop where
  /-- The struct parameter is the one that `Function.input?` finds. -/
  input : ∀ param, f.input? = some param ↔ param ∈ f.params ∧ ∃ name, param.ty = .struct name
  /-- Its struct plays the part of the stage's input. -/
  role : ∀ param ∈ f.params, ∀ name, param.ty = .struct name →
    ∀ role, Role.read? stage = some role → m.hasRole name role = true
  /-- A call that passes the stage's input stands behind code that fills its struct. -/
  sources : ∀ v ∈ Glsl.versions, ∀ fixup text,
    (Glsl.language v fixup).generate m stage = .ok text →
    ∃ code args, f.params.mapM (Glsl.argument v ⟨m, stage, none⟩) = .ok args ∧
      Glsl.CallsEntry v m stage f text code args ∧
      ("_stage_input" ∈ args → ∃ param ∈ f.params, ∃ name d, param.ty = .struct name ∧
        m.struct? name = some d ∧ Glsl.FillsInput v d code)

/-- What a stage reads is a struct parameter without a semantic. -/
structure Model.ReadsInput (m : Model) (stage : Stage) (f : Function) : Prop where
  /-- At most one parameter is a struct. -/
  one : (f.params.filter (·.ty.structName?.isSome)).length ≤ 1
  /-- The checks take the parameters without a builtin for structs. -/
  checked : ∀ param ∈ f.params, param.builtin? = none ↔ ∃ name, param.ty = .struct name
  /-- All agree exactly when the struct parameter has no semantic. -/
  agrees_iff : m.AgreesOnInput stage f ↔
    ∀ param ∈ f.params, ∀ name, param.ty = .struct name → param.semantic = none
  /-- A struct parameter with a semantic is passed by `main`, and it is not found, plays no
  part, and is not declared. -/
  undeclared : ∀ param ∈ f.params, ∀ name, param.ty = .struct name → param.semantic ≠ none →
    f.input? = none ∧
    (∀ role, Role.read? stage = some role → ∀ other, m.hasRole other role = false) ∧
    ∀ v ∈ Glsl.versions, ∀ fixup text, (Glsl.language v fixup).generate m stage = .ok text →
      ∃ args, "_stage_input" ∈ args ∧ Glsl.CallsEntry v m stage f text [] args

section Stage

variable {m : Model} {stage : Stage} {f : Function} (hf : m.entryFunction? stage = some f)
  (hs : stage ≠ .compute)
  (hone : (f.params.filter (·.ty.structName?.isSome)).length ≤ 1)
  (hchecked : ∀ param ∈ f.params, param.builtin? = none ↔ ∃ name, param.ty = .struct name)

include hf hs hone hchecked

theorem Model.agreesOnInput_of_plain
    (hplain : ∀ param ∈ f.params, ∀ name, param.ty = .struct name → param.semantic = none) :
    m.AgreesOnInput stage f := by
  have hinput : ∀ param, f.input? = some param ↔
      param ∈ f.params ∧ ∃ name, param.ty = .struct name := by
    intro param
    rw [Function.input?_eq_some_iff hone]
    constructor
    · exact fun h => ⟨h.1, h.2.2⟩
    · rintro ⟨hmem, name, hty⟩
      exact ⟨hmem, hplain param hmem name hty, name, hty⟩
  refine ⟨hinput, fun param hparam name hty role hrole => ?_, fun v hv fixup text htext => ?_⟩
  · rw [Model.hasRole_read_iff hf hrole, Function.inputStruct?, (hinput param).2 ⟨hparam, name, hty⟩]
    simp [hty, Ty.structName?]
  · obtain ⟨input, code, args, hstruct, hargs, hcalls, -, hfills⟩ :=
      Glsl.exists_callsEntry hs htext hf
    refine ⟨code, args, hargs, hcalls, fun hmem => ?_⟩
    obtain ⟨param, hparam, hnone⟩ := (Glsl.input_mem_args_iff hv hargs).1 hmem
    obtain ⟨name, hty⟩ := (hchecked param hparam).1 hnone
    obtain ⟨d, hd, hsome⟩ :=
      Glsl.inputStruct_of_input? hstruct ((hinput param).2 ⟨hparam, name, hty⟩) hty
    exact ⟨param, hparam, name, d, hty, hd, hfills d hsome⟩

theorem Model.readsInput : m.ReadsInput stage f where
  one := hone
  checked := hchecked
  agrees_iff := by
    refine ⟨fun h param hparam name hty => ?_, m.agreesOnInput_of_plain hf hs hone hchecked⟩
    have hfound := (h.input param).2 ⟨hparam, name, hty⟩
    exact ((Function.input?_eq_some_iff hone).1 hfound).2.1
  undeclared := by
    intro param hparam name hty hsemantic
    have hnone : f.input? = none := by
      rw [Option.eq_none_iff_forall_ne_some]
      intro other hother
      obtain ⟨hmem, hplain, hstruct⟩ := (Function.input?_eq_some_iff hone).1 hother
      have hsame := eq_of_length_filter hone hparam (Ty.isSome_structName?_iff.2 ⟨name, hty⟩) hmem
        (Ty.isSome_structName?_iff.2 hstruct)
      exact hsemantic (hsame ▸ hplain)
    refine ⟨hnone, fun role hrole other => ?_, fun v hv fixup text htext => ?_⟩
    · rw [Bool.eq_false_iff, ne_eq, Model.hasRole_read_iff hf hrole, Function.inputStruct?, hnone]
      simp
    · obtain ⟨input, code, args, hstruct, hargs, hcalls, hcode, -⟩ :=
        Glsl.exists_callsEntry hs htext hf
      simp only [Glsl.inputStruct, hnone, Except.ok.injEq] at hstruct
      obtain rfl := hcode hstruct.symm
      exact ⟨args, (Glsl.input_mem_args_iff hv hargs).2 ⟨param, hparam, (hchecked param hparam).2
        ⟨name, hty⟩⟩, hcalls⟩

end Stage

namespace Program

variable {p : Program} {set : EntrySet} {m : Model}

/-- What the vertex and the fragment stage of a model that was built read. -/
theorem readsInput_of_build (h : p.build set = .ok m) {stage : Stage} {entry : String}
    (he : set.entryName? stage = some entry) (hs : stage ≠ .compute) :
    ∃ f, m.entryFunction? stage = some f ∧ f.qualifiedName = entry ∧ m.ReadsInput stage f := by
  obtain ⟨_, _, hbuilt⟩ := builtFrom_of_build h
  obtain ⟨f, hentry, hf, -, hhas⟩ := hbuilt.entryFunction he
  obtain ⟨warnings, hcheck⟩ := hbuilt.entry_checked he hf
  refine ⟨f, hentry, hhas.qualifiedName_eq, m.readsInput hentry hs ?_ ?_⟩
  · exact Signature.Entry.length_structs hcheck
  · exact fun param => Signature.Entry.builtin?_eq_none_iff hcheck

theorem readsInput_sample : ∃ m, sample.build sampleSet = .ok m ∧
    sampleSet.entryName? .vertex = some "Demo.VS" ∧ Stage.vertex ≠ .compute ∧
    ∃ f, m.entryFunction? .vertex = some f ∧ f.qualifiedName = "Demo.VS" ∧
      m.ReadsInput .vertex f := by
  have h : sample.build sampleSet = .ok _ := rfl
  exact ⟨_, h, rfl, nofun, readsInput_of_build h rfl nofun⟩

/-- A vertex stage whose struct parameter has a semantic. -/
def marked : Program where
  structs := [⟨"Demo.Vertex", [⟨"Position", .vector .float 4, none⟩]⟩]
  resources := []
  functions := [{
    name := "Demo.VS"
    metadata := ⟨some .vertex, none⟩
    params := [⟨"input", .named "Demo.Vertex", .input, some .position⟩]
    result := .vector .float 4
    body := [.ret (some (.member (.var "input" (some (.named "Demo.Vertex"))) "Position" none))] }]
  shaderSets := []

def markedSet : EntrySet := ⟨some "Demo.VS", none, none⟩

/-- The checks take the parameter for what the stage reads.  No other test does, and `main`
passes a variable that it does not declare. -/
theorem marked_input_undeclared : ∃ m f code, marked.build markedSet = .ok m ∧
    m.entryFunction? .vertex = some f ∧ f.params.map (·.ty) = [.struct "Demo.Vertex"] ∧
    f.input? = none ∧ m.hasRole "Demo.Vertex" .vertexInput = false ∧
    (Glsl.language Glsl.core330 none).code m .vertex = .ok code ∧
    .line "gl_Position = VS(_stage_input);" ∈ code ∧
    .line "Demo_Vertex _stage_input;" ∉ code ∧ ¬ m.AgreesOnInput .vertex f := by
  have h : marked.build markedSet = .ok _ := rfl
  refine ⟨_, _, _, h, rfl, rfl, rfl, rfl, rfl, by decide, by decide, fun hagrees => ?_⟩
  exact absurd ((hagrees.input _).2 ⟨.head _, "Demo.Vertex", rfl⟩) nofun

end Program

end Shading
