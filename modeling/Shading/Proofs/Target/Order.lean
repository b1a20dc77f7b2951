import Shading.Proofs.Target.Pieces

/-!
# Sources in order

The source of a stage in HLSL and GLSL is a header and a piece of code for each
definition of the stage (`Language.WritesInOrder.exists_pieces`).  Each definition stands once
and behind all it uses (`items_beforeUse`), so the source does not need a name before it
defines it.  In GLSL this includes `main`, which stands last, behind the entry point that
it calls (`items_main_beforeUse`).
-/

namespace Shading

/-! ## Definitions of a stage -/

namespace Item

/-- What a definition is referred to by. -/
inductive Key where
  | struct (name : String)
  | resource (name : String)
  | function (name : String)
  | main
deriving DecidableEq

/-- What a definition defines. -/
def key : Item → Key
  | .struct d => .struct d.name
  | .resource b => .resource b.name
  | .function f => .function f.qualifiedName
  | .main _ _ => .main

/-- What a definition refers to. -/
inductive Uses : Item → Key → Prop where
  | field {d : StructDef} {name : String} : d.Mentions name → Uses (.struct d) (.struct name)
  | element {b : Binding} {element : Ty} {name : String} : b.ty.element = some element →
      element.Mentions name → Uses (.resource b) (.struct name)
  | type {f : Function} {name : String} : f.Mentions name → Uses (.function f) (.struct name)
  | resource {f : Function} {name : String} {ty : Ty} :
      (Core.Expr.resource name ty).OccursIn f.body → Uses (.function f) (.resource name)
  | call {f : Function} {name : String} : f.Calls name → Uses (.function f) (.function name)
  /-- `main` calls the entry point. -/
  | entry {f : Function} {structs : List StructDef} :
      Uses (.main f structs) (.function f.qualifiedName)
  /-- Variables of `main` are structs that the entry point takes and returns. -/
  | passed {f : Function} {structs : List StructDef} {d : StructDef} : d ∈ structs →
      Uses (.main f structs) (.struct d.name)
  /-- The variables of the stage have the types of their fields. -/
  | port {f : Function} {structs : List StructDef} {d : StructDef} {name : String} : d ∈ structs →
      d.Mentions name → Uses (.main f structs) (.struct name)

end Item

namespace Program.BuiltFrom

variable {p : Program} {set : EntrySet} {m : Model} {reached : Expanded Function}
  {uses : List StageUse}

/-- Every definition of a stage stands once. -/
theorem nodup_items (h : BuiltFrom p set m reached uses) (stage : Stage) :
    ((m.items stage).map Item.key).Nodup := by
  have hkeys : (m.items stage).map Item.key =
      ((m.structsFor stage).map (·.name)).map .struct ++
        ((m.resourcesFor stage).map (·.name)).map .resource ++
        ((m.functionsFor stage).map (·.qualifiedName)).map .function := by
    simp only [Model.items, List.map_append, List.map_map]
    rfl
  rw [hkeys, List.nodup_append, List.nodup_append]
  refine ⟨⟨?_, ?_, ?_⟩, ?_, ?_⟩
  · exact (h.structsFor_beforeUse stage).once.map fun _ _ => Item.Key.struct.inj
  · exact (h.nodup_names_resourcesFor stage).map fun _ _ => Item.Key.resource.inj
  · simp
  · exact (h.functionsFor_beforeUse stage).once.map fun _ _ => Item.Key.function.inj
  · simp only [List.mem_append, List.mem_map]
    rintro _ (⟨_, _, rfl⟩ | ⟨_, _, rfl⟩) _ ⟨_, _, rfl⟩ <;> simp

section Entry

variable {stage : Stage} {entry : String}

/-- The structs that a stage needs are defined. -/
theorem key_struct_mem (h : BuiltFrom p set m reached uses)
    (he : set.entryName? stage = some entry) {name : String} (hn : p.Needs entry name) :
    .struct name ∈ ((m.structsFor stage).map Item.struct).map Item.key := by
  obtain ⟨d, hd, rfl⟩ := List.mem_map.1 ((h.mem_names_structsFor_iff he).2 (.seed hn))
  exact List.mem_map.2 ⟨.struct d, List.mem_map_of_mem hd, rfl⟩

/-- The resources that a stage refers to are defined. -/
theorem key_resource_mem (h : BuiltFrom p set m reached uses)
    (he : set.entryName? stage = some entry) {name : String} (hr : p.Refers entry name) :
    .resource name ∈ ((m.resourcesFor stage).map Item.resource).map Item.key := by
  obtain ⟨b, hb, rfl⟩ := List.mem_map.1 ((h.mem_names_resourcesFor_iff he).2 hr)
  exact List.mem_map.2 ⟨.resource b, List.mem_map_of_mem hb, rfl⟩

/-- The definitions of a stage stand behind all they use. -/
theorem items_beforeUse (h : BuiltFrom p set m reached uses)
    (he : set.entryName? stage = some entry) :
    DefinedBeforeUse Item.key Item.Uses (m.items stage) := by
  have honce := h.nodup_items stage
  have hstructs : DefinedBeforeUse Item.key Item.Uses ((m.structsFor stage).map .struct) := by
    refine (h.structsFor_beforeUse stage).map (fun _ _ => Item.Key.struct.inj) (fun _ => rfl) ?_
    intro d key huse
    cases huse with
    | field hm => exact ⟨_, rfl, hm⟩
  have hresources : DefinedBeforeUse Item.key Item.Uses
      ((m.structsFor stage).map .struct ++ (m.resourcesFor stage).map .resource) := by
    refine hstructs.append (honce.sublist ((List.sublist_append_left _ _).map _)) ?_
    intro before item after heq key huse
    rw [List.map_append]
    refine List.mem_append_left _ ?_
    obtain ⟨b, hb, rfl⟩ :=
      List.mem_map.1 (heq ▸ by simp : item ∈ (m.resourcesFor stage).map .resource)
    cases huse with
    | element hel hm =>
      have href := (h.mem_names_resourcesFor_iff he).1 (List.mem_map_of_mem hb)
      have hres := h.model_exact.hasResource b (List.mem_filter.1 hb).1
      exact h.key_struct_mem he (.element href hres hel hm)
  refine hresources.append honce ?_
  intro before item after heq key huse
  obtain ⟨front, back, hsplit, rfl, hback⟩ := List.map_eq_append_iff.1 heq
  obtain ⟨f, rest, rfl, rfl, rfl⟩ := List.map_eq_cons_iff.1 hback
  have hruns := (h.mem_functionsFor_iff he).1 (hsplit ▸ by simp : f ∈ m.functionsFor stage)
  simp only [List.map_append, List.mem_append]
  cases huse with
  | type hm => exact .inl (.inl (h.key_struct_mem he (.function hruns hm)))
  | resource hoccurs => exact .inl (.inr (h.key_resource_mem he ⟨f, hruns, _, hoccurs⟩))
  | call hcall =>
    obtain ⟨g, hg, rfl⟩ :=
      List.mem_map.1 ((h.functionsFor_beforeUse stage).behind _ _ _ hsplit _ hcall)
    exact .inr (List.mem_map.2 ⟨.function g, List.mem_map_of_mem hg, rfl⟩)

/-- The structs of an interface are in the model, and the entry point mentions them. -/
theorem mentions_of_interface {f : Function} {d : StructDef}
    (hd : d ∈ (m.input? f).toList ++ (m.output? f).toList) :
    d ∈ m.structs ∧ f.Mentions d.name := by
  have hstruct : ∀ {ty : Ty} {name : String}, ty.structName? = some name → ty = .struct name := by
    intro ty name h
    cases ty <;> simp_all [Ty.structName?]
  rw [List.mem_append, Option.mem_toList, Option.mem_toList] at hd
  rcases hd with hd | hd
  · obtain ⟨name, hinput, hfind⟩ := Option.bind_eq_some_iff.1 hd
    obtain ⟨param, hparam, hname⟩ := Option.bind_eq_some_iff.1 hinput
    obtain rfl : d.name = name := by simpa using List.find?_some hfind
    have hmentions : param.ty.Mentions d.name := hstruct hname ▸ .struct
    exact ⟨List.mem_of_find?_eq_some hfind, .param (List.mem_of_find?_eq_some hparam) hmentions⟩
  · obtain ⟨name, hresult, hfind⟩ := Option.bind_eq_some_iff.1 hd
    obtain rfl : d.name = name := by simpa using List.find?_some hfind
    have hmentions : f.result.Mentions d.name := hstruct hresult ▸ .struct
    exact ⟨List.mem_of_find?_eq_some hfind, .result hmentions⟩

/-- The structs of the interface of what runs in a stage are defined in the stage. -/
theorem mem_structsFor_of_interface (h : BuiltFrom p set m reached uses)
    (he : set.entryName? stage = some entry) {f : Function} (hruns : p.Runs entry f)
    {d : StructDef} (hd : d ∈ (m.input? f).toList ++ (m.output? f).toList) :
    d ∈ m.structsFor stage := by
  obtain ⟨hmem, hmentions⟩ := mentions_of_interface hd
  obtain ⟨other, hother, hname⟩ := List.mem_map.1
    ((h.mem_names_structsFor_iff he).2 (.seed (.function hruns hmentions)))
  exact List.mem_filter.2 ⟨hmem, hname ▸ (List.mem_filter.1 hother).2⟩

/-- In GLSL, `main` stands behind the definitions of a stage and uses some of them. -/
theorem items_main_beforeUse (h : BuiltFrom p set m reached uses)
    (he : set.entryName? stage = some entry) {f : Function}
    (hf : m.entryFunction? stage = some f) :
    DefinedBeforeUse Item.key Item.Uses (m.items stage ++ [m.mainItem f]) := by
  have hitems := h.items_beforeUse he
  have hruns : p.Runs entry f := by
    obtain ⟨g, hg, -, -, hhas⟩ := h.entryFunction he
    obtain rfl : g = f := Option.some.inj (hg.symm.trans hf)
    exact ⟨entry, .seed rfl, hhas⟩
  have hfunction : f ∈ m.functionsFor stage := (h.mem_functionsFor_iff he).2 hruns
  have hnew : Item.Key.main ∉ (m.items stage).map Item.key := by
    simp [Model.items, Item.key]
  refine hitems.append ?_ ?_
  · rw [List.map_append, List.nodup_append]
    refine ⟨hitems.once, List.nodup_singleton _, fun key hkey other hother => ?_⟩
    obtain rfl : other = .main := List.mem_singleton.1 hother
    exact fun heq => hnew (heq ▸ hkey)
  · intro before item after heq key huse
    obtain ⟨rfl, hitem, -⟩ : before = [] ∧ item = m.mainItem f ∧ after = [] := by
      cases before <;> simp_all
    rw [List.append_nil]
    rw [hitem] at huse
    have hstruct : ∀ d ∈ m.structsFor stage,
        Item.Key.struct d.name ∈ (m.items stage).map Item.key := fun d hd =>
      List.mem_map.2 ⟨.struct d, by simp [Model.items, hd], rfl⟩
    cases huse with
    | entry => exact List.mem_map.2 ⟨.function f, by simp [Model.items, hfunction], rfl⟩
    | passed hd => exact hstruct _ (h.mem_structsFor_of_interface he hruns hd)
    | port hd hmentions =>
      have hmem := h.mem_structsFor_of_interface he hruns hd
      obtain ⟨inner, hinner, rfl⟩ :=
        List.mem_map.1 ((h.structsFor_beforeUse stage).mem_of_uses hmem hmentions)
      exact hstruct inner hinner

end Entry

end Program.BuiltFrom

/-! ## Models in order -/

/-- Code is a header and a piece for each of some definitions, and each definition stands
once and behind all it uses. -/
structure DefinesInOrder (Writes : Item → Code → Prop) (header : Code) (items : List Item)
    (code : Code) : Prop where
  pieces : ∃ pieces, List.Forall₂ Writes items pieces ∧ code = header ++ pieces.flatten
  order : DefinedBeforeUse Item.key Item.Uses items

/-- A model lists its declarations behind what they refer to. -/
structure Model.InOrder (p : Program) (m : Model) : Prop where
  /-- The functions of a stage stand behind those they call. -/
  functions : ∀ stage, DefinedBeforeUse (·.qualifiedName) Function.Calls (m.functionsFor stage)
  /-- The entry point of a stage is called by none of them and stands last. -/
  entry : ∀ stage name, m.entryPoints.entryName? stage = some name →
    ∃ helpers f, m.entryFunction? stage = some f ∧ f.qualifiedName = name ∧
      m.functionsFor stage = helpers ++ [f] ∧ ∀ g ∈ m.functionsFor stage, ¬ g.Calls name
  /-- The structs of a stage stand behind those their fields mention. -/
  structs : ∀ stage, DefinedBeforeUse (·.name) StructDef.Mentions (m.structsFor stage)
  /-- No struct contains itself, directly or through other structs and arrays. -/
  acyclic : ∀ d ∈ m.structs, ¬ Relation.TransGen p.Embeds d.name d.name
  /-- Structs that are declared in order keep their order. -/
  declared : p.DeclaresInOrder m → m.structs.map (·.name) =
    ((p.structs.map (·.name)).filter fun name => name ∈ m.structs.map (·.name)).eraseDups
  /-- A source in HLSL defines each struct and function once and before its uses. -/
  hlsl : ∀ stage text, Hlsl.language.generate m stage = .ok text →
    ∃ code, Hlsl.language.code m stage = .ok code ∧ text = code.text 0 ∧
      DefinesInOrder (Hlsl.Writes ⟨m, stage, none⟩) Hlsl.header (m.items stage) code
  /-- A source in GLSL does, too, and `main` stands behind the entry point. -/
  glsl : ∀ v ∈ Glsl.versions, ∀ fixup stage text,
    (Glsl.language v fixup).generate m stage = .ok text →
    ∃ f code, m.entryFunction? stage = some f ∧
      (Glsl.language v fixup).code m stage = .ok code ∧ text = code.text 0 ∧
      DefinesInOrder (Glsl.Writes v (fixup.getD v.defaultFixup) ⟨m, stage, none⟩)
        (Glsl.header v ⟨m, stage, none⟩) (m.items stage ++ [m.mainItem f]) code

namespace Program

variable {p : Program} {set : EntrySet} {m : Model}

/-- A stage that is written has an entry point. -/
theorem BuiltFrom.exists_entryName {reached : Expanded Function} {uses : List StageUse}
    (h : BuiltFrom p set m reached uses) {l : Language} {stage : Stage} {code : Code}
    (hcode : l.code m stage = .ok code) : ∃ entry, set.entryName? stage = some entry := by
  rw [← Option.isSome_iff_exists, ← h.entryPoints]
  simp only [Language.code, Model.entryFunction?] at hcode
  cases he : m.entryPoints.entryName? stage with
  | none => simp [he] at hcode
  | some entry => rfl

theorem BuiltFrom.definesInOrder_hlsl {reached : Expanded Function} {uses : List StageUse}
    (h : BuiltFrom p set m reached uses) {stage : Stage} {code : Code}
    (hcode : Hlsl.language.code m stage = .ok code) :
    DefinesInOrder (Hlsl.Writes ⟨m, stage, none⟩) Hlsl.header (m.items stage) code := by
  obtain ⟨entry, he⟩ := h.exists_entryName hcode
  obtain ⟨f, hf, -⟩ := h.entryFunction he
  obtain ⟨pieces, hpieces, rfl⟩ := Hlsl.writesInOrder.exists_pieces (h.endsWith he hf) hcode
  rw [List.append_nil] at hpieces
  exact ⟨⟨pieces, hpieces, rfl⟩, h.items_beforeUse he⟩

theorem BuiltFrom.definesInOrder_glsl {reached : Expanded Function} {uses : List StageUse}
    (h : BuiltFrom p set m reached uses) {v : Glsl.Version} (hv : v ∈ Glsl.versions)
    {fixup : Option Fixup} {stage : Stage} {code : Code}
    (hcode : (Glsl.language v fixup).code m stage = .ok code) :
    ∃ f, m.entryFunction? stage = some f ∧
      DefinesInOrder (Glsl.Writes v (fixup.getD v.defaultFixup) ⟨m, stage, none⟩)
        (Glsl.header v ⟨m, stage, none⟩) (m.items stage ++ [m.mainItem f]) code := by
  obtain ⟨entry, he⟩ := h.exists_entryName hcode
  obtain ⟨f, hf, -⟩ := h.entryFunction he
  obtain ⟨pieces, hpieces, rfl⟩ :=
    (Glsl.writesInOrder hv fixup).exists_pieces (h.endsWith he hf) hcode
  exact ⟨f, hf, ⟨pieces, hpieces, rfl⟩, h.items_main_beforeUse he hf⟩

/-- The declarations of a model that was built stand behind what they refer to. -/
theorem inOrder_of_build (h : p.build set = .ok m) : m.InOrder p := by
  obtain ⟨_, _, hbuilt⟩ := builtFrom_of_build h
  refine {
    functions := hbuilt.functionsFor_beforeUse
    entry := fun stage name he => ?_
    structs := hbuilt.structsFor_beforeUse
    acyclic := fun d hd => hbuilt.not_transGen_embeds hd
    declared := hbuilt.names_of_declaresInOrder
    hlsl := fun stage text htext => ?_
    glsl := fun v hv fixup stage text htext => ?_ }
  · rw [hbuilt.entryPoints] at he
    obtain ⟨helpers, f, hentry, rfl, hfunctions⟩ := hbuilt.functionsFor_eq he
    have hordered := hbuilt.functionsFor_beforeUse stage
    refine ⟨helpers, f, hentry, rfl, hfunctions, fun g hg => ?_⟩
    rw [hfunctions] at hordered hg
    exact hordered.not_uses_last hg
  · obtain ⟨code, hcode, rfl⟩ := Language.generate_eq_ok.1 htext
    exact ⟨code, hcode, rfl, hbuilt.definesInOrder_hlsl hcode⟩
  · obtain ⟨code, hcode, rfl⟩ := Language.generate_eq_ok.1 htext
    obtain ⟨f, hf, hdefines⟩ := hbuilt.definesInOrder_glsl hv hcode
    exact ⟨f, code, hf, hcode, rfl, hdefines⟩

theorem inOrder_sample : ∃ m, sample.build sampleSet = .ok m ∧ m.InOrder sample := by
  have h : sample.build sampleSet = .ok _ := rfl
  exact ⟨_, h, inOrder_of_build h⟩

end Program

end Shading
