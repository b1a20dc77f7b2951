import Shading.Proofs.Target.Language
import Shading.Target.Glsl

/-!
# GLSL sources

A version of GLSL may have no declaration for a kind of resource
(`Version.declares`).  A writable stage has a source exactly when all its resources
can be declared (`exists_source`), and otherwise the error names the first that
cannot (`generate_eq_error`).
-/

namespace Shading.Glsl

variable {p : Program} {v : Version} {c : Context} {f : Function}

/-- The versions of GLSL that sources are written in. -/
def versions : List Version := [core330, es300, vulkan450]

/-! ## The dialect -/

theorem exists_typeName {ty : Ty} (h : ty.Plain p) : ∃ text, typeName v ty = .ok text := by
  induction h with
  | array _ _ _ _ ih =>
    obtain ⟨text, ht⟩ := ih
    simp [typeName, ht]
  | _ => exact ⟨_, rfl⟩

theorem exists_declaration {ty : Ty} (h : ty.Plain p) (name : String) :
    ∃ text, (dialect v).declaration ty name = .ok text :=
  Dialect.exists_declaration (fun _ => exists_typeName) h name

/-- GLSL spells every plain type and every intrinsic. -/
theorem total_dialect : (dialect v).Total p where
  typeName _ := exists_typeName
  parameter _ hp := Dialect.exists_parameterText (fun _ => exists_typeName) reserved hp
  intrinsic := by
    refine Dialect.spells_intrinsics (fun _ _ _ => rfl) (fun _ _ _ _ => rfl)
      (fun _ _ _ => rfl) fun i args hi hl => ?_
    cases i with
    | saturate =>
      obtain ⟨x, rest, rfl⟩ := List.exists_cons_of_length_eq_add_one hl
      exact .inl rfl
    | _ => first | exact .inl rfl | exact .inr rfl | cases hi

/-! ## Declarations -/

theorem exists_struct (h : c.model.Writable p c.stage f) {d : StructDef}
    (hd : d ∈ c.model.structsFor c.stage) : ∃ code, struct v d = .ok code := by
  obtain ⟨fields, hfields⟩ : ∃ code, Language.collect (fieldLine v) d.fields = .ok code := by
    refine Language.exists_collect fun field hfield => ?_
    obtain ⟨text, ht⟩ := exists_declaration (v := v) (h.plain_field hd hfield)
      ((dialect v).identifier field.name)
    simp [fieldLine, ht]
  simp [struct, hfields]

/-- Whether a version declares resources of a kind in a stage. -/
def Version.declares (v : Version) (stage : Stage) : ResourceKind → Bool
  | .uniformBuffer => true
  | .structuredBuffer => v.storageBuffers stage
  | .sampler => .separateSamplers ∉ v.capabilities || (v.textureName? .sampler).isSome
  | kind => (v.textureName? kind).isSome

theorem exists_resource {b : Binding} (h : p.Declares b.ty)
    (hd : v.declares c.stage b.ty.kind = true) : ∃ code, resource v c b = .ok code := by
  obtain ⟨name, ty, slot⟩ := b
  cases h with
  | @plain kind hk =>
    cases kind
    case uniformBuffer => cases hk
    case structuredBuffer => cases hk
    case sampler =>
      simp only [Version.declares, Bool.or_eq_true, decide_eq_true_eq] at hd
      by_cases hs : .separateSamplers ∈ v.capabilities
      · obtain ⟨text, ht⟩ := Option.isSome_iff_exists.1 (hd.resolve_left (not_not.2 hs))
        simp [resource, ResourceTy.toTy, typeName, ResourceKind.isBuffer, resourceName, hs, ht]
      · simp [resource, hs]
    all_goals
      obtain ⟨text, ht⟩ := Option.isSome_iff_exists.1 hd
      simp [resource, ResourceTy.toTy, typeName, ResourceKind.isBuffer, resourceName, ht]
  | @buffer kind element access hk hp =>
    obtain ⟨text, ht⟩ := exists_typeName (v := v) hp
    cases kind
    case uniformBuffer =>
      simp [resource, ResourceTy.toTy, Dialect.declaration, declarationText, dialect, typeName,
        ResourceKind.isBuffer, ht]
    case structuredBuffer =>
      simp only [Version.declares] at hd
      simp [resource, ResourceTy.toTy, typeName, ResourceKind.isBuffer, ht, hd]
    all_goals cases hk

/-- A resource that cannot be declared is refused with its type. -/
theorem resource_eq_error {b : Binding} (h : p.Declares b.ty)
    (hd : v.declares c.stage b.ty.kind = false) :
    resource v c b = .error (.unsupportedType v.target b.ty.toTy) := by
  obtain ⟨name, ty, slot⟩ := b
  cases h with
  | @plain kind hk =>
    cases kind
    case uniformBuffer => cases hk
    case structuredBuffer => cases hk
    case sampler =>
      simp only [Version.declares, Bool.or_eq_false_iff, decide_eq_false_iff_not, not_not,
        Option.isSome_eq_false_iff, Option.isNone_iff_eq_none] at hd
      simp [resource, ResourceTy.toTy, typeName, ResourceKind.isBuffer, resourceName, hd.1, hd.2,
        bind, Except.bind]
    all_goals
      simp only [Version.declares, Option.isSome_eq_false_iff, Option.isNone_iff_eq_none] at hd
      simp [resource, ResourceTy.toTy, typeName, ResourceKind.isBuffer, resourceName, hd, bind,
        Except.bind]
  | @buffer kind element access hk hp =>
    cases kind
    case uniformBuffer => cases hd
    case structuredBuffer =>
      simp only [Version.declares] at hd
      simp [resource, hd]
    all_goals cases hk

/-! ## Stage wiring -/

/-- The struct that a type of the signature names is in the model. -/
theorem exists_interfaceStruct (h : c.model.Writable p c.stage f) {ty : Ty}
    (hty : ∀ name, ty.Mentions name → f.Mentions name) :
    ∃ d : Option StructDef, interfaceStruct c ty = .ok d ∧
      ∀ s ∈ d.toList, ∀ field ∈ s.fields, field.ty.Plain p := by
  rw [interfaceStruct]
  cases ty with
  | struct name =>
    obtain ⟨d, hd, hfind⟩ := h.interface name (hty name .struct)
    refine ⟨some d, by simp [Ty.structName?, hfind], fun s hs => ?_⟩
    cases Option.mem_toList.1 hs
    exact h.fields d hd
  | _ => exact ⟨none, rfl, by simp⟩

theorem exists_inputStruct (h : c.model.Writable p c.stage f) :
    ∃ d : Option StructDef, inputStruct c f = .ok d ∧
      ∀ s ∈ d.toList, ∀ field ∈ s.fields, field.ty.Plain p := by
  rw [inputStruct]
  cases hf : f.input? with
  | none => exact ⟨none, rfl, by simp⟩
  | some param =>
    exact exists_interfaceStruct h fun name hm => .param (List.mem_of_find?_eq_some hf) hm

theorem exists_argument (hv : v ∈ versions) {param : Parameter}
    (hp : ∀ semantic, param.builtin? = some semantic → semantic.builtinStage? = some c.stage) :
    ∃ text, argument v c param = .ok text := by
  rw [argument]
  split
  · exact ⟨_, rfl⟩
  · next semantic hsemantic =>
    obtain ⟨name, hname⟩ : ∃ name, builtin? v semantic = some name := by
      have hstage := hp semantic hsemantic
      simp only [versions, List.mem_cons, List.not_mem_nil, or_false] at hv
      cases semantic <;> first | cases hstage | (rcases hv with rfl | rfl | rfl <;> exact ⟨_, rfl⟩)
    rw [hname]
    dsimp only
    split <;> exact ⟨_, rfl⟩

theorem exists_entryCall (hv : v ∈ versions) (h : c.model.Writable p c.stage f) :
    ∃ text, entryCall v c f = .ok text := by
  obtain ⟨args, hargs⟩ := exists_mapM_ok fun param hparam =>
    exists_argument (c := c) hv (h.builtins param hparam)
  simp [entryCall, hargs]

theorem exists_varyingLines {d : StructDef} (hd : ∀ field ∈ d.fields, field.ty.Plain p)
    (direction : String) : ∃ code, varyingLines v direction d = .ok code := by
  refine Language.exists_collect ?_
  intro entry hmem
  obtain ⟨field, location⟩ := entry
  have hfield := (List.mem_filter.1 (List.fst_mem_of_mem_zipIdx hmem)).1
  obtain ⟨text, ht⟩ := exists_declaration (v := v) (hd field hfield) (varyingName location)
  simp [varyingLine, ht]

theorem exists_attributeLines {d : StructDef} (hd : ∀ field ∈ d.fields, field.ty.Plain p) :
    ∃ code, attributeLines v d = .ok code := by
  refine Language.exists_collect ?_
  intro entry hmem
  obtain ⟨field, location⟩ := entry
  obtain ⟨text, ht⟩ := exists_declaration (v := v) (hd field (List.fst_mem_of_mem_zipIdx hmem))
    ((dialect v).identifier field.name)
  simp [attributeLine, ht]

theorem exists_targetLines {output : Option StructDef} (result : Ty)
    (hd : ∀ s ∈ output.toList, ∀ field ∈ s.fields, field.ty.Plain p) :
    ∃ code, targetLines v result output = .ok code := by
  cases output with
  | none =>
    simp only [targetLines]
    split <;> exact ⟨_, rfl⟩
  | some d =>
    refine Language.exists_collect ?_
    intro entry hmem
    obtain ⟨field, index⟩ := entry
    obtain ⟨g, hg, hindex⟩ := List.mem_filterMap.1 hmem
    obtain ⟨n, -, heq⟩ := Option.map_eq_some_iff.1 hindex
    cases heq
    obtain ⟨text, ht⟩ := exists_declaration (v := v) (hd d (by simp) field hg) (targetName index)
    simp [targetLine, ht]

theorem exists_vertexMain (hv : v ∈ versions) (h : c.model.Writable p c.stage f) (fixup : Fixup) :
    ∃ code, vertexMain v fixup c f = .ok code := by
  obtain ⟨input, hinput, hin⟩ := exists_inputStruct h
  obtain ⟨output, houtput, hout⟩ := exists_interfaceStruct h fun _ hm => .result hm
  obtain ⟨attributes, hattributes⟩ := Language.exists_collect fun d hd =>
    exists_attributeLines (v := v) (hin d hd)
  obtain ⟨varyings, hvaryings⟩ := Language.exists_collect fun d hd =>
    exists_varyingLines (v := v) (hout d hd) "out"
  obtain ⟨call, hcall⟩ := exists_entryCall hv h
  simp [vertexMain, hinput, houtput, hattributes, hvaryings, hcall]

theorem exists_fragmentMain (hv : v ∈ versions) (h : c.model.Writable p c.stage f) :
    ∃ code, fragmentMain v c f = .ok code := by
  obtain ⟨input, hinput, hin⟩ := exists_inputStruct h
  obtain ⟨output, houtput, hout⟩ := exists_interfaceStruct h fun _ hm => .result hm
  obtain ⟨varyings, hvaryings⟩ := Language.exists_collect fun d hd =>
    exists_varyingLines (v := v) (hin d hd) "in"
  obtain ⟨targets, htargets⟩ := exists_targetLines (v := v) f.result hout
  obtain ⟨call, hcall⟩ := exists_entryCall hv h
  simp [fragmentMain, hinput, houtput, hvaryings, htargets, hcall]

theorem exists_entry (hv : v ∈ versions) (h : c.model.Writable p c.stage f) (fixup : Fixup) :
    ∃ code, entry v fixup c f = .ok code := by
  obtain ⟨function, hfunction⟩ := h.exists_function (total_dialect (v := v)) h.entry_mem
  rw [entry]
  rw [bind_of_ok hfunction]
  cases hstage : c.stage with
  | vertex =>
    obtain ⟨main, hmain⟩ := exists_vertexMain hv h fixup
    simp [hmain]
  | fragment =>
    obtain ⟨main, hmain⟩ := exists_fragmentMain hv h
    simp [hmain]
  | compute =>
    obtain ⟨call, hcall⟩ := exists_entryCall hv h
    simp [computeMain, hcall]

/-! ## Sources -/

section Source

variable {m : Model} {stage : Stage}

/-- A writable stage has a source when its resources can be declared. -/
theorem exists_source (hv : v ∈ versions) (h : m.Writable p stage f) (fixup : Option Fixup)
    (hd : ∀ b ∈ m.resourcesFor stage, v.declares stage b.ty.kind = true) :
    ∃ text, (language v fixup).generate m stage = .ok text := by
  have h' : (Context.mk m stage none).model.Writable p stage f := h
  refine Language.exists_generate h.entry (fun d hmem => exists_struct h' hmem) ?_
  exact h'.exists_inOrder total_dialect
    (fun b hb => exists_resource (h'.declares hb) (hd b hb)) (exists_entry hv h' _)

/-- The first resource that cannot be declared is refused. -/
theorem generate_eq_error (h : m.Writable p stage f) (fixup : Option Fixup) {b : Binding}
    (hb : (m.resourcesFor stage).find? (fun b => !v.declares stage b.ty.kind) = some b) :
    (language v fixup).generate m stage = .error (.unsupportedType v.target b.ty.toTy) := by
  have h' : (Context.mk m stage none).model.Writable p stage f := h
  refine Language.generate_eq_error h.entry (fun d hmem => exists_struct h' hmem) ?_
  refine bind_of_error (Language.collect_eq_error hb (fun x hx hq => ?_) ?_)
  · exact exists_resource (h'.declares hx) (by simpa using hq)
  · refine resource_eq_error (h'.declares (List.mem_of_find?_eq_some hb)) ?_
    simpa using List.find?_some hb

end Source

end Shading.Glsl
