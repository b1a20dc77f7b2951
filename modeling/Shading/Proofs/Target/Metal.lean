import Shading.Proofs.Target.Language
import Shading.Target.Metal

/-!
# Metal sources

Metal spells everything that a model can hold, so every writable stage has a source
in it.
-/

namespace Shading.Metal

variable {p : Program} {c : Context} {f : Function}

theorem exists_typeName {ty : Ty} (h : ty.Plain p) : ∃ text, typeName ty = .ok text := by
  induction h with
  | array _ _ _ _ ih =>
    obtain ⟨text, ht⟩ := ih
    simp [typeName, ht]
  | _ => exact ⟨_, rfl⟩

theorem exists_declaration {ty : Ty} (h : ty.Plain p) (name : String) :
    ∃ text, dialect.declaration ty name = .ok text :=
  Dialect.exists_declaration (fun _ => exists_typeName) h name

/-- Metal spells every plain type and every intrinsic. -/
theorem total_dialect : dialect.Total p where
  typeName _ := exists_typeName
  parameter := by
    intro param hp
    show ∃ text, parameter param = .ok text
    rw [parameter]
    obtain ⟨ty, hty⟩ := exists_typeName hp
    cases hpassing : param.passing with
    | input => exact exists_declaration hp _
    | output => simp [hty]
    | inout => simp [hty]
  intrinsic := by
    refine Dialect.spells_intrinsics (fun _ _ _ => rfl)
      (fun _ _ _ _ => rfl) (fun _ _ _ => rfl) fun i args hi _ => ?_
    cases i <;> first | exact .inl rfl | exact .inr rfl | cases hi

theorem exists_struct (h : c.model.Writable p c.stage f) {d : StructDef}
    (hd : d ∈ c.model.structsFor c.stage) : ∃ code, struct c d = .ok code := by
  rw [struct]
  refine exists_bind_ok (Language.exists_collect ?_) fun fields _ => ⟨_, rfl⟩
  intro entry hmem
  obtain ⟨field, index⟩ := entry
  have hplain := h.plain_field hd (List.fst_mem_of_mem_zipIdx hmem)
  obtain ⟨text, ht⟩ := exists_declaration hplain (dialect.identifier field.name)
  simp [fieldLine, ht]

/-- The type of every resource is spelled. -/
theorem exists_typeName_resource {r : ResourceTy} (h : p.Declares r) :
    ∃ text, typeName r.toTy = .ok text := by
  cases h with
  | @plain kind hk =>
    cases kind with
    | uniformBuffer => cases hk
    | structuredBuffer => cases hk
    | _ => exact ⟨_, rfl⟩
  | @buffer kind element access hk hp =>
    obtain ⟨text, ht⟩ := exists_typeName hp
    cases kind <;> simp_all [ResourceKind.isBuffer, ResourceTy.toTy, typeName, textureName?]

theorem exists_resourceDeclaration {b : Binding} (h : p.Declares b.ty) (name : String) :
    ∃ text, resourceDeclaration b name = .ok text := by
  obtain ⟨text, ht⟩ := exists_typeName_resource h
  rw [resourceDeclaration]
  rw [bind_of_ok ht]
  split <;> exact ⟨_, rfl⟩

theorem exists_entry (h : c.model.Writable p c.stage f) : ∃ code, entry c f = .ok code := by
  obtain ⟨params, hparams⟩ : ∃ params, f.params.mapM stageParameter = .ok params := by
    refine exists_mapM_ok fun param hparam => ?_
    obtain ⟨text, ht⟩ := exists_declaration (h.params f h.entry_mem param hparam)
      (dialect.identifier param.name)
    simp [stageParameter, ht]
  obtain ⟨resources, hresources⟩ : ∃ resources,
      (c.model.resourcesFor c.stage).mapM (resourceParameter c) = .ok resources := by
    refine exists_mapM_ok fun b hb => ?_
    obtain ⟨text, ht⟩ := exists_resourceDeclaration (h.declares hb) (dialect.identifier b.name)
    simp [resourceParameter, ht]
  obtain ⟨result, hresult⟩ := exists_typeName (h.result f h.entry_mem)
  simp [entry, hparams, hresources, hresult]

theorem exists_containerConstructor {resources : List Binding}
    (h : ∀ b ∈ resources, p.Declares b.ty) :
    ∃ code, containerConstructor resources = .ok code := by
  obtain ⟨params, hparams⟩ := exists_mapM_ok fun b hb =>
    exists_resourceDeclaration (h b hb) (dialect.identifier b.name ++ "_param")
  rw [containerConstructor]
  split <;> simp [hparams]

theorem exists_arrangement (h : c.model.Writable p c.stage f) :
    ∃ code, arrangement c f = .ok code := by
  obtain ⟨members, hmembers⟩ : ∃ code,
      Language.collect (resource c) (c.model.resourcesFor c.stage) = .ok code := by
    refine Language.exists_collect fun b hb => ?_
    obtain ⟨text, ht⟩ := exists_resourceDeclaration (h.declares hb) (dialect.identifier b.name)
    simp [resource, ht]
  obtain ⟨ctor, hctor⟩ := exists_containerConstructor fun b hb => h.declares hb
  obtain ⟨functions, hfunctions⟩ : ∃ code,
      Language.collect (dialect.function c) (c.model.functionsFor c.stage) = .ok code :=
    Language.exists_collect fun g hg => h.exists_function total_dialect (List.mem_filter.1 hg).1
  obtain ⟨code, hcode⟩ := exists_entry h
  simp [arrangement, hmembers, hctor, hfunctions, hcode]

/-- Every writable stage has a source in Metal. -/
theorem exists_source {m : Model} {stage : Stage} (h : m.Writable p stage f) :
    ∃ text, language.generate m stage = .ok text := by
  have h' : (Context.mk m stage none).model.Writable p stage f := h
  exact Language.exists_generate h.entry (fun d hd => exists_struct h' hd) (exists_arrangement h')

end Shading.Metal
