import Shading.Proofs.Target.Language
import Shading.Target.Hlsl

/-!
# HLSL sources

HLSL spells everything that a model can hold, so every writable stage has a source
in it.
-/

namespace Shading.Hlsl

variable {p : Program} {c : Context} {f : Function}

theorem exists_typeName {ty : Ty} (h : ty.Plain p) : ∃ text, typeName ty = .ok text := by
  induction h with
  | array _ _ _ _ ih =>
    obtain ⟨text, ht⟩ := ih
    simp [typeName, ht]
  | _ => exact ⟨_, rfl⟩

theorem exists_declaration {ty : Ty} (h : ty.Plain p) (name : String) :
    ∃ text, dialect.declaration ty name = .ok text :=
  Dialect.exists_declaration (fun _ => exists_typeName) h name

/-- HLSL spells every plain type and every intrinsic. -/
theorem total_dialect : dialect.Total p where
  typeName _ := exists_typeName
  parameter := by
    intro param hp
    obtain ⟨text, ht⟩ := Dialect.exists_parameterText (fun _ => exists_typeName) reserved hp
    show ∃ text, parameter param = .ok text
    rw [parameter]
    cases hsemantic : param.semantic.bind builtinSemantic? <;> simp [ht]
  intrinsic := by
    refine Dialect.spells_intrinsics (fun _ _ _ => rfl)
      (fun _ _ _ _ => rfl) (fun _ _ _ => rfl) fun i args hi _ => ?_
    cases i <;> first | exact .inl rfl | exact .inr rfl | cases hi

theorem exists_struct (h : c.model.Writable p c.stage f) {d : StructDef}
    (hd : d ∈ c.model.structsFor c.stage) : ∃ code, struct c d = .ok code := by
  rw [struct]
  refine exists_bind_ok (Language.exists_collect ?_) fun fields _ => ⟨_, rfl⟩
  intro entry hmem
  obtain ⟨field, semantic⟩ := entry
  have hplain := h.plain_field hd (List.of_mem_zip hmem).1
  obtain ⟨text, ht⟩ := exists_declaration hplain (dialect.identifier field.name)
  simp [fieldLine, ht]

/-- The type of every resource is spelled. -/
theorem exists_typeName_resource {r : ResourceTy} (h : p.Declares r) :
    ∃ text, typeName r.toTy = .ok text := by
  cases h with
  | @plain kind hk =>
    cases kind with
    | uniformBuffer => cases hk
    | structuredBuffer => cases hk
    | _ => exact ⟨_, rfl⟩
  | @buffer kind element access hk hp =>
    obtain ⟨text, ht⟩ := exists_typeName hp
    cases kind <;> simp_all [ResourceKind.isBuffer, ResourceTy.toTy, typeName, textureName?]

theorem exists_resource {b : Binding} (h : p.Declares b.ty) : ∃ code, resource c b = .ok code := by
  obtain ⟨text, ht⟩ := exists_typeName_resource h
  rw [resource]
  split <;> simp [ht]

theorem exists_entry (h : c.model.Writable p c.stage f) : ∃ code, entry c f = .ok code := by
  obtain ⟨code, hcode⟩ := h.exists_functionWith total_dialect h.entry_mem
    (resultSemantic c.stage f.result)
  simp [entry, hcode]

/-- Every writable stage has a source in HLSL. -/
theorem exists_source {m : Model} {stage : Stage} (h : m.Writable p stage f) :
    ∃ text, language.generate m stage = .ok text := by
  have h' : (Context.mk m stage none).model.Writable p stage f := h
  refine Language.exists_generate h.entry (fun d hd => exists_struct h' hd) ?_
  exact h'.exists_inOrder total_dialect (fun b hb => exists_resource (h'.declares hb))
    (exists_entry h')

end Shading.Hlsl
