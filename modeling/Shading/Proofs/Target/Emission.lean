import Shading.Generation.Backend
import Shading.Proofs.Target.Glsl
import Shading.Proofs.Target.Hlsl
import Shading.Proofs.Target.Metal

/-!
# Every model is written in every language

Building promises that each stage of a model can be written (`BuiltFrom.writable`).
So every language but GLSL ES has a source for every stage of every model
(`emits_of_build`).  GLSL ES has one unless the stage reaches a resource that the
language cannot declare, and then the first such resource is the error.
-/

namespace Shading

namespace Glsl

/-- A resource that GLSL ES cannot declare in a stage: a multisample texture, or a
structured buffer outside compute stages. -/
def isBeyondEs (stage : Stage) (b : Binding) : Bool :=
  b.ty.kind = .texture2DMS || (b.ty.kind = .structuredBuffer && stage ≠ .compute)

theorem declares_core330 (stage : Stage) (kind : ResourceKind) :
    core330.declares stage kind = true := by cases kind <;> rfl

theorem declares_vulkan450 (stage : Stage) (kind : ResourceKind) :
    vulkan450.declares stage kind = true := by cases kind <;> cases stage <;> decide

theorem declares_es300 (stage : Stage) (b : Binding) :
    es300.declares stage b.ty.kind = !isBeyondEs stage b := by
  rw [isBeyondEs]
  cases b.ty.kind <;> cases stage <;> decide

end Glsl

/-- A stage of a model is written in every language, as far as GLSL ES can declare its
resources. -/
structure Model.Emits (m : Model) (stage : Stage) (fixup : Option Fixup) : Prop where
  sources : ∀ t : Target, t ≠ .glslEs300 → ∃ text, (t.language fixup).generate m stage = .ok text
  /-- GLSL ES has a source exactly when it can declare every resource of the stage. -/
  es_source : (∃ text, (Target.glslEs300.language fixup).generate m stage = .ok text) ↔
    ∀ b ∈ m.resourcesFor stage, Glsl.isBeyondEs stage b = false
  /-- Otherwise the error names the type of the first resource that it cannot declare. -/
  es_error : ∀ b, (m.resourcesFor stage).find? (Glsl.isBeyondEs stage) = some b →
    (Target.glslEs300.language fixup).generate m stage =
      .error (.unsupportedType .glslEs300 b.ty.toTy)

namespace Program

variable {p : Program} {m : Model} {stage : Stage} {f : Function}

/-- The languages that can declare everything have a source for every writable stage. -/
theorem exists_source_of_writable (h : m.Writable p stage f) (fixup : Option Fixup) {t : Target}
    (ht : t ≠ .glslEs300) : ∃ text, (t.language fixup).generate m stage = .ok text := by
  cases t with
  | hlsl => exact Hlsl.exists_source h
  | glsl330 =>
    exact Glsl.exists_source (by simp [Glsl.versions]) h fixup fun b _ =>
      Glsl.declares_core330 stage b.ty.kind
  | glslEs300 => exact absurd rfl ht
  | glsl450 =>
    exact Glsl.exists_source (by simp [Glsl.versions]) h fixup fun b _ =>
      Glsl.declares_vulkan450 stage b.ty.kind
  | metal => exact Metal.exists_source h

theorem es_error_of_writable (h : m.Writable p stage f) (fixup : Option Fixup) {b : Binding}
    (hb : (m.resourcesFor stage).find? (Glsl.isBeyondEs stage) = some b) :
    (Target.glslEs300.language fixup).generate m stage =
      .error (.unsupportedType .glslEs300 b.ty.toTy) := by
  refine Glsl.generate_eq_error h fixup ?_
  simpa only [Glsl.declares_es300, Bool.not_not] using hb

/-- Every stage of a model that was built is written in every language, as far as GLSL ES
can declare its resources. -/
theorem emits_of_build {set : EntrySet} (h : p.build set = .ok m) (hs : stage ∈ set.stages)
    (fixup : Option Fixup) : m.Emits stage fixup := by
  obtain ⟨_, _, hbuilt⟩ := builtFrom_of_build h
  obtain ⟨f, hw⟩ := hbuilt.writable hs
  refine ⟨fun t ht => exists_source_of_writable hw fixup ht, ?_, fun b hb =>
    es_error_of_writable hw fixup hb⟩
  constructor
  · rintro ⟨text, htext⟩ b hb
    by_contra hbeyond
    obtain ⟨first, hfirst⟩ : ∃ first,
        (m.resourcesFor stage).find? (Glsl.isBeyondEs stage) = some first := by
      rw [← Option.isSome_iff_exists, List.find?_isSome]
      exact ⟨b, hb, by simpa using hbeyond⟩
    cases htext.symm.trans (es_error_of_writable hw fixup hfirst)
  · intro hall
    refine Glsl.exists_source (by simp [Glsl.versions]) hw fixup fun b hb => ?_
    rw [Glsl.declares_es300, hall b hb, Bool.not_false]

theorem emits_sample :
    ∃ m, sample.build sampleSet = .ok m ∧ .fragment ∈ sampleSet.stages ∧
      m.Emits .fragment none := by
  have h : sample.build sampleSet = .ok _ := rfl
  have hs : .fragment ∈ sampleSet.stages := by decide
  exact ⟨_, h, hs, emits_of_build h hs none⟩

end Program

end Shading
