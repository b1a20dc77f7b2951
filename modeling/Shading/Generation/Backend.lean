import Shading.Target.Glsl
import Shading.Target.Hlsl
import Shading.Target.Metal

/-!
# Backends

A backend is what generation knows of a target: its name, what it can express,
and a function that writes the source of one stage.  A stage that is beyond the
capabilities of a backend is refused before anything is written.
-/

namespace Shading

/-- Writes the stages of models for a target. -/
structure Backend where
  target : Target
  capabilities : List Capability
  /-- The source of a stage the target can express. -/
  generate : Model → Stage → Except Error String

/-- The backend that writes a language. -/
def Language.backend (l : Language) : Backend := ⟨l.dialect.target, l.capabilities, l.generate⟩

/-- The language of a target, with the fixup that is asked for where it has one. -/
def Target.language : Target → Option Fixup → Language
  | .hlsl, _ => Hlsl.language
  | .glsl330, fixup => Glsl.language Glsl.core330 fixup
  | .glslEs300, fixup => Glsl.language Glsl.es300 fixup
  | .glsl450, fixup => Glsl.language Glsl.vulkan450 fixup
  | .metal, _ => Metal.language

/-- The backend of a target's language is a backend of the target. -/
@[simp] theorem Target.target_backend_language (t : Target) (fixup : Option Fixup) :
    (t.language fixup).backend.target = t := by cases t <;> rfl

/-- The source of a stage, if the target can express the stage. -/
def Backend.stageSource (b : Backend) (m : Model) (stage : Stage) : Except Error String :=
  if stage.capability ∈ b.capabilities then b.generate m stage
  else
    .error (.construct ((m.entryPoints.entryName? stage).getD "") (.stageNotSupported b.target stage))

/-- The sources of the stages of a set, in pipeline order. -/
def Backend.sources (b : Backend) (m : Model) (set : EntrySet) :
    Except Error (List (Stage × String)) :=
  set.stages.mapM fun stage => do return (stage, ← b.stageSource m stage)

end Shading
