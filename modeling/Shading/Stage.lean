import Shading.Named

/-!
# Stages and semantics

A program runs in three stages.  A *semantic* says what a field or a parameter
carries across a stage boundary.  Five semantics are *builtins*: the pipeline
supplies their values, and each belongs to one stage.
-/

namespace Shading

/-! ## Stages -/

/-- A stage of the pipeline, in pipeline order. -/
inductive Stage where
  /-- Runs once per vertex. -/
  | vertex
  /-- Runs once per covered pixel. -/
  | fragment
  /-- Runs once per thread of a dispatch. -/
  | compute
deriving DecidableEq, Repr

/-- The stage as it is spelled in messages. -/
def Stage.text : Stage → String
  | .vertex => "vertex"
  | .fragment => "fragment"
  | .compute => "compute"

instance : ToString Stage := ⟨Stage.text⟩

instance : Named Stage where
  values := [.vertex, .fragment, .compute]
  name
    | .vertex => "Vertex"
    | .fragment => "Fragment"
    | .compute => "Compute"

/-- The stages in pipeline order. -/
def Stage.all : List Stage := [.vertex, .fragment, .compute]

@[simp] theorem Stage.mem_all (s : Stage) : s ∈ Stage.all := by cases s <;> decide

/-! ## Semantics -/

/-- What a field or a parameter carries across a stage boundary. -/
inductive Semantic where
  | position
  | normal
  | textureCoordinate
  | color
  | tangent
  /-- The clip-space position the vertex stage writes. -/
  | systemPosition
  /-- A render target the fragment stage writes. -/
  | colorTarget (index : UInt32)
  | vertexIndex
  | instanceIndex
  | dispatchThreadId
  | groupThreadId
  | groupId
deriving DecidableEq, Repr

/-- The stage a builtin belongs to.  Other semantics belong to none. -/
def Semantic.builtinStage? : Semantic → Option Stage
  | .vertexIndex | .instanceIndex => some .vertex
  | .dispatchThreadId | .groupThreadId | .groupId => some .compute
  | _ => none

/-- Builtins are supplied by the pipeline and stand on entry parameters only. -/
def Semantic.isBuiltin : Semantic → Bool
  | .vertexIndex | .instanceIndex | .dispatchThreadId | .groupThreadId | .groupId => true
  | _ => false

/-- A builtin is a semantic that belongs to a stage. -/
theorem Semantic.isBuiltin_eq_isSome (s : Semantic) :
    s.isBuiltin = s.builtinStage?.isSome := by cases s <;> rfl

/-- No builtin belongs to the fragment stage. -/
theorem Semantic.builtinStage?_ne_fragment (s : Semantic) :
    s.builtinStage? ≠ some .fragment := by cases s <;> simp [Semantic.builtinStage?]

/-- The semantic as it is spelled in messages. -/
def Semantic.text : Semantic → String
  | .position => "position"
  | .normal => "normal"
  | .textureCoordinate => "texture coordinate"
  | .color => "color"
  | .tangent => "tangent"
  | .systemPosition => "system position"
  | .colorTarget n => s!"color target {n}"
  | .vertexIndex => "vertex index"
  | .instanceIndex => "instance index"
  | .dispatchThreadId => "dispatch thread id"
  | .groupThreadId => "group thread id"
  | .groupId => "group id"

instance : ToString Semantic := ⟨Semantic.text⟩

end Shading
