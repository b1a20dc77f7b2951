import Shading.Fault
import Shading.Model.Basic

/-!
# Models

A model is one variant of a program: the entry points of a set and all they
reach, elaborated and in an order in which every declaration comes before its
uses.  It names no target.  For each stage it records which of its declarations
the stage's entry point reaches (`Usage`).
-/

namespace Shading

/-! ## Entry sets -/

/-- The entry points of one variant, at most one for each stage. -/
structure EntrySet where
  vertex : Option String
  fragment : Option String
  compute : Option String
deriving DecidableEq, Repr

namespace EntrySet

/-- The entry point of a stage. -/
def entryName? (s : EntrySet) : Stage → Option String
  | .vertex => s.vertex
  | .fragment => s.fragment
  | .compute => s.compute

/-- The stages with an entry point and its name, in pipeline order. -/
def entries (s : EntrySet) : List (Stage × String) :=
  Stage.all.filterMap fun stage => (s.entryName? stage).map (stage, ·)

/-- The stages with an entry point, in pipeline order. -/
def stages (s : EntrySet) : List Stage := s.entries.map Prod.fst

/-- A set without entry points. -/
def isEmpty (s : EntrySet) : Bool := s.entries.isEmpty

/-- The names of the entry points. -/
def text (s : EntrySet) : String :=
  if s.isEmpty then "<empty>" else " + ".intercalate (s.entries.map Prod.snd)

theorem mem_entries {s : EntrySet} {stage : Stage} {name : String} :
    (stage, name) ∈ s.entries ↔ s.entryName? stage = some name := by
  simp [entries]

theorem mem_stages {s : EntrySet} {stage : Stage} :
    stage ∈ s.stages ↔ (s.entryName? stage).isSome := by
  simp [stages, Option.isSome_iff_exists, mem_entries]

end EntrySet

/-! ## Models -/

/-- What the entry point of a stage reaches, by name. -/
structure Usage where
  functions : List String
  resources : List String
  structs : List String

/-- One variant of a program. -/
structure Model where
  /-- The structs, each behind the structs its fields mention. -/
  structs : List StructDef
  /-- The resources, in declaration order. -/
  resources : List Binding
  /-- The functions, each behind the functions it calls. -/
  functions : List Function
  entryPoints : EntrySet
  /-- What each stage with an entry point reaches, in pipeline order. -/
  usage : List (Stage × Usage)
  warnings : List Warning

/-- A part that a struct plays between stages. -/
inductive Role where
  | vertexInput
  | vertexOutput
  | fragmentInput
  | fragmentOutput
deriving DecidableEq, Repr

instance : Named Role where
  values := [.vertexInput, .vertexOutput, .fragmentInput, .fragmentOutput]
  name
    | .vertexInput => "VERTEX_INPUT"
    | .vertexOutput => "VERTEX_OUTPUT"
    | .fragmentInput => "FRAGMENT_INPUT"
    | .fragmentOutput => "FRAGMENT_OUTPUT"

namespace Model

/-! ### Look-up -/

/-- The function of a qualified name. -/
def function? (m : Model) (name : String) : Option Function :=
  m.functions.find? (·.qualifiedName == name)

/-- The struct of a name. -/
def struct? (m : Model) (name : String) : Option StructDef := m.structs.find? (·.name == name)

/-- The resource of a name. -/
def resource? (m : Model) (name : String) : Option Binding := m.resources.find? (·.name == name)

/-- The entry function of a stage. -/
def entryFunction? (m : Model) (stage : Stage) : Option Function :=
  (m.entryPoints.entryName? stage).bind m.function?

/-- Whether a function is the entry point of a stage. -/
def isEntry (m : Model) (stage : Stage) (f : Function) : Bool :=
  m.entryPoints.entryName? stage = some f.qualifiedName

/-! ### What a stage reaches -/

/-- What the entry point of a stage reaches.  A stage without one reaches nothing. -/
def usageOf (m : Model) (stage : Stage) : Usage := (m.usage.lookup stage).getD ⟨[], [], []⟩

/-- The functions a stage reaches, in model order. -/
def functionsFor (m : Model) (stage : Stage) : List Function :=
  m.functions.filter fun f => f.qualifiedName ∈ (m.usageOf stage).functions

/-- The resources a stage reaches, in model order. -/
def resourcesFor (m : Model) (stage : Stage) : List Binding :=
  m.resources.filter fun b => b.name ∈ (m.usageOf stage).resources

/-- The structs a stage reaches, in model order. -/
def structsFor (m : Model) (stage : Stage) : List StructDef :=
  m.structs.filter fun d => d.name ∈ (m.usageOf stage).structs

/-! ### Roles -/

/-- Whether a struct plays a part between stages. -/
def hasRole (m : Model) (struct : String) : Role → Bool
  | .vertexInput => (m.entryFunction? .vertex).any fun f => f.inputStruct? = some struct
  | .vertexOutput => (m.entryFunction? .vertex).any fun f => f.result.structName? = some struct
  | .fragmentInput => (m.entryFunction? .fragment).any fun f => f.inputStruct? = some struct
  | .fragmentOutput => (m.entryFunction? .fragment).any fun f => f.result.structName? = some struct

/-- The parts a struct plays between stages. -/
def roles (m : Model) (struct : String) : List Role :=
  (Named.values (α := Role)).filter (m.hasRole struct)

/-- Whether a struct goes from the vertex to the fragment stage. -/
def isVarying (m : Model) (struct : String) : Bool :=
  m.hasRole struct .vertexOutput || m.hasRole struct .fragmentInput

end Model

end Shading
