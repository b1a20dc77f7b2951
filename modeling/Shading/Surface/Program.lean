import Shading.Stage
import Shading.Surface.Basic
import Shading.Text.Name

/-!
# Programs

A program declares structs, resources, functions and shader sets.  The lists
keep declaration order.  A name refers to the first declaration that has it.
-/

namespace Shading

open Surface (TypeExpr)

/-- How a parameter is passed. -/
inductive Passing where
  | input
  | output
  | inout
deriving DecidableEq, Repr

instance : Named Passing where
  values := [.input, .output, .inout]
  name
    | .input => "In"
    | .output => "Out"
    | .inout => "InOut"

/-- A thread group's dimensions. -/
structure GroupSize where
  x : UInt32
  y : UInt32
  z : UInt32
deriving DecidableEq, Repr

/-- The number of threads in a group, as it is computed.  The product of 64 bits wraps. -/
def GroupSize.invocations (g : GroupSize) : UInt64 :=
  g.x.toUInt64 * g.y.toUInt64 * g.z.toUInt64

/-- A group with no threads in some dimension. -/
def GroupSize.hasEmptyDimension (g : GroupSize) : Bool := g.x = 0 || g.y = 0 || g.z = 0

instance : ToString GroupSize := ⟨fun g => s!"({g.x}, {g.y}, {g.z})"⟩

/-- A field of a declared struct. -/
structure FieldDecl where
  name : String
  ty : TypeExpr
  semantic : Option Semantic
deriving DecidableEq, Repr

/-- A declared struct. -/
structure StructDecl where
  /-- The qualified name. -/
  name : String
  fields : List FieldDecl
deriving DecidableEq, Repr

/-- The first field of a name. -/
def StructDecl.field? (d : StructDecl) (name : String) : Option FieldDecl :=
  d.fields.find? (·.name == name)

/-- A declared resource. -/
structure ResourceDecl where
  name : String
  kind : ResourceKind
  /-- The element type of a buffer. -/
  element : Option TypeExpr
  access : Access
  /-- The binding set, if one is asked for. -/
  set : Option UInt32
  /-- The slot in the set, if one is asked for. -/
  slot : Option UInt32
deriving DecidableEq, Repr

/-- A parameter of a declared function. -/
structure ParamDecl where
  name : String
  ty : TypeExpr
  passing : Passing
  semantic : Option Semantic
deriving DecidableEq, Repr

/-- What a function declares about itself besides its code. -/
structure FunctionMetadata where
  /-- The stage the function is an entry point of.  Helpers have none. -/
  stage : Option Stage
  /-- The thread group of a compute entry point. -/
  groupSize : Option GroupSize
deriving DecidableEq, Repr

/-- The metadata of a helper. -/
def FunctionMetadata.helper : FunctionMetadata := ⟨none, none⟩

/-- A declared function. -/
structure FunctionDecl where
  /-- The qualified name. -/
  name : String
  metadata : FunctionMetadata
  params : List ParamDecl
  result : TypeExpr
  body : List Surface.Stmt

/-- The name without its qualifiers. -/
def FunctionDecl.shortName (d : FunctionDecl) : String := Name.short d.name

/-- A vertex and a fragment entry declared to belong together. -/
structure SetDecl where
  name : String
  vertex : Option String
  fragment : Option String
deriving DecidableEq, Repr

/-- Everything one program declares. -/
structure Program where
  structs : List StructDecl
  resources : List ResourceDecl
  functions : List FunctionDecl
  shaderSets : List SetDecl

namespace Program

/-- The first function of a name. -/
def function? (p : Program) (name : String) : Option FunctionDecl :=
  p.functions.find? (·.name == name)

/-- The first struct of a name. -/
def struct? (p : Program) (name : String) : Option StructDecl :=
  p.structs.find? (·.name == name)

/-- The first resource of a name. -/
def resource? (p : Program) (name : String) : Option ResourceDecl :=
  p.resources.find? (·.name == name)

/-- The functions marked as entry points of a stage, in declaration order. -/
def entryPoints (p : Program) (stage : Stage) : List FunctionDecl :=
  p.functions.filter (·.metadata.stage = some stage)

/-- A function is found under its own name. -/
theorem name_of_function? {p : Program} {name : String} {d : FunctionDecl}
    (h : p.function? name = some d) : d.name = name := by
  simpa using List.find?_some h

/-- A struct is found under its own name. -/
theorem name_of_struct? {p : Program} {name : String} {d : StructDecl}
    (h : p.struct? name = some d) : d.name = name := by
  simpa using List.find?_some h

/-- A resource is found under its own name. -/
theorem name_of_resource? {p : Program} {name : String} {d : ResourceDecl}
    (h : p.resource? name = some d) : d.name = name := by
  simpa using List.find?_some h

end Program

end Shading
