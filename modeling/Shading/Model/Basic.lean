import Shading.Core.Walk
import Shading.Surface.Program

/-!
# Declarations of a model

A model holds elaborated declarations: structs with their fields, functions with
core bodies, and resources with the set and slot they are bound to.  The types
here are its parts.  `Shading.Model.Model` puts them together.
-/

namespace Shading

/-! ## Structs -/

/-- A field of a struct. -/
structure Field where
  name : String
  ty : Ty
  semantic : Option Semantic
deriving DecidableEq, Repr

/-- A struct. -/
structure StructDef where
  /-- The qualified name. -/
  name : String
  fields : List Field
deriving DecidableEq, Repr

namespace StructDef

/-- The fields passed between stages, in declaration order.  A system position
travels through the target's own position instead. -/
def varyings (d : StructDef) : List Field :=
  d.fields.filter (·.semantic ≠ some .systemPosition)

/-- The fields that hold a system position. -/
def positions (d : StructDef) : List Field :=
  d.fields.filter (·.semantic = some .systemPosition)

/-- The structs that the field types mention, each once. -/
def dependencies (d : StructDef) : List String :=
  (d.fields.flatMap (·.ty.structs)).eraseDups

end StructDef

/-! ## Functions -/

/-- A parameter of a function. -/
structure Parameter where
  name : String
  ty : Ty
  passing : Passing
  semantic : Option Semantic
deriving DecidableEq, Repr

/-- The builtin a parameter receives. -/
def Parameter.builtin? (p : Parameter) : Option Semantic := p.semantic.filter Semantic.isBuiltin

/-- A function. -/
structure Function where
  /-- The name without its qualifiers. -/
  name : String
  qualifiedName : String
  /-- The stage the function is an entry point of.  Helpers have none. -/
  stage : Option Stage
  params : List Parameter
  result : Ty
  body : List Core.Stmt
  groupSize : Option GroupSize
  /-- The functions that were recorded as called, each once. -/
  callees : List String

namespace Function

/-- The struct parameter of an entry point, which is its stage input. -/
def input? (f : Function) : Option Parameter :=
  f.params.find? fun p => p.semantic.isNone && p.ty.structName?.isSome

/-- The struct that an entry point takes as its stage input. -/
def inputStruct? (f : Function) : Option String := f.input?.bind (·.ty.structName?)

/-- Every type that stands in the function: of its result, its parameters, its
local variables and its expressions. -/
def types (f : Function) : List Ty :=
  f.result :: (f.params.map (·.ty) ++ Core.declaredTypes f.body ++ (Core.exprsOf f.body).map (·.ty))

/-- The structs that the types mention, in order of mention. -/
def structs (f : Function) : List String := f.types.flatMap Ty.structs

end Function

/-! ## Resources -/

/-- Where a resource is bound. -/
structure Slot where
  set : UInt32
  slot : UInt32
deriving DecidableEq, Repr

/-- A bound resource. -/
structure Binding where
  name : String
  ty : ResourceTy
  slot : Slot
deriving DecidableEq, Repr

end Shading
