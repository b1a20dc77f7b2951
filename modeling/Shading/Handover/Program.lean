import Shading.Handover.Surface
import Shading.Surface.Program

/-!
# Programs in the hand-over format

A declaration is an object of its parts.  A part that a declaration can do
without may be null or missing.  A list of declarations, a parameter's passing, a
resource's access and a function's metadata may be missing, and then they are
empty, `In`, `ReadOnly` and those of a helper.  They may not be null.
-/

namespace Shading

open Surface (TypeExpr)

namespace GroupSize

def toJson (g : GroupSize) : Json := .list (Json.natural ·.toNat) [g.x, g.y, g.z]

def ofJson? (j : Json) : Option GroupSize := do
  match ← j.each (·.1.uint32?) with
  | [x, y, z] => some ⟨x, y, z⟩
  | _ => none

end GroupSize

namespace FieldDecl

def toJson (d : FieldDecl) : Json :=
  .object [("name", .string d.name), ("ty", d.ty.toJson),
    ("semantic", .optional Semantic.toJson d.semantic)]

def ofJson? (j : Json) : Option FieldDecl := do
  let name ← j.field "name" (·.1.string?)
  let ty ← j.field "ty" (TypeExpr.ofJson? ·.1)
  let semantic ← j.fieldOption "semantic" (Semantic.ofJson? ·.1)
  return { name, ty, semantic }

end FieldDecl

namespace StructDecl

def toJson (d : StructDecl) : Json :=
  .object [("name", .string d.name), ("fields", .list FieldDecl.toJson d.fields)]

def ofJson? (j : Json) : Option StructDecl := do
  let name ← j.field "name" (·.1.string?)
  let fields ← j.field "fields" fun list => list.each (FieldDecl.ofJson? ·.1)
  return { name, fields }

end StructDecl

namespace ResourceDecl

def toJson (d : ResourceDecl) : Json :=
  .object [("name", .string d.name), ("kind", .ofNamed d.kind),
    ("element", .optional TypeExpr.toJson d.element), ("access", .ofNamed d.access),
    ("set", .optional (Json.natural ·.toNat) d.set),
    ("slot", .optional (Json.natural ·.toNat) d.slot)]

def ofJson? (j : Json) : Option ResourceDecl := do
  let name ← j.field "name" (·.1.string?)
  let kind ← j.field "kind" (·.1.named?)
  let element ← j.fieldOption "element" (TypeExpr.ofJson? ·.1)
  let access ← j.fieldOr "access" .readOnly (·.1.named?)
  let set ← j.fieldOption "set" (·.1.uint32?)
  let slot ← j.fieldOption "slot" (·.1.uint32?)
  return { name, kind, element, access, set, slot }

end ResourceDecl

namespace ParamDecl

def toJson (d : ParamDecl) : Json :=
  .object [("name", .string d.name), ("ty", d.ty.toJson), ("direction", .ofNamed d.passing),
    ("semantic", .optional Semantic.toJson d.semantic)]

def ofJson? (j : Json) : Option ParamDecl := do
  let name ← j.field "name" (·.1.string?)
  let ty ← j.field "ty" (TypeExpr.ofJson? ·.1)
  let passing ← j.fieldOr "direction" .input (·.1.named?)
  let semantic ← j.fieldOption "semantic" (Semantic.ofJson? ·.1)
  return { name, ty, passing, semantic }

end ParamDecl

namespace FunctionMetadata

def toJson (m : FunctionMetadata) : Json :=
  .object [("stage", .optional Json.ofNamed m.stage),
    ("thread_group_size", .optional GroupSize.toJson m.groupSize)]

def ofJson? (j : Json) : Option FunctionMetadata := do
  let .object _ := j | none
  let stage ← j.fieldOption "stage" (·.1.named?)
  let groupSize ← j.fieldOption "thread_group_size" (GroupSize.ofJson? ·.1)
  return { stage, groupSize }

end FunctionMetadata

namespace FunctionDecl

def toJson (float : Binary32 → Json) (d : FunctionDecl) : Json :=
  .object [("name", .string d.name), ("metadata", d.metadata.toJson),
    ("params", .list ParamDecl.toJson d.params), ("return_type", d.result.toJson),
    ("body", .list (Surface.Stmt.toJson float) d.body)]

def ofJson? (number : Json.Number → Option Binary32) (j : Json) : Option FunctionDecl := do
  let name ← j.field "name" (·.1.string?)
  let metadata ← j.fieldOr "metadata" .helper (FunctionMetadata.ofJson? ·.1)
  let params ← j.field "params" fun list => list.each (ParamDecl.ofJson? ·.1)
  let result ← j.field "return_type" (TypeExpr.ofJson? ·.1)
  let body ← j.field "body" fun list => list.each (Surface.Stmt.ofJson? number ·.1)
  return { name, metadata, params, result, body }

end FunctionDecl

namespace SetDecl

def toJson (d : SetDecl) : Json :=
  .object [("name", .string d.name), ("vertex", .optional .string d.vertex),
    ("fragment", .optional .string d.fragment)]

def ofJson? (j : Json) : Option SetDecl := do
  let name ← j.field "name" (·.1.string?)
  let vertex ← j.fieldOption "vertex" (·.1.string?)
  let fragment ← j.fieldOption "fragment" (·.1.string?)
  return { name, vertex, fragment }

end SetDecl

namespace Program

def toJson (float : Binary32 → Json) (p : Program) : Json :=
  .object [("structs", .list StructDecl.toJson p.structs),
    ("resources", .list ResourceDecl.toJson p.resources),
    ("functions", .list (FunctionDecl.toJson float) p.functions),
    ("shader_sets", .list SetDecl.toJson p.shaderSets)]

/-- A program, by a way to read JSON numbers. -/
def ofJsonWith? (number : Json.Number → Option Binary32) (j : Json) : Option Program := do
  let .object _ := j | none
  let structs ← j.fieldOr "structs" [] fun list => list.each (StructDecl.ofJson? ·.1)
  let resources ← j.fieldOr "resources" [] fun list => list.each (ResourceDecl.ofJson? ·.1)
  let functions ← j.fieldOr "functions" [] fun list => list.each (FunctionDecl.ofJson? number ·.1)
  let shaderSets ← j.fieldOr "shader_sets" [] fun list => list.each (SetDecl.ofJson? ·.1)
  return { structs, resources, functions, shaderSets }

/-- A program as the tools around this library read it. -/
def ofJson? (j : Json) : Option Program := ofJsonWith? Binary32.ofNumber j

end Program

end Shading
