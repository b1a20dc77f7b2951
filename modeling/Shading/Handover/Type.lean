import Shading.Binary32.Text
import Shading.Core.Basic
import Shading.Json.Access
import Shading.Stage
import Shading.Surface.Basic

/-!
# Types and constants in the hand-over format

The hand-over format writes an alternative as its name, or, if it has contents,
as an object whose one member is the name with the contents.  Several unnamed
contents are an array, named ones an object.

How a number is written is a parameter of the writers, because a program is
handed over with JSON numbers and shown with exact texts.  How a JSON number is
read is a parameter of the readers of surface code.  `Binary32.ofNumber` is how
the tools around this library read it.
-/

namespace Shading

/-! ## Numbers -/

/-- A JSON number, rounded by way of double precision unless it is an integer. -/
def Binary32.ofNumber : Json.Number → Option Binary32
  | .integer value => some (.ofInteger value)
  | .decimal negative mantissa exponent => some (.ofDecimal negative mantissa exponent)

/-- A number, by a way to read JSON numbers. -/
def Binary32.ofJson? (number : Json.Number → Option Binary32) : Json → Option Binary32
  | .number n => number n
  | _ => none

/-- The text of a finite number.  Others have no written form. -/
def Binary32.textJson (x : Binary32) : Json := if x.isFinite then .string x.text else .null

/-! ## Semantics -/

namespace Semantic

/-- The semantics without contents. -/
def plain : List Semantic := [
  .position, .normal, .textureCoordinate, .color, .tangent, .systemPosition, .vertexIndex,
  .instanceIndex, .dispatchThreadId, .groupThreadId, .groupId]

/-- The name of a semantic. -/
def name : Semantic → String
  | .position => "Position"
  | .normal => "Normal"
  | .textureCoordinate => "TextureCoordinate"
  | .color => "Color"
  | .tangent => "Tangent"
  | .systemPosition => "SystemPosition"
  | .colorTarget _ => "ColorTarget"
  | .vertexIndex => "VertexIndex"
  | .instanceIndex => "InstanceIndex"
  | .dispatchThreadId => "DispatchThreadId"
  | .groupThreadId => "GroupThreadId"
  | .groupId => "GroupId"

/-- The index of a render target. -/
def content : Semantic → Option Json
  | .colorTarget index => some (.natural index.toNat)
  | _ => none

def toJson (s : Semantic) : Json := .variant s.name s.content

def ofJson? (j : Json) : Option Semantic :=
  match j.variant? with
  | some (name, none) => plain.find? (·.name == name)
  | some ("ColorTarget", some index) => index.1.uint32?.map .colorTarget
  | _ => none

end Semantic

/-! ## Types as they are written -/

namespace Surface.TypeExpr

/-- The name of an alternative. -/
def tag : TypeExpr → String
  | .void => "Void"
  | .scalar _ => "Scalar"
  | .vector _ _ => "Vector"
  | .matrix _ _ => "Matrix"
  | .named _ => "Named"
  | .array _ _ => "Array"
  | .host _ => "Host"

def toJson : TypeExpr → Json
  | t@(.void) => .variant t.tag none
  | t@(.scalar kind) => .variant t.tag (some (.ofNamed kind))
  | t@(.vector kind size) =>
    .variant t.tag (some (.array [.ofNamed kind, .natural size.toNat]))
  | t@(.matrix rows columns) =>
    .variant t.tag
      (some (.object [("rows", .natural rows.toNat), ("columns", .natural columns.toNat)]))
  | t@(.named name) => .variant t.tag (some (.string name))
  | t@(.array element length) =>
    .variant t.tag (some (.array [element.toJson, .natural length.toNat]))
  | t@(.host name) => .variant t.tag (some (.string name))

def ofJson? (j : Json) : Option TypeExpr :=
  match j.variant? with
  | some ("Void", none) => some .void
  | some ("Scalar", some c) => c.1.named?.map .scalar
  | some ("Vector", some c) => do
    let (kind, size) ← c.pair (·.1.named?) (·.1.uint8?)
    return .vector kind size
  | some ("Matrix", some c) => do
    let rows ← c.field "rows" (·.1.uint8?)
    let columns ← c.field "columns" (·.1.uint8?)
    return .matrix rows columns
  | some ("Named", some c) => c.1.string?.map .named
  | some ("Array", some c) => do
    let (element, length) ← c.pair (fun p => ofJson? p.1) (·.1.uint32?)
    return .array element length
  | some ("Host", some c) => c.1.string?.map .host
  | _ => none
termination_by j
decreasing_by exact p.sizeOf_lt

end Surface.TypeExpr

/-! ## Types of models -/

namespace Ty

/-- A resource type, with its element as it is written. -/
def resourceJson (kind : ResourceKind) (element : Json) (access : Access) : Json :=
  .object [("kind", .ofNamed kind), ("element", element), ("access", .ofNamed access)]

def toJson : Ty → Json
  | .void => .variant "Void" none
  | .scalar kind => .variant "Scalar" (some (.ofNamed kind))
  | .vector kind size => .variant "Vector" (some (.array [.ofNamed kind, .natural size.toNat]))
  | .matrix => .variant "Matrix4x4" none
  | .struct name => .variant "Struct" (some (.string name))
  | .array element length =>
    .variant "Array" (some (.array [element.toJson, .natural length.toNat]))
  | .resource kind access => .variant "Resource" (some (resourceJson kind .null access))
  | .resourceOf kind element access =>
    .variant "Resource" (some (resourceJson kind element.toJson access))

def ofJson? (j : Json) : Option Ty :=
  match j.variant? with
  | some ("Void", none) => some .void
  | some ("Scalar", some c) => c.1.named?.map .scalar
  | some ("Vector", some c) => do
    let (kind, size) ← c.pair (·.1.named?) (·.1.uint8?)
    return .vector kind size
  | some ("Matrix4x4", none) => some .matrix
  | some ("Struct", some c) => c.1.string?.map .struct
  | some ("Array", some c) => do
    let (element, length) ← c.pair (fun p => ofJson? p.1) (·.1.uint32?)
    return .array element length
  | some ("Resource", some c) => do
    let kind ← c.field "kind" (·.1.named?)
    let element ← c.fieldOption "element" fun p => ofJson? p.1
    let access ← c.field "access" (·.1.named?)
    return (ResourceTy.mk kind element access).toTy
  | _ => none
termination_by j
decreasing_by all_goals exact p.sizeOf_lt

end Ty

/-- A resource type by itself. -/
def ResourceTy.toJson (r : ResourceTy) : Json :=
  Ty.resourceJson r.kind (.optional Ty.toJson r.element) r.access

/-! ## Constants -/

namespace Core.Literal

/-- The name of an alternative. -/
def tag : Literal → String
  | .bool _ => "Bool"
  | .int _ => "Int"
  | .uint _ => "UInt"
  | .float _ => "Float"

def content (float : Binary32 → Json) : Literal → Json
  | .bool value => .bool value
  | .int value => .integer value.toInt
  | .uint value => .natural value.toNat
  | .float value => float value

def toJson (float : Binary32 → Json) (l : Literal) : Json :=
  .variant l.tag (some (l.content float))

def ofJson? (number : Json.Number → Option Binary32) (j : Json) : Option Literal :=
  match j.variant? with
  | some ("Bool", some c) => c.1.bool?.map .bool
  | some ("Int", some c) => c.1.int32?.map .int
  | some ("UInt", some c) => c.1.uint32?.map .uint
  | some ("Float", some c) => (Binary32.ofJson? number c.1).map .float
  | _ => none

end Core.Literal

end Shading
