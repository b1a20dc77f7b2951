import Shading.Fault
import Shading.Model.Basic

/-!
# Elaboration of types and declarations

A written type becomes a type, or the fault that it has no counterpart.  Faults
are reported against the declaration the type stands in (`symbol`).  Struct
fields, locals, parameters and buffer elements are *values*, and a value is not
void.
-/

namespace Shading.Program

/-- Refuses a construct of a declaration. -/
def fault {α : Type} (symbol : String) (reason : ConstructFault) : Except Error α :=
  .error (.construct symbol reason)

/-- Refuses a construct of a declaration if there is a reason to. -/
def require (symbol : String) : Option ConstructFault → Except Error Unit
  | none => .ok ()
  | some reason => fault symbol reason

/-- Why a type cannot be the element type of an array. -/
def elementFault? (element : Ty) (length : UInt32) : Option ConstructFault :=
  if element.isVoid || element.isArray then some (.arrayElement element)
  else if length = 0 then some .emptyArray
  else none

/-- The type that a written type stands for. -/
def elaborateType (p : Program) (symbol : String) : Surface.TypeExpr → Except Error Ty
  | .void => .ok .void
  | .scalar kind => .ok (.scalar kind)
  | .vector kind size =>
    if 2 ≤ size && size ≤ 4 then .ok (.vector kind size) else fault symbol (.vectorSize size)
  | .matrix rows columns =>
    if rows = 4 && columns = 4 then .ok .matrix else fault symbol (.matrixShape rows columns)
  | .named name =>
    if (p.struct? name).isSome then .ok (.struct name) else fault symbol (.unknownStructType name)
  | .array element length => do
    let element ← p.elaborateType symbol element
    require symbol (elementFault? element length)
    return .array element length
  | .host name => fault symbol (.hostType name)

/-- The type of a field, a local variable, a parameter or a buffer element. -/
def elaborateValueType (p : Program) (symbol : String) (ty : Surface.TypeExpr) :
    Except Error Ty := do
  let ty ← p.elaborateType symbol ty
  if ty.isVoid then fault symbol .voidValue else return ty

/-! ## Structs -/

/-- Why a field cannot follow the fields before it. -/
def fieldFault? (earlier : List String) (field : FieldDecl) : Option ConstructFault :=
  if field.name ∈ earlier then some (.duplicateField field.name) else none

/-- The fields of a struct, after fields of the given names. -/
def elaborateFields (p : Program) (struct : String) :
    List String → List FieldDecl → Except Error (List Field)
  | _, [] => .ok []
  | earlier, field :: rest => do
    require struct (fieldFault? earlier field)
    let ty ← p.elaborateValueType struct field.ty
    if ty.structName? = some struct then fault struct .structContainsItself
    else
      let rest ← p.elaborateFields struct (earlier ++ [field.name]) rest
      return ⟨field.name, ty, field.semantic⟩ :: rest

/-- The struct a declaration stands for. -/
def elaborateStruct (p : Program) (d : StructDecl) : Except Error StructDef := do
  return ⟨d.name, ← p.elaborateFields d.name [] d.fields⟩

/-! ## Resources -/

/-- The element type of a resource, which only buffers have. -/
def elaborateElement (p : Program) (d : ResourceDecl) : Except Error (Option Ty) :=
  if d.kind.isBuffer then
    match d.element with
    | none => fault d.name (.missingElement d.kind)
    | some element => return some (← p.elaborateValueType d.name element)
  else .ok none

/-- Why a resource of a kind cannot have an access mode. -/
def accessFault? (kind : ResourceKind) (access : Access) : Option ConstructFault :=
  if access = .readWrite ∧ kind ≠ .structuredBuffer then some (.notWritableKind kind) else none

/-- The type of a resource. -/
def elaborateResource (p : Program) (d : ResourceDecl) : Except Error ResourceTy := do
  let element ← p.elaborateElement d
  require d.name (accessFault? d.kind d.access)
  return ⟨d.kind, element, d.access⟩

end Shading.Program
