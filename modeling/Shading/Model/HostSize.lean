import Shading.Model.Basic

/-!
# Host sizes

The size of a type is the size in bytes of a host value with the same fields and
no gaps between them.  A struct is as large as its fields together, an array as
all its elements.  Structs are looked up by name, and no struct contains itself,
so the number of structs bounds the nesting.
-/

namespace Shading

/-- Structs by name. -/
abbrev StructTable := List (String × StructDef)

/-- The struct of a name. -/
def StructTable.get? (structs : StructTable) (name : String) : Option StructDef :=
  structs.lookup name

/-- The size of a type, given the sizes of structs. -/
def Ty.hostSize (structSize : String → Nat) : Ty → Nat
  | .void | .resource _ _ | .resourceOf _ _ _ => 0
  | .scalar _ => 4
  | .vector _ size => 4 * size.toNat
  | .matrix => 64
  | .struct name => structSize name
  | .array element length => element.hostSize structSize * length.toNat

/-- The size of a struct, when structs nest at most `depth` deep. -/
def StructTable.sizeWithin (structs : StructTable) : (depth : Nat) → String → Nat
  | 0, _ => 0
  | depth + 1, name =>
    match structs.get? name with
    | none => 0
    | some d => d.fields.foldl
        (fun size field => size + field.ty.hostSize (structs.sizeWithin depth)) 0

/-- The size of a type in bytes. -/
def StructTable.hostSize (structs : StructTable) (ty : Ty) : Nat :=
  ty.hostSize (structs.sizeWithin structs.length)

end Shading
