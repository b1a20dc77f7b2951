import Shading.Core.Swizzle
import Shading.Fault

/-!
# Checks on core code

Elaboration puts core code together and then checks it.  Each check here is a
function to `Option ConstructFault`: it gives the reason to refuse, or `none`.
The checks look at types and at the form of expressions only.
-/

namespace Shading.Core

/-! ## Writes -/

/-- Why an expression cannot be written.  Local variables can be written, and so
can their fields, components and elements.  Of the resources only the elements of
a structured buffer bound for writing can be. -/
def Expr.writeFault? : Expr → Option ConstructFault
  | .var _ _ => none
  | .field base _ _ => base.writeFault?
  | .swizzle base components _ =>
    if components.Nodup then base.writeFault? else some .repeatedComponents
  | .index base _ _ =>
    match base.ty.resource? with
    | some r =>
      if r.isWritable then none else some (.readOnly (base.resourceName?.getD "resource"))
    | none => base.writeFault?
  | .resource name _ => some (.readOnly name)
  | _ => some .notAssignable

/-- Why a value cannot be assigned to a target by an operator. -/
def assignFault? (target : Expr) (op : AssignOp) (value : Expr) : Option ConstructFault :=
  if op = .rem && !(target.ty.isInteger && value.ty.isInteger) then
    some (.assignedRemainder target.ty value.ty)
  else if op = .assign && value.ty ≠ target.ty then
    some (.typeMismatch .assignedValue value.ty target.ty)
  else none

/-! ## Values -/

/-- Why an expression cannot stand where a value is expected: it is a resource. -/
def Expr.valueFault? (e : Expr) : Option ConstructFault :=
  e.ty.resource?.map fun r => .misplacedResource r.kind (e.resourceName?.getD "resource")

/-- Why an expression does not have the type it has to have. -/
def Expr.typeFault? (e : Expr) (what : Checked) (expected : Ty) : Option ConstructFault :=
  if e.ty = expected then none else some (.typeMismatch what e.ty expected)

/-- Why an expression cannot be a condition. -/
def Expr.conditionFault? (e : Expr) : Option ConstructFault :=
  if e.ty = .bool then none else some (.conditionType e.ty)

/-- Why a constant cannot stand in core code. -/
def Literal.fault? : Literal → Option ConstructFault
  | .float value => if value.isFinite then none else some (.infiniteLiteral value)
  | _ => none

/-- Why two operands cannot be combined. -/
def binaryFault? (op : BinaryOp) (lhs rhs : Ty) : Option ConstructFault :=
  if op = .rem && !(lhs.isInteger && rhs.isInteger) then some (.remainder lhs rhs) else none

/-- Scalars convert to scalars, and vectors to vectors of their size. -/
def castFault? (source target : Ty) : Option ConstructFault :=
  match target, source with
  | .scalar _, .scalar _ => none
  | .vector _ a, .vector _ b => if a = b then none else some (.conversion source target)
  | _, _ => some (.conversion source target)

/-- The type of an element of an indexed value. -/
def elementTy? (base : Ty) : Except ConstructFault Ty :=
  match base with
  | .array element _ => .ok element
  | .vector kind _ => .ok (.scalar kind)
  | .matrix => .ok .float4
  | _ =>
    match base.resource? with
    | some ⟨.structuredBuffer, some element, _⟩ => .ok element
    | some ⟨.structuredBuffer, none, _⟩ => .error .elementlessBuffer
    | _ => .error (.notIndexable base)

/-- The number of components that values of some types have together. -/
def givenComponents (args : List Ty) : Nat := (args.filterMap Ty.components?).foldl (· + ·) 0

/-- Why components do not make up a value of a type.  The components of a vector or
a matrix are counted, and a single scalar fills a vector. -/
def constructFault? (ty : Ty) (args : List Ty) : Option ConstructFault :=
  let check (expected : Nat) : Option ConstructFault :=
    match args.find? (·.components?.isNone) with
    | some argument => some (.notComponent argument ty)
    | none =>
      let given := givenComponents args
      if given = expected || (args.length = 1 && given = 1 && !ty.isMatrix) then none
      else some (.componentCount ty expected given)
  match ty with
  | .vector _ size => check size.toNat
  | .matrix => check 16
  | _ => some (.notConstructible ty)

/-! ## Calls -/

/-- Why a call has the wrong number of arguments. -/
def countFault? (callee : String) (expected given : Nat) : Option ConstructFault :=
  if given = expected then none else some (.argumentCount callee expected given)

/-- The number of coordinates a texture is sampled at. -/
def sampleDimension? : ResourceKind → Option UInt8
  | .texture2D | .depthTexture2D => some 2
  | .texture2DArray | .textureCube => some 3
  | _ => none

/-- Why a texture cannot be sampled through a sampler at coordinates. -/
def sampleFault? (i : Intrinsic) (texture sampler coordinates : Ty) : Option ConstructFault :=
  match texture.resourceKind?.bind sampleDimension? with
  | none => some (.notSampleable i)
  | some size =>
    if sampler.resourceKind? ≠ some .sampler then some (.notSampler i)
    else if coordinates ≠ .vector .float size then some (.sampleCoordinates i size coordinates)
    else none

/-- Why an intrinsic cannot be called with arguments.  Texture operations take a
texture first, and no other intrinsic takes a resource. -/
def intrinsicFault? (i : Intrinsic) (args : List Expr) : Option ConstructFault :=
  match i, args with
  | .sample, [texture, sampler, coordinates] => sampleFault? i texture.ty sampler.ty coordinates.ty
  | .sampleLevel, [texture, sampler, coordinates, level] =>
    (sampleFault? i texture.ty sampler.ty coordinates.ty).or
      (if level.ty = .float then none else some .levelOfDetail)
  | .load, [texture, coordinates, sample] =>
    if texture.ty.resourceKind? ≠ some .texture2DMS then some .notMultisample
    else if !coordinates.ty.isIntegerPair then some (.loadCoordinates coordinates.ty)
    else if !sample.ty.isIntegerScalar then some .loadSample
    else none
  | _, _ =>
    (args.find? (·.ty.isResource)).map fun argument =>
      .intrinsicResource i (argument.resourceName?.getD "a resource")

end Shading.Core
