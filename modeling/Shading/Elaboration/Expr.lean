import Shading.Elaboration.Check
import Shading.Elaboration.Types

/-!
# Elaboration of expressions

`operand` turns a surface expression into a core expression, or says why it has
no counterpart.  Parts are elaborated from left to right, and the first fault
found is the one reported.  An operand may be a resource.  A *value* may not:
`asValue` refuses resources wherever a value is expected.

Most types are those the program wrote.  Literals, resources, indexing, members
and barriers have types of their own.
-/

namespace Shading

/-- What the code of one function is elaborated in. -/
structure Scope where
  program : Program
  /-- The function faults are reported against. -/
  symbol : String
  /-- The type its return statements have to have. -/
  result : Ty

namespace Scope

open Shading.Core (Expr Literal)

/-- Refuses a construct. -/
def fault {α : Type} (s : Scope) (reason : ConstructFault) : Except Error α :=
  Program.fault s.symbol reason

/-- Refuses a construct if there is a reason to. -/
def require (s : Scope) (reason : Option ConstructFault) : Except Error Unit :=
  Program.require s.symbol reason

/-- The type written on an expression. -/
def writtenType (s : Scope) : Option Surface.TypeExpr → Except Error Ty
  | none => s.fault .untyped
  | some ty => s.program.elaborateType s.symbol ty

/-- An operand in a place where a value is expected. -/
def asValue (s : Scope) (e : Expr) : Except Error Expr := do
  s.require e.valueFault?
  return e

/-- An operand in a place where a condition is expected. -/
def asCondition (s : Scope) (e : Expr) : Except Error Expr := do
  let e ← s.asValue e
  s.require e.conditionFault?
  return e

/-! ## Expressions from elaborated parts -/

/-- A constant. -/
def literal (s : Scope) (value : Literal) : Except Error Expr := do
  s.require value.fault?
  return .literal value value.ty

/-- A reference to a resource.  A uniform buffer is referred to as its element. -/
def resource (s : Scope) (name : String) : Except Error Expr :=
  match s.program.resource? name with
  | none => s.fault (.unknownResource name)
  | some d => do
    let r ← s.program.elaborateResource d
    match r.kind, r.element with
    | .uniformBuffer, some element => return .resource name element
    | _, _ => return .resource name r.toTy

/-- A field of a struct value. -/
def fieldMember (s : Scope) (base : Expr) (struct member : String) : Except Error Expr :=
  match s.program.struct? struct with
  | none => s.fault (.unknownStructType struct)
  | some d =>
    match d.field? member with
    | none => s.fault (.noField struct member)
    | some field => return .field base member (← s.program.elaborateValueType s.symbol field.ty)

/-- The type of a choice of components. -/
def swizzleTy (kind : ScalarKind) (components : List UInt8) : Ty :=
  if components.length = 1 then .scalar kind else .vector kind (UInt8.ofNat components.length)

/-- A position in a matrix or a row. -/
def positionLiteral (value : Int32) : Expr := .literal (.int value) .int

/-- A member of a value: a field, a swizzle or a matrix element. -/
def member (s : Scope) (base : Expr) (member : String) : Except Error Expr :=
  match base.ty with
  | .struct name => s.fieldMember base name member
  | .vector kind size =>
    match Core.swizzle? member size.toNat with
    | none => s.fault (.invalidSwizzle member base.ty)
    | some components => .ok (.swizzle base components (swizzleTy kind components))
  | .matrix =>
    match Core.matrixMember? member with
    | none => s.fault (.invalidMatrixMember member)
    | some (row, column) =>
      .ok (.index (.index base (positionLiteral row) .float4) (positionLiteral column) .float)
  | ty => s.fault (.noMember ty member)

/-- An element of an indexed value. -/
def element (s : Scope) (base position : Expr) : Except Error Expr := do
  if position.ty.isIntegerScalar then
    match Core.elementTy? base.ty with
    | .ok ty => return .index base position ty
    | .error reason => s.fault reason
  else s.fault (.indexType position.ty)

/-- An argument in the place of a parameter. -/
def argument (s : Scope) (callee : String) (position : Nat) (param : ParamDecl) (e : Expr) :
    Except Error Expr := do
  if e.ty.isResource then s.fault (.resourceArgument callee)
  else
    let expected ← s.program.elaborateType s.symbol param.ty
    if e.ty ≠ expected then
      s.fault (.argumentType position param.name callee e.ty expected)
    else
      s.require (if param.passing = .input then none else e.writeFault?)
      return e

/-- The type of a call of an intrinsic. -/
def intrinsicTy (s : Scope) (i : Intrinsic) (ty : Option Surface.TypeExpr) : Except Error Ty :=
  if i = .barrier then .ok .void else s.writtenType ty

/-! ## Elaboration -/

mutual

/-- The core expression that a surface expression stands for. -/
def operand (s : Scope) : Surface.Expr → Except Error Expr
  | .literal value _ => s.literal value
  | .var name ty => return .var name (← s.writtenType ty)
  | .resource name _ => s.resource name
  | .member base member _ => do
    let base ← s.asValue (← s.operand base)
    s.member base member
  | .index base position _ => do
    let base ← s.operand base
    let position ← s.asValue (← s.operand position)
    s.element base position
  | .unary op operand ty => do
    let operand ← s.asValue (← s.operand operand)
    s.require (if op.isMutating then operand.writeFault? else none)
    return .unary op operand (← s.writtenType ty)
  | .binary op lhs rhs ty => do
    let lhs ← s.asValue (← s.operand lhs)
    let rhs ← s.asValue (← s.operand rhs)
    s.require (Core.binaryFault? op lhs.ty rhs.ty)
    return .binary op lhs rhs (← s.writtenType ty)
  | .conditional condition yes no ty => do
    let condition ← s.asCondition (← s.operand condition)
    let yes ← s.asValue (← s.operand yes)
    let no ← s.asValue (← s.operand no)
    return .conditional condition yes no (← s.writtenType ty)
  | .call (.function name) args ty =>
    match s.program.function? name with
    | none => s.fault (.unknownFunction name)
    | some d => do
      s.require (Core.countFault? name d.params.length args.length)
      let args ← s.arguments name 1 d.params args
      return .call name args (← s.writtenType ty)
  | .call (.intrinsic name) args ty =>
    match Named.ofName? (α := Intrinsic) name with
    | none => .error (.unsupportedIntrinsic none name s.symbol)
    | some i => do
      s.require (Core.countFault? i.name i.arity args.length)
      let args ← s.operands args
      s.require (Core.intrinsicFault? i args)
      return .intrinsic i args (← s.intrinsicTy i ty)
  | .construct args ty => do
    let ty ← s.writtenType ty
    let args ← s.values args
    s.require (Core.constructFault? ty (args.map Expr.ty))
    return .construct args ty
  | .cast operand ty => do
    let ty ← s.writtenType ty
    let operand ← s.asValue (← s.operand operand)
    s.require (Core.castFault? operand.ty ty)
    return .cast operand ty
  | .enumValue _ _ value _ => .ok (.literal (.int value) .int)
  | .host construct _ => s.fault (.hostConstruct construct)

/-- Several expressions that may be resources. -/
def operands (s : Scope) : List Surface.Expr → Except Error (List Expr)
  | [] => .ok []
  | e :: rest => do
    let e ← s.operand e
    return e :: (← s.operands rest)

/-- Several expressions that may not be resources. -/
def values (s : Scope) : List Surface.Expr → Except Error (List Expr)
  | [] => .ok []
  | e :: rest => do
    let e ← s.asValue (← s.operand e)
    return e :: (← s.values rest)

/-- The arguments of a call, from the given position on. -/
def arguments (s : Scope) (callee : String) :
    Nat → List ParamDecl → List Surface.Expr → Except Error (List Expr)
  | position, param :: params, e :: rest => do
    let e ← s.argument callee position param (← s.operand e)
    return e :: (← s.arguments callee (position + 1) params rest)
  | _, _, _ => .ok []

end

/-- The core expression of a surface expression in a place for a value. -/
def value (s : Scope) (e : Surface.Expr) : Except Error Expr := do
  s.asValue (← s.operand e)

/-- The core expression of a surface expression in a place for a condition. -/
def condition (s : Scope) (e : Surface.Expr) : Except Error Expr := do
  s.asCondition (← s.operand e)

end Scope

end Shading
