import Shading.Elaboration.Expr

/-!
# Elaboration of statements

Statements are elaborated in the order they are written, and so are their parts.
The init and step of a `for` are checked for their form after they are
elaborated.  A product that is assigned to its own target is written out when a
matrix takes part in it, since no target has a compound operator for it.
-/

namespace Shading.Scope

open Shading.Core (Expr Literal)

/-- The label of a case. -/
def label (s : Scope) (e : Surface.Expr) : Except Error Literal := do
  match ← s.value e with
  | .literal (.int value) _ => return .int value
  | .literal (.uint value) _ => return .uint value
  | _ => s.fault .switchLabel

/-- An assignment.  A product through a matrix becomes a plain assignment. -/
def assignment (target : Expr) (op : AssignOp) (value : Expr) : Core.Stmt :=
  if op = .mul && (target.ty.isMatrix || value.ty.isMatrix) then
    .assign target .assign (.binary .mul target value target.ty)
  else .assign target op value

/-- The value a declaration starts with. -/
def initializer (s : Scope) (ty : Ty) : Option Surface.Expr → Except Error (Option Expr)
  | none => .ok none
  | some init => do
    let init ← s.value init
    s.require (init.typeFault? .initializer ty)
    return some init

/-- The condition of a `for`, which may be missing. -/
def optionalCondition (s : Scope) : Option Surface.Expr → Except Error (Option Expr)
  | none => .ok none
  | some e => return some (← s.condition e)

/-- A return statement. -/
def return? (s : Scope) : Option Surface.Expr → Except Error Core.Stmt
  | none => if s.result.isVoid then .ok (.ret none) else s.fault (.missingResult s.result)
  | some value => do
    let value ← s.value value
    s.require (value.typeFault? .returnValue s.result)
    return .ret (some value)

/-- Labels, in order. -/
def labels (s : Scope) : List Surface.Expr → Except Error (List Literal)
  | [] => .ok []
  | e :: rest => do
    let literal ← s.label e
    return literal :: (← s.labels rest)

/-- Why statements cannot stand in a `for` header. -/
def headerFault? (fits : Core.Stmt → Bool) (reason : ConstructFault) (body : List Core.Stmt) :
    Option ConstructFault :=
  if body.all fits then none else some reason

mutual

/-- The core statement that a surface statement stands for. -/
def stmt (s : Scope) : Surface.Stmt → Except Error Core.Stmt
  | .declare name ty init => do
    let ty ← s.program.elaborateValueType s.symbol ty
    return .declare name ty (← s.initializer ty init)
  | .assign target op value => do
    let target ← s.value target
    s.require target.writeFault?
    let value ← s.value value
    s.require (Core.assignFault? target op value)
    return assignment target op value
  | .expr value => return .expr (← s.value value)
  | .branch condition yes no => do
    let condition ← s.condition condition
    let yes ← s.stmts yes
    return .branch condition yes (← s.optionalStmts no)
  | .forLoop init condition step body => do
    let init ← s.stmts init
    s.require (headerFault? Core.Stmt.isSimple .forInitializer init)
    let condition ← s.optionalCondition condition
    let step ← s.stmts step
    s.require (headerFault? Core.Stmt.isStep .forIncrement step)
    return .forLoop init condition step (← s.stmts body)
  | .whileLoop condition body => do
    let condition ← s.condition condition
    return .whileLoop condition (← s.stmts body)
  | .doLoop body condition => do
    let body ← s.stmts body
    return .doLoop body (← s.condition condition)
  | .switch selector cases default => do
    let selector ← s.value selector
    if selector.ty.isIntegerScalar then
      let cases ← s.cases cases
      return .switch selector cases (← s.optionalStmts default)
    else s.fault (.selectorType selector.ty)
  | .ret value => s.return? value
  | .leave => .ok .leave
  | .next => .ok .next
  | .block body => return .block (← s.stmts body)
  | .host construct => s.fault (.hostConstruct construct)

/-- Statements, in order. -/
def stmts (s : Scope) : List Surface.Stmt → Except Error (List Core.Stmt)
  | [] => .ok []
  | first :: rest => do
    let first ← s.stmt first
    return first :: (← s.stmts rest)

/-- A block that may be missing. -/
def optionalStmts (s : Scope) : Option (List Surface.Stmt) → Except Error (Option (List Core.Stmt))
  | none => .ok none
  | some body => return some (← s.stmts body)

/-- Cases, in order: the labels of each before its body. -/
def cases (s : Scope) : List Surface.Case → Except Error (List Core.Case)
  | [] => .ok []
  | .mk labels body :: rest => do
    let labels ← s.labels labels
    let body ← s.stmts body
    return .mk labels body :: (← s.cases rest)

end

end Shading.Scope
