import Shading.Core.Swizzle
import Shading.Target.Dialect

/-!
# Function bodies

Core code is written with the spellings of a dialect.  Every unary, binary and
conditional expression stands in parentheses, so the order of evaluation never
depends on a target's precedence.

A `for` header holds one initializer.  With more of them the loop stands in a
block that starts with all of them.
-/

namespace Shading.Dialect

open Shading.Core (Expr Stmt Case)

/-! ## Expressions -/

/-- An operator applied to one operand. -/
def unaryText (op : UnaryOp) (operand : String) : String :=
  if op.isPostfix then "(" ++ operand ++ op.symbol ++ ")" else "(" ++ op.symbol ++ operand ++ ")"

mutual

/-- An expression. -/
def expr (d : Dialect) (c : Context) : Expr → Except Error String
  | .literal value _ => .ok (d.literalText value)
  | .var name _ => .ok (d.identifier name)
  | .resource name _ =>
    match c.model.resource? name with
    | none => .error (.construct c.symbol (.unknownResource name))
    | some b => .ok (d.identifier b.name)
  | .field base field _ => return (← d.expr c base) ++ "." ++ d.identifier field
  | .swizzle base components _ => return (← d.expr c base) ++ "." ++ Core.swizzleText components
  | .index base position _ => do
    let base ← d.expr c base
    let position ← d.expr c position
    return base ++ "[" ++ position ++ "]"
  | .unary op operand _ => return unaryText op (← d.expr c operand)
  | .binary op lhs rhs _ => do
    let left ← d.expr c lhs
    let right ← d.expr c rhs
    return d.binary op ⟨left, lhs.ty⟩ ⟨right, rhs.ty⟩
  | .conditional condition yes no _ => do
    let condition ← d.expr c condition
    let yes ← d.expr c yes
    let no ← d.expr c no
    return "(" ++ condition ++ " ? " ++ yes ++ " : " ++ no ++ ")"
  | .call function args _ =>
    match c.model.function? function with
    | none => .error (.construct c.symbol (.unknownFunction function))
    | some f => return callText (d.functionName c.model c.stage f) (← d.operands c args)
  | .intrinsic i args _ => do d.intrinsic c.symbol i (← d.operands c args)
  | .construct args ty => do
    let args ← d.operands c args
    return callText (← d.typeName ty) args
  | .cast operand ty => do d.cast ty (← d.expr c operand)

/-- Several expressions, with their types. -/
def operands (d : Dialect) (c : Context) : List Expr → Except Error (List Operand)
  | [] => .ok []
  | e :: rest => do
    let text ← d.expr c e
    return ⟨text, e.ty⟩ :: (← d.operands c rest)

end

/-- An expression that may be missing. -/
def optionalExpr (d : Dialect) (c : Context) : Option Expr → Except Error String
  | none => .ok ""
  | some e => d.expr c e

/-! ## Statements -/

/-- A statement that stands on one line, without the semicolon. -/
def simple (d : Dialect) (c : Context) : Stmt → Except Error String
  | .declare name ty init => do
    let declaration ← d.declaration ty (d.identifier name)
    match init with
    | none => return declaration
    | some init => return declaration ++ " = " ++ (← d.expr c init)
  | .assign target op value => do
    let target ← d.expr c target
    let value ← d.expr c value
    return target ++ " " ++ op.symbol ++ " " ++ value
  | .expr value => d.expr c value
  | _ => .error (.construct c.symbol .forHeader)

/-- A statement that stands on one line, with the semicolon. -/
def simpleLine (d : Dialect) (c : Context) (s : Stmt) : Except Error Code := do
  return Code.line ((← d.simple c s) ++ ";")

/-- The line that heads a loop, a branch or a switch. -/
def headText (keyword condition : String) : String := keyword ++ " " ++ parenthesized condition

/-- The line that heads a `for`. -/
def forText (init condition step : String) : String :=
  "for (" ++ init ++ "; " ++ condition ++ "; " ++ step ++ ")"

/-- The labels of a case, one on each line. -/
def labelLines (d : Dialect) (labels : List Core.Literal) : Code :=
  labels.flatMap fun label => Code.line ("case " ++ d.literalText label ++ ":")

mutual

/-- A statement. -/
def stmt (d : Dialect) (c : Context) : Stmt → Except Error Code
  | s@(.declare _ _ _) | s@(.assign _ _ _) | s@(.expr _) => d.simpleLine c s
  | .branch condition yes no => do
    let condition ← d.expr c condition
    let yes ← d.stmts c yes
    let no ← d.elseBlock c no
    return Code.line (headText "if" condition) ++ Code.block yes "" ++ no
  | .forLoop init condition step body => do
    let condition ← d.optionalExpr c condition
    let step ← step.mapM (d.simple c)
    match init with
    | [] =>
      let body ← d.stmts c body
      return Code.line (forText "" condition (", ".intercalate step)) ++ Code.block body ""
    | [first] =>
      let first ← d.simple c first
      let body ← d.stmts c body
      return Code.line (forText first condition (", ".intercalate step)) ++ Code.block body ""
    | first :: rest =>
      let first ← d.stmt c first
      let rest ← d.stmts c rest
      let body ← d.stmts c body
      return Code.block
        (first ++ rest ++
          Code.line (forText "" condition (", ".intercalate step)) ++ Code.block body "") ""
  | .whileLoop condition body => do
    let condition ← d.expr c condition
    let body ← d.stmts c body
    return Code.line (headText "while" condition) ++ Code.block body ""
  | .doLoop body condition => do
    let body ← d.stmts c body
    let condition ← d.expr c condition
    return Code.line "do" ++ Code.block body (" " ++ headText "while" condition ++ ";")
  | .switch selector cases default => do
    let selector ← d.expr c selector
    let cases ← d.cases c cases
    let default ← d.defaultBlock c default
    return Code.line (headText "switch" selector) ++ Code.block (cases ++ default) ""
  | .ret none => .ok (Code.line "return;")
  | .ret (some value) => return Code.line ("return " ++ (← d.expr c value) ++ ";")
  | .leave => .ok (Code.line "break;")
  | .next => .ok (Code.line "continue;")
  | .block body => return Code.block (← d.stmts c body) ""

/-- Statements, in order. -/
def stmts (d : Dialect) (c : Context) : List Stmt → Except Error Code
  | [] => .ok []
  | first :: rest => do
    let first ← d.stmt c first
    return first ++ (← d.stmts c rest)

/-- What follows a branch when its condition is false. -/
def elseBlock (d : Dialect) (c : Context) : Option (List Stmt) → Except Error Code
  | none => .ok []
  | some body => return Code.line "else" ++ Code.block (← d.stmts c body) ""

/-- The case of a switch that no label leads to. -/
def defaultBlock (d : Dialect) (c : Context) : Option (List Stmt) → Except Error Code
  | none => .ok []
  | some body => return Code.line "default:" ++ Code.block (← d.stmts c body) ""

/-- The cases of a switch, in order. -/
def cases (d : Dialect) (c : Context) : List Case → Except Error Code
  | [] => .ok []
  | .mk labels body :: rest => do
    let body ← d.stmts c body
    return d.labelLines labels ++ Code.block body "" ++ (← d.cases c rest)

end

/-! ## Functions -/

/-- The head of a function. -/
def signature (d : Dialect) (c : Context) (f : Function) : Except Error String := do
  let params ← f.params.mapM d.parameter
  let result ← d.typeName f.result
  return result ++ " " ++ d.functionName c.model c.stage f ++ "(" ++ ", ".intercalate params ++ ")"

/-- A function with text behind its head. -/
def functionWith (d : Dialect) (c : Context) (f : Function) (suffix : String) :
    Except Error Code := do
  let head ← d.signature c f
  let body ← d.stmts (c.within f) f.body
  return Code.line (head ++ suffix) ++ Code.block body ""

/-- A function, and an empty line behind it. -/
def function (d : Dialect) (c : Context) (f : Function) : Except Error Code := do
  return (← d.functionWith c f "") ++ Code.blank

end Shading.Dialect
