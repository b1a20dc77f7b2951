import Shading.Binary32.Basic
import Shading.Intrinsic
import Shading.Operator
import Shading.Type

/-!
# The core language

Function bodies of a model are written in the core language.  Every expression
carries its type, and no construct is left that a target could not spell.  The
surface language (`Shading.Surface`) is what bodies are written in before.

The inductive types nest lists, so a function over expressions comes with one
over lists of expressions, and a function over statements with ones over
statement lists, optional blocks and cases.  All of them are structural.
-/

namespace Shading.Core

/-- A constant. -/
inductive Literal where
  | bool (value : Bool)
  | int (value : Int32)
  | uint (value : UInt32)
  | float (value : Binary32)
deriving DecidableEq, Repr

/-- The type of a constant. -/
def Literal.ty : Literal → Ty
  | .bool _ => .bool
  | .int _ => .int
  | .uint _ => .uint
  | .float _ => .float

/-- Constants a switch can branch on. -/
def Literal.isInteger : Literal → Bool
  | .int _ | .uint _ => true
  | _ => false

/-- A typed expression.  The last argument of each constructor is the type. -/
inductive Expr where
  | literal (value : Literal) (ty : Ty)
  /-- A local variable or a parameter. -/
  | var (name : String) (ty : Ty)
  /-- A global resource. -/
  | resource (name : String) (ty : Ty)
  | field (base : Expr) (field : String) (ty : Ty)
  /-- Components by position: `[0, 1]` for `.xy`. -/
  | swizzle (base : Expr) (components : List UInt8) (ty : Ty)
  | index (base position : Expr) (ty : Ty)
  | unary (op : UnaryOp) (operand : Expr) (ty : Ty)
  | binary (op : BinaryOp) (lhs rhs : Expr) (ty : Ty)
  | conditional (condition yes no : Expr) (ty : Ty)
  /-- A call of a declared function by its qualified name. -/
  | call (function : String) (args : List Expr) (ty : Ty)
  | intrinsic (intrinsic : Intrinsic) (args : List Expr) (ty : Ty)
  /-- A vector or a matrix from its components. -/
  | construct (args : List Expr) (ty : Ty)
  /-- A conversion to the type of the expression. -/
  | cast (operand : Expr) (ty : Ty)
deriving Repr

/-- The type of an expression. -/
def Expr.ty : Expr → Ty
  | .literal _ ty | .var _ ty | .resource _ ty | .field _ _ ty | .swizzle _ _ ty | .index _ _ ty
  | .unary _ _ ty | .binary _ _ _ ty | .conditional _ _ _ ty | .call _ _ ty | .intrinsic _ _ ty
  | .construct _ ty | .cast _ ty => ty

/-- The resource an expression names directly. -/
def Expr.resourceName? : Expr → Option String
  | .resource name _ => some name
  | _ => none

/-- The sub-expressions one level down, in source order. -/
def Expr.children : Expr → List Expr
  | .literal _ _ | .var _ _ | .resource _ _ => []
  | .field base _ _ | .swizzle base _ _ => [base]
  | .index base position _ => [base, position]
  | .unary _ operand _ | .cast operand _ => [operand]
  | .binary _ lhs rhs _ => [lhs, rhs]
  | .conditional condition yes no _ => [condition, yes, no]
  | .call _ args _ | .intrinsic _ args _ | .construct args _ => args

mutual

/-- A statement. -/
inductive Stmt where
  | declare (name : String) (ty : Ty) (init : Option Expr)
  | assign (target : Expr) (op : AssignOp) (value : Expr)
  | expr (value : Expr)
  | branch (condition : Expr) (yes : List Stmt) (no : Option (List Stmt))
  | forLoop (init : List Stmt) (condition : Option Expr) (step body : List Stmt)
  | whileLoop (condition : Expr) (body : List Stmt)
  | doLoop (body : List Stmt) (condition : Expr)
  | switch (selector : Expr) (cases : List Case) (default : Option (List Stmt))
  | ret (value : Option Expr)
  | leave
  | next
  | block (body : List Stmt)

/-- A case of a switch: the labels that lead to it and its body. -/
inductive Case where
  | mk (labels : List Literal) (body : List Stmt)

end

/-- The labels that lead to a case. -/
def Case.labels : Case → List Literal
  | .mk labels _ => labels

/-- The statements of a case. -/
def Case.body : Case → List Stmt
  | .mk _ body => body

/-- The expressions that stand in a statement itself, not in a nested one. -/
def Stmt.exprs : Stmt → List Expr
  | .declare _ _ init => init.toList
  | .assign target _ value => [target, value]
  | .expr value => [value]
  | .branch condition _ _ | .whileLoop condition _ | .doLoop _ condition => [condition]
  | .forLoop _ condition _ _ => condition.toList
  | .switch selector _ _ => [selector]
  | .ret value => value.toList
  | .leave | .next | .block _ => []

/-- The statement lists one level down, in source order. -/
def Stmt.bodies : Stmt → List (List Stmt)
  | .branch _ yes no => yes :: no.toList
  | .forLoop init _ step body => [init, step, body]
  | .whileLoop _ body | .doLoop body _ | .block body => [body]
  | .switch _ cases default => cases.map Case.body ++ default.toList
  | .declare _ _ _ | .assign _ _ _ | .expr _ | .ret _ | .leave | .next => []

/-- Declarations, assignments and expressions, which stand on one line. -/
def Stmt.isSimple : Stmt → Bool
  | .declare _ _ _ | .assign _ _ _ | .expr _ => true
  | _ => false

/-- Assignments and expressions, which may step a loop. -/
def Stmt.isStep : Stmt → Bool
  | .assign _ _ _ | .expr _ => true
  | _ => false

end Shading.Core
