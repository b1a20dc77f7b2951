import Shading.Core.Basic

/-!
# The surface language

Programs arrive in the surface language.  It is open where the core language is
closed.  A type may be a host type, an expression may be untyped, and a host
construct may stand where no target has one.  Elaboration turns surface code
into core code or says what has no counterpart (`Shading.Elaboration`).
-/

namespace Shading.Surface

open Shading.Core (Literal)

/-- A type as it is written. -/
inductive TypeExpr where
  | void
  | scalar (kind : ScalarKind)
  | vector (kind : ScalarKind) (size : UInt8)
  | matrix (rows columns : UInt8)
  /-- A struct by its qualified name. -/
  | named (name : String)
  | array (element : TypeExpr) (length : UInt32)
  /-- A host type without a counterpart. -/
  | host (name : String)
deriving DecidableEq, Repr

/-- What a call names. -/
inductive Callee where
  /-- A declared function by its qualified name. -/
  | function (name : String)
  /-- An intrinsic by its name. -/
  | intrinsic (name : String)
deriving DecidableEq, Repr

/-- An expression.  The last argument of each constructor is its type, where the
type was resolved. -/
inductive Expr where
  | literal (value : Literal) (ty : Option TypeExpr)
  /-- A local variable or a parameter. -/
  | var (name : String) (ty : Option TypeExpr)
  /-- A declared resource. -/
  | resource (name : String) (ty : Option TypeExpr)
  /-- A struct field, a swizzle or a matrix element `M11` to `M44`. -/
  | member (base : Expr) (member : String) (ty : Option TypeExpr)
  | index (base position : Expr) (ty : Option TypeExpr)
  | unary (op : UnaryOp) (operand : Expr) (ty : Option TypeExpr)
  | binary (op : BinaryOp) (lhs rhs : Expr) (ty : Option TypeExpr)
  | conditional (condition yes no : Expr) (ty : Option TypeExpr)
  | call (callee : Callee) (args : List Expr) (ty : Option TypeExpr)
  /-- A value of the expression's type from its components. -/
  | construct (args : List Expr) (ty : Option TypeExpr)
  /-- A conversion to the expression's type. -/
  | cast (operand : Expr) (ty : Option TypeExpr)
  /-- A member of a host enumeration, with its value. -/
  | enumValue (enumeration member : String) (value : Int32) (ty : Option TypeExpr)
  /-- A host construct, named. -/
  | host (construct : String) (ty : Option TypeExpr)
deriving Repr

/-- The type written on an expression. -/
def Expr.ty? : Expr → Option TypeExpr
  | .literal _ ty | .var _ ty | .resource _ ty | .member _ _ ty | .index _ _ ty | .unary _ _ ty
  | .binary _ _ _ ty | .conditional _ _ _ ty | .call _ _ ty | .construct _ ty | .cast _ ty
  | .enumValue _ _ _ ty | .host _ ty => ty

mutual

/-- A statement. -/
inductive Stmt where
  | declare (name : String) (ty : TypeExpr) (init : Option Expr)
  | assign (target : Expr) (op : AssignOp) (value : Expr)
  | expr (value : Expr)
  | branch (condition : Expr) (yes : List Stmt) (no : Option (List Stmt))
  | forLoop (init : List Stmt) (condition : Option Expr) (step body : List Stmt)
  | whileLoop (condition : Expr) (body : List Stmt)
  | doLoop (body : List Stmt) (condition : Expr)
  | switch (selector : Expr) (cases : List Case) (default : Option (List Stmt))
  | ret (value : Option Expr)
  | leave
  | next
  | block (body : List Stmt)
  /-- A host statement, named. -/
  | host (construct : String)

/-- A case of a switch: the labels that lead to it and its body. -/
inductive Case where
  | mk (labels : List Expr) (body : List Stmt)

end

end Shading.Surface
