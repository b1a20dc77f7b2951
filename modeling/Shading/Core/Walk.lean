import Shading.Core.Basic

/-!
# Walks over core code

`Expr.walk` lists an expression and all its sub-expressions, and `Stmt.walkAll`
lists the statements of a body at every depth.  Both are pre-order: a parent
comes before its parts, and parts come in source order.  `exprsOf` lists every
expression of a body: those of each statement in turn, each walked.
-/

namespace Shading.Core

/-! ## Expressions -/

mutual

/-- An expression and all its sub-expressions, parents first. -/
def Expr.walk : Expr → List Expr
  | e@(.literal _ _) | e@(.var _ _) | e@(.resource _ _) => [e]
  | e@(.field base _ _) | e@(.swizzle base _ _) => e :: base.walk
  | e@(.index base position _) => e :: (base.walk ++ position.walk)
  | e@(.unary _ operand _) | e@(.cast operand _) => e :: operand.walk
  | e@(.binary _ lhs rhs _) => e :: (lhs.walk ++ rhs.walk)
  | e@(.conditional condition yes no _) => e :: (condition.walk ++ yes.walk ++ no.walk)
  | e@(.call _ args _) | e@(.intrinsic _ args _) | e@(.construct args _) => e :: Expr.walkAll args

/-- The walks of several expressions, one after the other. -/
def Expr.walkAll : List Expr → List Expr
  | [] => []
  | e :: rest => e.walk ++ Expr.walkAll rest

end

theorem Expr.walkAll_eq_flatMap (es : List Expr) : Expr.walkAll es = es.flatMap Expr.walk := by
  induction es with
  | nil => rfl
  | cons e rest ih => simp [Expr.walkAll, ih]

/-- A walk starts at the expression and walks its children. -/
theorem Expr.walk_eq (e : Expr) : e.walk = e :: e.children.flatMap Expr.walk := by
  cases e <;> simp [Expr.walk, Expr.children, Expr.walkAll_eq_flatMap]

/-! ## Statements -/

mutual

/-- A statement and all statements nested in it, parents first. -/
def Stmt.walk : Stmt → List Stmt
  | s@(.declare _ _ _) | s@(.assign _ _ _) | s@(.expr _) | s@(.ret _) => [s]
  | .leave => [.leave]
  | .next => [.next]
  | s@(.branch _ yes no) => s :: (Stmt.walkAll yes ++ Stmt.walkOption no)
  | s@(.forLoop init _ step body) =>
    s :: (Stmt.walkAll init ++ Stmt.walkAll step ++ Stmt.walkAll body)
  | s@(.whileLoop _ body) | s@(.doLoop body _) | s@(.block body) => s :: Stmt.walkAll body
  | s@(.switch _ cases default) => s :: (Stmt.walkCases cases ++ Stmt.walkOption default)

/-- The walks of several statements, one after the other. -/
def Stmt.walkAll : List Stmt → List Stmt
  | [] => []
  | s :: rest => s.walk ++ Stmt.walkAll rest

/-- The walk of a block that may be missing. -/
def Stmt.walkOption : Option (List Stmt) → List Stmt
  | none => []
  | some body => Stmt.walkAll body

/-- The walks of the bodies of cases, one after the other. -/
def Stmt.walkCases : List Case → List Stmt
  | [] => []
  | .mk _ body :: rest => Stmt.walkAll body ++ Stmt.walkCases rest

end

theorem Stmt.walkAll_eq_flatMap (body : List Stmt) :
    Stmt.walkAll body = body.flatMap Stmt.walk := by
  induction body with
  | nil => rfl
  | cons s rest ih => simp [Stmt.walkAll, ih]

theorem Stmt.walkOption_eq_flatMap (body : Option (List Stmt)) :
    Stmt.walkOption body = body.toList.flatMap Stmt.walkAll := by
  cases body <;> simp [Stmt.walkOption]

theorem Stmt.walkCases_eq_flatMap (cases : List Case) :
    Stmt.walkCases cases = (cases.map Case.body).flatMap Stmt.walkAll := by
  induction cases with
  | nil => rfl
  | cons c rest ih => cases c; simp [Stmt.walkCases, Case.body, ih]

/-- A walk starts at the statement and walks the bodies nested in it. -/
theorem Stmt.walk_eq (s : Stmt) : s.walk = s :: s.bodies.flatMap Stmt.walkAll := by
  cases s <;>
    simp [Stmt.walk, Stmt.bodies, Stmt.walkOption_eq_flatMap, Stmt.walkCases_eq_flatMap]

/-! ## Bodies -/

/-- Every expression of a body, at every depth of statements and expressions. -/
def exprsOf (body : List Stmt) : List Expr :=
  (Stmt.walkAll body).flatMap fun s => s.exprs.flatMap Expr.walk

/-- The resources a body refers to, each once, in order of first reference. -/
def resourcesOf (body : List Stmt) : List String :=
  ((exprsOf body).filterMap Expr.resourceName?).eraseDups

/-- The types of the variables a body declares. -/
def declaredTypes (body : List Stmt) : List Ty :=
  (Stmt.walkAll body).filterMap fun
    | .declare _ ty _ => some ty
    | _ => none

/-- The intrinsics a body calls. -/
def intrinsicsOf (body : List Stmt) : List Intrinsic :=
  (exprsOf body).filterMap fun
    | .intrinsic i _ _ => some i
    | _ => none

end Shading.Core
