import Shading.Core.Basic

/-!
# Effects of core code

An *effect* is something an expression does besides having a value: it writes
its operand, it calls a function, or it waits at a barrier.  `Expr.effects` and
`Stmt.effects` list effects from left to right as they are written, the effects
of the operands before the operator's own.  A loop lists its parts once, in the
order they are written.

The functions a body calls are among its effects (`calleesOf`).
-/

namespace Shading

/-- Something an expression does besides having a value. -/
inductive Effect where
  /-- Increments or decrements its operand. -/
  | update (op : UnaryOp)
  /-- Calls a declared function. -/
  | call (function : String)
  /-- Waits for the thread group. -/
  | barrier
deriving DecidableEq, Repr

/-- The function an effect calls. -/
def Effect.callee? : Effect → Option String
  | .call function => some function
  | _ => none

/-- The effect of applying an operator. -/
def UnaryOp.effects (op : UnaryOp) : List Effect := if op.isMutating then [.update op] else []

/-- The effect of calling an intrinsic. -/
def Intrinsic.effects (i : Intrinsic) : List Effect := if i = .barrier then [.barrier] else []

end Shading

namespace Shading.Core

mutual

/-- The effects of an expression, operands first. -/
def Expr.effects : Expr → List Effect
  | .literal _ _ | .var _ _ | .resource _ _ => []
  | .field base _ _ | .swizzle base _ _ => base.effects
  | .index base position _ => base.effects ++ position.effects
  | .unary op operand _ => operand.effects ++ op.effects
  | .cast operand _ => operand.effects
  | .binary _ lhs rhs _ => lhs.effects ++ rhs.effects
  | .conditional condition yes no _ => condition.effects ++ yes.effects ++ no.effects
  | .call function args _ => Expr.effectsAll args ++ [.call function]
  | .intrinsic i args _ => Expr.effectsAll args ++ i.effects
  | .construct args _ => Expr.effectsAll args

/-- The effects of several expressions, one after the other. -/
def Expr.effectsAll : List Expr → List Effect
  | [] => []
  | e :: rest => e.effects ++ Expr.effectsAll rest

end

/-- The effects of an expression that may be missing. -/
def Expr.effectsOption : Option Expr → List Effect
  | none => []
  | some e => e.effects

mutual

/-- The effects of a statement, in the order they are written. -/
def Stmt.effects : Stmt → List Effect
  | .declare _ _ init => Expr.effectsOption init
  | .assign target _ value => target.effects ++ value.effects
  | .expr e => e.effects
  | .branch condition yes no =>
    condition.effects ++ Stmt.effectsAll yes ++ Stmt.effectsOption no
  | .forLoop init condition step body =>
    Stmt.effectsAll init ++ Expr.effectsOption condition ++ Stmt.effectsAll step ++
      Stmt.effectsAll body
  | .whileLoop condition body => condition.effects ++ Stmt.effectsAll body
  | .doLoop body condition => Stmt.effectsAll body ++ condition.effects
  | .switch selector cases default =>
    selector.effects ++ Stmt.effectsCases cases ++ Stmt.effectsOption default
  | .ret value => Expr.effectsOption value
  | .leave | .next => []
  | .block body => Stmt.effectsAll body

/-- The effects of several statements, one after the other. -/
def Stmt.effectsAll : List Stmt → List Effect
  | [] => []
  | s :: rest => s.effects ++ Stmt.effectsAll rest

/-- The effects of a block that may be missing. -/
def Stmt.effectsOption : Option (List Stmt) → List Effect
  | none => []
  | some body => Stmt.effectsAll body

/-- The effects of the bodies of cases, one after the other. -/
def Stmt.effectsCases : List Case → List Effect
  | [] => []
  | .mk _ body :: rest => Stmt.effectsAll body ++ Stmt.effectsCases rest

end

theorem Expr.effectsAll_eq_flatMap (es : List Expr) :
    Expr.effectsAll es = es.flatMap Expr.effects := by
  induction es with
  | nil => rfl
  | cons e rest ih => simp [Expr.effectsAll, ih]

theorem Stmt.effectsAll_eq_flatMap (body : List Stmt) :
    Stmt.effectsAll body = body.flatMap Stmt.effects := by
  induction body with
  | nil => rfl
  | cons s rest ih => simp [Stmt.effectsAll, ih]

/-- The functions a body calls, each once, in the order the calls complete. -/
def calleesOf (body : List Stmt) : List String :=
  ((Stmt.effectsAll body).filterMap Effect.callee?).eraseDups

end Shading.Core
