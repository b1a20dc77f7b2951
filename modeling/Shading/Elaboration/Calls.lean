import Shading.Surface.Basic

/-!
# Calls of a body

While a body is elaborated, the functions it calls are recorded: a call behind those in
its arguments, the parts of a statement in the order they are elaborated, and each
function once.  Intrinsics are not recorded.
-/

namespace Shading.Surface

mutual

/-- The functions that an expression calls, operands first. -/
def Expr.calls : Expr → List String
  | .literal _ _ | .var _ _ | .resource _ _ | .enumValue _ _ _ _ | .host _ _ => []
  | .member base _ _ => base.calls
  | .index base position _ => base.calls ++ position.calls
  | .unary _ operand _ => operand.calls
  | .binary _ lhs rhs _ => lhs.calls ++ rhs.calls
  | .conditional condition yes no _ => condition.calls ++ yes.calls ++ no.calls
  | .call (.function name) args _ => Expr.callsAll args ++ [name]
  | .call (.intrinsic _) args _ => Expr.callsAll args
  | .construct args _ => Expr.callsAll args
  | .cast operand _ => operand.calls

/-- The functions that several expressions call, one after the other. -/
def Expr.callsAll : List Expr → List String
  | [] => []
  | e :: rest => e.calls ++ Expr.callsAll rest

end

/-- The functions that an expression calls which may be missing. -/
def Expr.callsOption : Option Expr → List String
  | none => []
  | some e => e.calls

mutual

/-- The functions that a statement calls. -/
def Stmt.calls : Stmt → List String
  | .declare _ _ init => Expr.callsOption init
  | .assign target _ value => target.calls ++ value.calls
  | .expr e => e.calls
  | .branch condition yes no => condition.calls ++ Stmt.callsAll yes ++ Stmt.callsOption no
  | .forLoop init condition step body =>
    Stmt.callsAll init ++ Expr.callsOption condition ++ Stmt.callsAll step ++ Stmt.callsAll body
  | .whileLoop condition body => condition.calls ++ Stmt.callsAll body
  | .doLoop body condition => Stmt.callsAll body ++ condition.calls
  | .switch selector cases default =>
    selector.calls ++ Stmt.callsCases cases ++ Stmt.callsOption default
  | .ret value => Expr.callsOption value
  | .leave | .next | .host _ => []
  | .block body => Stmt.callsAll body

/-- The functions that several statements call, one after the other. -/
def Stmt.callsAll : List Stmt → List String
  | [] => []
  | s :: rest => s.calls ++ Stmt.callsAll rest

/-- The functions that a block calls which may be missing. -/
def Stmt.callsOption : Option (List Stmt) → List String
  | none => []
  | some body => Stmt.callsAll body

/-- The functions that cases call, in the labels of each before its body. -/
def Stmt.callsCases : List Case → List String
  | [] => []
  | .mk labels body :: rest => Expr.callsAll labels ++ Stmt.callsAll body ++ Stmt.callsCases rest

end

/-- The functions that are recorded for a body, each once. -/
def calledBy (body : List Stmt) : List String := (Stmt.callsAll body).eraseDups

end Shading.Surface
