import Shading.Elaboration.Calls
import Shading.Elaboration.Stmt

/-!
# Elaboration of functions

Parameters come first, then the result type, then the body.  Arrays are neither
passed nor returned.  A function has the calls that were recorded in its body.
-/

namespace Shading.Program

/-- A parameter. -/
def elaborateParam (p : Program) (symbol : String) (d : ParamDecl) : Except Error Parameter := do
  let ty ← p.elaborateValueType symbol d.ty
  if ty.isArray then fault symbol (.arrayParameter d.name)
  else return ⟨d.name, ty, d.passing, d.semantic⟩

/-- The result type of a function. -/
def elaborateResult (p : Program) (symbol : String) (result : Surface.TypeExpr) :
    Except Error Ty := do
  let ty ← p.elaborateType symbol result
  if ty.isArray then fault symbol .arrayResult else return ty

/-- The function a declaration stands for. -/
def elaborateFunction (p : Program) (d : FunctionDecl) : Except Error Function := do
  let params ← d.params.mapM (p.elaborateParam d.name)
  let result ← p.elaborateResult d.name d.result
  let body ← Scope.stmts ⟨p, d.name, result⟩ d.body
  return {
    name := d.shortName
    qualifiedName := d.name
    stage := d.metadata.stage
    params, result, body
    groupSize := d.metadata.groupSize
    callees := Surface.calledBy d.body }

end Shading.Program
