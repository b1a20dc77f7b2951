import Shading.Target.Body

/-!
# Languages

A language is a dialect together with what stands outside functions: the header,
structs, resources and the glue around the entry point.  `Language.generate`
writes the source of one stage: the header, the structs the stage reaches, and
behind them its resources and functions in the language's own arrangement.
-/

namespace Shading

/-- How a target spells a whole stage. -/
structure Language where
  dialect : Dialect
  capabilities : List Capability
  /-- What is done to clip-space positions, in languages that do it. -/
  fixup : Option Fixup
  /-- The start of a source. -/
  header : Context → Code
  /-- The definition of a struct. -/
  struct : Context → StructDef → Except Error Code
  /-- The declaration of a resource. -/
  resource : Context → Binding → Except Error Code
  /-- The entry point, with the glue around it. -/
  entry : Context → Function → Except Error Code
  /-- The resources and functions of a stage, given its entry function. -/
  arrangement : Context → Function → Except Error Code

namespace Language

/-- Pieces of code, in order. -/
def collect {α : Type} (write : α → Except Error Code) (pieces : List α) : Except Error Code := do
  return (← pieces.mapM write).flatten

/-- Resources, then helpers, then the entry point. -/
def inOrder (d : Dialect) (resource : Context → Binding → Except Error Code)
    (entry : Context → Function → Except Error Code) (c : Context) (f : Function) :
    Except Error Code := do
  let resources ← collect (resource c) (c.model.resourcesFor c.stage)
  let helpers ← collect (d.function c)
    ((c.model.functionsFor c.stage).filter fun f => !c.model.isEntry c.stage f)
  let entry ← entry c f
  return resources ++ helpers ++ entry

/-- The code of one stage. -/
def code (l : Language) (m : Model) (stage : Stage) : Except Error Code :=
  match m.entryFunction? stage with
  | none => .error (.entryNotFound (.ofStage stage))
  | some f => do
    let c : Context := ⟨m, stage, none⟩
    let structs ← collect (l.struct c) (m.structsFor stage)
    let rest ← l.arrangement c f
    return l.header c ++ structs ++ rest

/-- The source of one stage. -/
def generate (l : Language) (m : Model) (stage : Stage) : Except Error String := do
  return (← l.code m stage).text 0

end Language

end Shading
