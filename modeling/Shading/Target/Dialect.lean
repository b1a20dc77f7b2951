import Shading.Fault
import Shading.Model.Model
import Shading.Text.Code
import Shading.Text.Parens

/-!
# Dialects

A dialect is how a target spells what stands inside functions: types, names,
numbers, conversions, products, parameters and intrinsics.  The rest of a
function body is spelled alike everywhere (`Shading.Target.Body`).

The functions here take a dialect's choices and build the spellings that all
targets share.
-/

namespace Shading

/-- An operand that is written out already. -/
structure Operand where
  text : String
  ty : Ty

/-- A call of a function with written arguments. -/
def callText (name : String) (args : List Operand) : String :=
  name ++ "(" ++ ", ".intercalate (args.map (·.text)) ++ ")"

/-- A name, with an underscore behind it if it is reserved. -/
def correctedName (reserved : List String) (name : String) : String :=
  if name ∈ reserved then name ++ "_" else name

/-- A variable of a type.  The length of an array stands behind the name. -/
def declarationText (typeName : Ty → Except Error String) (ty : Ty) (name : String) :
    Except Error String :=
  match ty with
  | .array element length => do
    return (← typeName element) ++ " " ++ name ++ "[" ++ toString length ++ "]"
  | ty => return (← typeName ty) ++ " " ++ name

/-- A parameter, with the words for how it is passed before it. -/
def parameterText (reserved : List String) (typeName : Ty → Except Error String)
    (p : Parameter) : Except Error String := do
  let declaration ← declarationText typeName p.ty (correctedName reserved p.name)
  match p.passing with
  | .input => return declaration
  | .output => return "out " ++ declaration
  | .inout => return "inout " ++ declaration

/-- Whether a product goes through a matrix: one operand is a matrix, and no operand
is a scalar. -/
def isMatrixProduct (op : BinaryOp) (lhs rhs : Ty) : Bool :=
  op = .mul && (lhs.isMatrix || rhs.isMatrix) && !lhs.isScalar && !rhs.isScalar

/-- How a target spells what stands inside functions. -/
structure Dialect where
  target : Target
  /-- The words that are no names. -/
  reserved : List String
  /-- The spelling of a type. -/
  typeName : Ty → Except Error String
  /-- What stands behind the digits of a number. -/
  floatSuffix : String
  /-- A conversion, of a type and an operand. -/
  castText : String → String → String
  /-- Whether a product through a matrix is a call of `mul` with its operands
  swapped.  Otherwise it is written as any product. -/
  callsMul : Bool
  /-- The spelling of a parameter. -/
  parameter : Parameter → Except Error String
  /-- The spelling of an intrinsic the target does not share with the others.
  `none` means there is no such spelling for the arguments. -/
  ownIntrinsic? : Intrinsic → List Operand → Option String

namespace Dialect

/-- A name that is no reserved word. -/
def identifier (d : Dialect) (name : String) : String := correctedName d.reserved name

/-- The name of a struct or a helper. -/
def globalName (d : Dialect) (qualifiedName : String) : String :=
  d.identifier (Name.mangle qualifiedName)

/-- The name of a function.  The entry point of the stage keeps its short name. -/
def functionName (d : Dialect) (m : Model) (stage : Stage) (f : Function) : String :=
  if m.isEntry stage f then d.identifier f.name else d.globalName f.qualifiedName

/-- The spelling of a number. -/
def floatText (d : Dialect) (value : Binary32) : String := value.text ++ d.floatSuffix

/-- The spelling of a constant. -/
def literalText (d : Dialect) : Core.Literal → String
  | .bool value => if value then "true" else "false"
  | .int value => toString value
  | .uint value => toString value ++ "u"
  | .float value => d.floatText value

/-- A variable of a type. -/
def declaration (d : Dialect) (ty : Ty) (name : String) : Except Error String :=
  declarationText d.typeName ty name

/-- A conversion to a type. -/
def cast (d : Dialect) (ty : Ty) (operand : String) : Except Error String := do
  return d.castText (← d.typeName ty) operand

/-- Two operands combined.  Stored with rows first, a matrix is the transpose of what
the other targets hold, and a product of transposes has its operands swapped. -/
def binary (d : Dialect) (op : BinaryOp) (lhs rhs : Operand) : String :=
  if d.callsMul && isMatrixProduct op lhs.ty rhs.ty then
    "mul(" ++ rhs.text ++ ", " ++ lhs.text ++ ")"
  else "(" ++ lhs.text ++ " " ++ op.symbol ++ " " ++ rhs.text ++ ")"

/-- A call of an intrinsic in the function of a name. -/
def intrinsic (d : Dialect) (symbol : String) (i : Intrinsic) (args : List Operand) :
    Except Error String :=
  match d.ownIntrinsic? i args with
  | some text => .ok text
  | none =>
    match i.commonName? with
    | some name => .ok (callText name args)
    | none => .error (.unsupportedIntrinsic (some d.target) i.name symbol)

end Dialect

/-! ## Contexts -/

/-- What is being written: a stage of a model and, inside a function, the function. -/
structure Context where
  model : Model
  stage : Stage
  function : Option Function

namespace Context

/-- The name that faults are reported against. -/
def symbol (c : Context) : String :=
  match c.function with
  | some f => f.qualifiedName
  | none => (c.model.entryPoints.entryName? c.stage).getD ""

/-- The context of a function's body. -/
def within (c : Context) (f : Function) : Context := { c with function := some f }

end Context

end Shading
