import Shading.Handover.Type

/-!
# Surface code in the hand-over format

An expression is an object of what it is (`kind`) and its type.  A type may be
missing, and so may a body or an expression that the construct does without.
How JSON numbers are read is a parameter of the readers (`number`).  The names of the alternatives are those of the format.
-/

namespace Shading.Surface

open Shading.Core (Literal)

/-! ## Expressions -/

namespace Callee

def toJson : Callee → Json
  | .function name => .variant "Function" (some (.string name))
  | .intrinsic name => .variant "Intrinsic" (some (.string name))

def ofJson? (j : Json) : Option Callee :=
  match j.variant? with
  | some ("Function", some c) => c.1.string?.map .function
  | some ("Intrinsic", some c) => c.1.string?.map .intrinsic
  | _ => none

end Callee

namespace Expr

/-- The name of an alternative. -/
def tag : Expr → String
  | .literal _ _ => "Literal"
  | .var _ _ => "Local"
  | .resource _ _ => "Resource"
  | .member _ _ _ => "Member"
  | .index _ _ _ => "Index"
  | .unary _ _ _ => "Unary"
  | .binary _ _ _ _ => "Binary"
  | .conditional _ _ _ _ => "Conditional"
  | .call _ _ _ => "Call"
  | .construct _ _ => "Construct"
  | .cast _ _ => "Cast"
  | .enumValue _ _ _ _ => "EnumValue"
  | .host _ _ => "Host"

/-- An expression around its written contents. -/
def node (e : Expr) (content : Json) : Json :=
  .object [("kind", .variant e.tag (some content)), ("ty", .optional TypeExpr.toJson e.ty?)]

mutual

/-- The contents of an alternative. -/
def content (float : Binary32 → Json) : Expr → Json
  | .literal value _ => value.toJson float
  | .var name _ | .resource name _ => .string name
  | .member base name _ =>
    .object [("base", base.node (base.content float)), ("member", .string name)]
  | .index base position _ =>
    .object [("base", base.node (base.content float)),
      ("index", position.node (position.content float))]
  | .unary op operand _ =>
    .object [("op", .ofNamed op), ("operand", operand.node (operand.content float))]
  | .binary op lhs rhs _ =>
    .object [("op", .ofNamed op), ("lhs", lhs.node (lhs.content float)),
      ("rhs", rhs.node (rhs.content float))]
  | .conditional condition yes no _ =>
    .object [("condition", condition.node (condition.content float)),
      ("then", yes.node (yes.content float)), ("otherwise", no.node (no.content float))]
  | .call callee args _ =>
    .object [("callee", callee.toJson), ("args", .array (contents float args))]
  | .construct args _ => .array (contents float args)
  | .cast operand _ => operand.node (operand.content float)
  | .enumValue enumeration name value _ =>
    .object [("enum_name", .string enumeration), ("member", .string name),
      ("value", .integer value.toInt)]
  | .host name _ => .string name

/-- Expressions, in order. -/
def contents (float : Binary32 → Json) : List Expr → List Json
  | [] => []
  | e :: rest => e.node (e.content float) :: contents float rest

end

def toJson (float : Binary32 → Json) (e : Expr) : Json := e.node (e.content float)

/-! ## Reading -/

/-- An expression from what it is, with its type. -/
def ofJson? (number : Json.Number → Option Binary32) (j : Json) : Option Expr := do
  let ty ← j.fieldOption "ty" fun p => TypeExpr.ofJson? p.1
  let kind ← j.member? "kind"
  match kind.variant? with
  | some ("Literal", some c) => return .literal (← Literal.ofJson? number c.1) ty
  | some ("Local", some c) => return .var (← c.1.string?) ty
  | some ("Resource", some c) => return .resource (← c.1.string?) ty
  | some ("Member", some c) =>
    let base ← c.field "base" fun p => ofJson? number p.1
    return .member base (← c.field "member" (·.1.string?)) ty
  | some ("Index", some c) =>
    let base ← c.field "base" fun p => ofJson? number p.1
    return .index base (← c.field "index" fun p => ofJson? number p.1) ty
  | some ("Unary", some c) =>
    let op ← c.field "op" (·.1.named?)
    return .unary op (← c.field "operand" fun p => ofJson? number p.1) ty
  | some ("Binary", some c) =>
    let op ← c.field "op" (·.1.named?)
    let lhs ← c.field "lhs" fun p => ofJson? number p.1
    return .binary op lhs (← c.field "rhs" fun p => ofJson? number p.1) ty
  | some ("Conditional", some c) =>
    let condition ← c.field "condition" fun p => ofJson? number p.1
    let yes ← c.field "then" fun p => ofJson? number p.1
    return .conditional condition yes (← c.field "otherwise" fun p => ofJson? number p.1) ty
  | some ("Call", some c) =>
    let callee ← c.field "callee" (Callee.ofJson? ·.1)
    let args ← c.field "args" fun list => list.each fun p => ofJson? number p.1
    return .call callee args ty
  | some ("Construct", some c) => return .construct (← c.each fun p => ofJson? number p.1) ty
  | some ("Cast", some c) => return .cast (← ofJson? number c.1) ty
  | some ("EnumValue", some c) =>
    let enumeration ← c.field "enum_name" (·.1.string?)
    let name ← c.field "member" (·.1.string?)
    return .enumValue enumeration name (← c.field "value" (·.1.int32?)) ty
  | some ("Host", some c) => return .host (← c.1.string?) ty
  | _ => none
termination_by j
decreasing_by all_goals exact Json.Part.sizeOf_lt _

end Expr

/-! ## Statements -/

namespace Stmt

/-- The name of an alternative. -/
def tag : Stmt → String
  | .declare _ _ _ => "Declare"
  | .assign _ _ _ => "Assign"
  | .expr _ => "Expr"
  | .branch _ _ _ => "If"
  | .forLoop _ _ _ _ => "For"
  | .whileLoop _ _ => "While"
  | .doLoop _ _ => "DoWhile"
  | .switch _ _ _ => "Switch"
  | .ret _ => "Return"
  | .leave => "Break"
  | .next => "Continue"
  | .block _ => "Block"
  | .host _ => "Host"

mutual

/-- The contents of an alternative. -/
def content (float : Binary32 → Json) : Stmt → Option Json
  | .declare name ty init =>
    some (.object [("name", .string name), ("ty", ty.toJson),
      ("init", .optional (Expr.toJson float) init)])
  | .assign target op value =>
    some (.object [("target", target.toJson float), ("op", .ofNamed op),
      ("value", value.toJson float)])
  | .expr value => some (value.toJson float)
  | .branch condition yes no =>
    some (.object [("condition", condition.toJson float), ("then", .array (contents float yes)),
      ("otherwise", optionalContents float no)])
  | .forLoop init condition step body =>
    some (.object [("init", .array (contents float init)),
      ("condition", .optional (Expr.toJson float) condition),
      ("step", .array (contents float step)), ("body", .array (contents float body))])
  | .whileLoop condition body =>
    some (.object [("condition", condition.toJson float), ("body", .array (contents float body))])
  | .doLoop body condition =>
    some (.object [("body", .array (contents float body)), ("condition", condition.toJson float)])
  | .switch selector cases default =>
    some (.object [("selector", selector.toJson float),
      ("cases", .array (caseContents float cases)), ("default", optionalContents float default)])
  | .ret value => some (.optional (Expr.toJson float) value)
  | .leave | .next => none
  | .block body => some (.array (contents float body))
  | .host construct => some (.string construct)

/-- Statements, in order. -/
def contents (float : Binary32 → Json) : List Stmt → List Json
  | [] => []
  | s :: rest => .variant s.tag (s.content float) :: contents float rest

/-- Statements that may be missing. -/
def optionalContents (float : Binary32 → Json) : Option (List Stmt) → Json
  | none => .null
  | some body => .array (contents float body)

/-- The cases of a switch, in order. -/
def caseContents (float : Binary32 → Json) : List Case → List Json
  | [] => []
  | .mk labels body :: rest =>
    .object [("labels", .list (Expr.toJson float) labels), ("body", .array (contents float body))] ::
      caseContents float rest

end

def toJson (float : Binary32 → Json) (s : Stmt) : Json := .variant s.tag (s.content float)

mutual

def ofJson? (number : Json.Number → Option Binary32) (j : Json) : Option Stmt :=
  match j.variant? with
  | some ("Declare", some c) => do
    let name ← c.field "name" (·.1.string?)
    let ty ← c.field "ty" (TypeExpr.ofJson? ·.1)
    return .declare name ty (← c.fieldOption "init" (Expr.ofJson? number ·.1))
  | some ("Assign", some c) => do
    let target ← c.field "target" (Expr.ofJson? number ·.1)
    let op ← c.field "op" (·.1.named?)
    return .assign target op (← c.field "value" (Expr.ofJson? number ·.1))
  | some ("Expr", some c) => do return .expr (← Expr.ofJson? number c.1)
  | some ("If", some c) => do
    let condition ← c.field "condition" (Expr.ofJson? number ·.1)
    let yes ← c.field "then" fun list => list.each fun p => ofJson? number p.1
    let no ← c.fieldOption "otherwise" fun list => list.each fun p => ofJson? number p.1
    return .branch condition yes no
  | some ("For", some c) => do
    let init ← c.field "init" fun list => list.each fun p => ofJson? number p.1
    let condition ← c.fieldOption "condition" (Expr.ofJson? number ·.1)
    let step ← c.field "step" fun list => list.each fun p => ofJson? number p.1
    let body ← c.field "body" fun list => list.each fun p => ofJson? number p.1
    return .forLoop init condition step body
  | some ("While", some c) => do
    let condition ← c.field "condition" (Expr.ofJson? number ·.1)
    return .whileLoop condition (← c.field "body" fun list => list.each fun p => ofJson? number p.1)
  | some ("DoWhile", some c) => do
    let body ← c.field "body" fun list => list.each fun p => ofJson? number p.1
    return .doLoop body (← c.field "condition" (Expr.ofJson? number ·.1))
  | some ("Switch", some c) => do
    let selector ← c.field "selector" (Expr.ofJson? number ·.1)
    let cases ← c.field "cases" fun list => list.each fun p => caseOfJson? number p.1
    let default ← c.fieldOption "default" fun list => list.each fun p => ofJson? number p.1
    return .switch selector cases default
  | some ("Return", some c) => do return .ret (← c.orNull (Expr.ofJson? number ·.1))
  | some ("Break", none) => some .leave
  | some ("Continue", none) => some .next
  | some ("Block", some c) => do return .block (← c.each fun p => ofJson? number p.1)
  | some ("Host", some c) => do return .host (← c.1.string?)
  | _ => none
termination_by j
decreasing_by all_goals exact Json.Part.sizeOf_lt _

/-- A case of a switch. -/
def caseOfJson? (number : Json.Number → Option Binary32) (j : Json) : Option Case := do
  let labels ← j.field "labels" fun list => list.each fun p => Expr.ofJson? number p.1
  let body ← j.field "body" fun list => list.each fun p => ofJson? number p.1
  return .mk labels body
termination_by j
decreasing_by all_goals exact Json.Part.sizeOf_lt _

end

end Stmt

end Shading.Surface
