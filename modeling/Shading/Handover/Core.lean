import Shading.Handover.Type

/-!
# Core code in the hand-over format

Core code is written as surface code is, with these differences: every expression
has its type, a struct field and a swizzle are told apart, an intrinsic has an
alternative of its own, and the labels of a switch are constants.
-/

namespace Shading.Core

/-! ## Expressions -/

namespace Expr

/-- The name of an alternative. -/
def tag : Expr → String
  | .literal _ _ => "Literal"
  | .var _ _ => "Local"
  | .resource _ _ => "Resource"
  | .field _ _ _ => "Field"
  | .swizzle _ _ _ => "Swizzle"
  | .index _ _ _ => "Index"
  | .unary _ _ _ => "Unary"
  | .binary _ _ _ _ => "Binary"
  | .conditional _ _ _ _ => "Conditional"
  | .call _ _ _ => "Call"
  | .intrinsic _ _ _ => "Intrinsic"
  | .construct _ _ => "Construct"
  | .cast _ _ => "Cast"

/-- An expression around its written contents. -/
def node (e : Expr) (content : Json) : Json :=
  .object [("kind", .variant e.tag (some content)), ("ty", e.ty.toJson)]

mutual

/-- The contents of an alternative. -/
def content (float : Binary32 → Json) : Expr → Json
  | .literal value _ => value.toJson float
  | .var name _ | .resource name _ => .string name
  | .field base name _ =>
    .object [("base", base.node (base.content float)), ("field", .string name)]
  | .swizzle base components _ =>
    .object [("base", base.node (base.content float)),
      ("components", .list (Json.natural ·.toNat) components)]
  | .index base position _ =>
    .object [("base", base.node (base.content float)),
      ("index", position.node (position.content float))]
  | .unary op operand _ =>
    .object [("op", .ofNamed op), ("operand", operand.node (operand.content float))]
  | .binary op lhs rhs _ =>
    .object [("op", .ofNamed op), ("lhs", lhs.node (lhs.content float)),
      ("rhs", rhs.node (rhs.content float))]
  | .conditional condition yes no _ =>
    .object [("condition", condition.node (condition.content float)),
      ("then", yes.node (yes.content float)), ("otherwise", no.node (no.content float))]
  | .call function args _ =>
    .object [("function", .string function), ("args", .array (contents float args))]
  | .intrinsic i args _ =>
    .object [("intrinsic", .ofNamed i), ("args", .array (contents float args))]
  | .construct args _ => .array (contents float args)
  | .cast operand _ => operand.node (operand.content float)

/-- Expressions, in order. -/
def contents (float : Binary32 → Json) : List Expr → List Json
  | [] => []
  | e :: rest => e.node (e.content float) :: contents float rest

end

def toJson (float : Binary32 → Json) (e : Expr) : Json := e.node (e.content float)

/-- An expression from what it is, with its type. -/
def ofJson? (j : Json) : Option Expr := do
  let ty ← j.field "ty" fun p => Ty.ofJson? p.1
  let kind ← j.member? "kind"
  match kind.variant? with
  | some ("Literal", some c) => return .literal (← Literal.ofJson? Binary32.ofNumber c.1) ty
  | some ("Local", some c) => return .var (← c.1.string?) ty
  | some ("Resource", some c) => return .resource (← c.1.string?) ty
  | some ("Field", some c) =>
    let base ← c.field "base" fun p => ofJson? p.1
    return .field base (← c.field "field" (·.1.string?)) ty
  | some ("Swizzle", some c) =>
    let base ← c.field "base" fun p => ofJson? p.1
    let components ← c.field "components" fun list => list.each (·.1.uint8?)
    return .swizzle base components ty
  | some ("Index", some c) =>
    let base ← c.field "base" fun p => ofJson? p.1
    return .index base (← c.field "index" fun p => ofJson? p.1) ty
  | some ("Unary", some c) =>
    let op ← c.field "op" (·.1.named?)
    return .unary op (← c.field "operand" fun p => ofJson? p.1) ty
  | some ("Binary", some c) =>
    let op ← c.field "op" (·.1.named?)
    let lhs ← c.field "lhs" fun p => ofJson? p.1
    return .binary op lhs (← c.field "rhs" fun p => ofJson? p.1) ty
  | some ("Conditional", some c) =>
    let condition ← c.field "condition" fun p => ofJson? p.1
    let yes ← c.field "then" fun p => ofJson? p.1
    return .conditional condition yes (← c.field "otherwise" fun p => ofJson? p.1) ty
  | some ("Call", some c) =>
    let function ← c.field "function" (·.1.string?)
    let args ← c.field "args" fun list => list.each fun p => ofJson? p.1
    return .call function args ty
  | some ("Intrinsic", some c) =>
    let i ← c.field "intrinsic" (·.1.named?)
    let args ← c.field "args" fun list => list.each fun p => ofJson? p.1
    return .intrinsic i args ty
  | some ("Construct", some c) => return .construct (← c.each fun p => ofJson? p.1) ty
  | some ("Cast", some c) => return .cast (← ofJson? c.1) ty
  | _ => none
termination_by j
decreasing_by all_goals exact Json.Part.sizeOf_lt _

end Expr

/-! ## Statements -/

namespace Stmt

/-- The name of an alternative. -/
def tag : Stmt → String
  | .declare _ _ _ => "Declare"
  | .assign _ _ _ => "Assign"
  | .expr _ => "Expr"
  | .branch _ _ _ => "If"
  | .forLoop _ _ _ _ => "For"
  | .whileLoop _ _ => "While"
  | .doLoop _ _ => "DoWhile"
  | .switch _ _ _ => "Switch"
  | .ret _ => "Return"
  | .leave => "Break"
  | .next => "Continue"
  | .block _ => "Block"

mutual

/-- The contents of an alternative. -/
def content (float : Binary32 → Json) : Stmt → Option Json
  | .declare name ty init =>
    some (.object [("name", .string name), ("ty", ty.toJson),
      ("init", .optional (Expr.toJson float) init)])
  | .assign target op value =>
    some (.object [("target", target.toJson float), ("op", .ofNamed op),
      ("value", value.toJson float)])
  | .expr value => some (value.toJson float)
  | .branch condition yes no =>
    some (.object [("condition", condition.toJson float), ("then", .array (contents float yes)),
      ("otherwise", optionalContents float no)])
  | .forLoop init condition step body =>
    some (.object [("init", .array (contents float init)),
      ("condition", .optional (Expr.toJson float) condition),
      ("step", .array (contents float step)), ("body", .array (contents float body))])
  | .whileLoop condition body =>
    some (.object [("condition", condition.toJson float), ("body", .array (contents float body))])
  | .doLoop body condition =>
    some (.object [("body", .array (contents float body)), ("condition", condition.toJson float)])
  | .switch selector cases default =>
    some (.object [("selector", selector.toJson float),
      ("cases", .array (caseContents float cases)), ("default", optionalContents float default)])
  | .ret value => some (.optional (Expr.toJson float) value)
  | .leave | .next => none
  | .block body => some (.array (contents float body))

/-- Statements, in order. -/
def contents (float : Binary32 → Json) : List Stmt → List Json
  | [] => []
  | s :: rest => .variant s.tag (s.content float) :: contents float rest

/-- Statements that may be missing. -/
def optionalContents (float : Binary32 → Json) : Option (List Stmt) → Json
  | none => .null
  | some body => .array (contents float body)

/-- The cases of a switch, in order. -/
def caseContents (float : Binary32 → Json) : List Case → List Json
  | [] => []
  | .mk labels body :: rest =>
    .object [("labels", .list (Literal.toJson float) labels), ("body", .array (contents float body))] ::
      caseContents float rest

end

def toJson (float : Binary32 → Json) (s : Stmt) : Json := .variant s.tag (s.content float)

mutual

def ofJson? (j : Json) : Option Stmt :=
  match j.variant? with
  | some ("Declare", some c) => do
    let name ← c.field "name" (·.1.string?)
    let ty ← c.field "ty" (Ty.ofJson? ·.1)
    return .declare name ty (← c.fieldOption "init" (Expr.ofJson? ·.1))
  | some ("Assign", some c) => do
    let target ← c.field "target" (Expr.ofJson? ·.1)
    let op ← c.field "op" (·.1.named?)
    return .assign target op (← c.field "value" (Expr.ofJson? ·.1))
  | some ("Expr", some c) => do return .expr (← Expr.ofJson? c.1)
  | some ("If", some c) => do
    let condition ← c.field "condition" (Expr.ofJson? ·.1)
    let yes ← c.field "then" fun list => list.each fun p => ofJson? p.1
    let no ← c.fieldOption "otherwise" fun list => list.each fun p => ofJson? p.1
    return .branch condition yes no
  | some ("For", some c) => do
    let init ← c.field "init" fun list => list.each fun p => ofJson? p.1
    let condition ← c.fieldOption "condition" (Expr.ofJson? ·.1)
    let step ← c.field "step" fun list => list.each fun p => ofJson? p.1
    let body ← c.field "body" fun list => list.each fun p => ofJson? p.1
    return .forLoop init condition step body
  | some ("While", some c) => do
    let condition ← c.field "condition" (Expr.ofJson? ·.1)
    return .whileLoop condition (← c.field "body" fun list => list.each fun p => ofJson? p.1)
  | some ("DoWhile", some c) => do
    let body ← c.field "body" fun list => list.each fun p => ofJson? p.1
    return .doLoop body (← c.field "condition" (Expr.ofJson? ·.1))
  | some ("Switch", some c) => do
    let selector ← c.field "selector" (Expr.ofJson? ·.1)
    let cases ← c.field "cases" fun list => list.each fun p => caseOfJson? p.1
    let default ← c.fieldOption "default" fun list => list.each fun p => ofJson? p.1
    return .switch selector cases default
  | some ("Return", some c) => do return .ret (← c.orNull (Expr.ofJson? ·.1))
  | some ("Break", none) => some .leave
  | some ("Continue", none) => some .next
  | some ("Block", some c) => do return .block (← c.each fun p => ofJson? p.1)
  | _ => none
termination_by j
decreasing_by all_goals exact Json.Part.sizeOf_lt _

/-- A case of a switch. -/
def caseOfJson? (j : Json) : Option Case := do
  let labels ← j.field "labels" fun list => list.each fun p => Literal.ofJson? Binary32.ofNumber p.1
  let body ← j.field "body" fun list => list.each fun p => ofJson? p.1
  return .mk labels body
termination_by j
decreasing_by all_goals exact Json.Part.sizeOf_lt _

end

end Stmt

end Shading.Core
