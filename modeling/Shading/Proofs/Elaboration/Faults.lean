import Shading.Elaboration.Function
import Shading.Proofs.Result

/-!
# What elaboration refuses

Elaboration looks at one declaration at a time.  It refuses a construct or an unknown
intrinsic in it, and nothing else (`failsAs_elaborateFunction`,
`failsAs_elaborateStruct`, `failsAs_elaborateResource`).  Entry points, signatures and
slots are the business of building.
-/

namespace Shading

/-- A construct or an intrinsic in a declaration is refused. -/
inductive Error.InDeclaration : Error → Prop where
  | construct {symbol : String} {reason : ConstructFault} : InDeclaration (.construct symbol reason)
  | intrinsic {name symbol : String} : InDeclaration (.unsupportedIntrinsic none name symbol)

open Error (InDeclaration)

/-! ## Types and declarations -/

namespace Program

theorem failsAs_fault {α : Type} (symbol : String) (reason : ConstructFault) :
    FailsAs InDeclaration (fault symbol reason : Except Error α) := .error .construct

theorem failsAs_require (symbol : String) (reason : Option ConstructFault) :
    FailsAs InDeclaration (require symbol reason) := by
  cases reason with
  | none => exact .ok
  | some reason => exact failsAs_fault symbol reason

variable (p : Program) (symbol : String)

theorem failsAs_elaborateType (ty : Surface.TypeExpr) :
    FailsAs InDeclaration (p.elaborateType symbol ty) := by
  induction ty with
  | void => exact .ok
  | scalar kind => exact .ok
  | vector kind size =>
    rw [elaborateType]
    exact .ite .ok (failsAs_fault symbol _)
  | matrix rows columns =>
    rw [elaborateType]
    exact .ite .ok (failsAs_fault symbol _)
  | named name =>
    rw [elaborateType]
    exact .ite .ok (failsAs_fault symbol _)
  | array element length ih =>
    rw [elaborateType]
    exact ih.bind fun _ => (failsAs_require symbol _).bind_pure
  | host name => exact failsAs_fault symbol _

theorem failsAs_elaborateValueType (ty : Surface.TypeExpr) :
    FailsAs InDeclaration (p.elaborateValueType symbol ty) :=
  (failsAs_elaborateType p symbol ty).bind fun _ => .ite (failsAs_fault symbol _) .ok

theorem failsAs_elaborateFields (struct : String) (earlier : List String)
    (fields : List FieldDecl) :
    FailsAs InDeclaration (p.elaborateFields struct earlier fields) := by
  induction fields generalizing earlier with
  | nil => exact .ok
  | cons field rest ih =>
    rw [elaborateFields]
    exact (failsAs_require struct _).bind fun _ =>
      (failsAs_elaborateValueType p struct field.ty).bind fun _ =>
      .ite (failsAs_fault struct _) (ih _).bind_pure

theorem failsAs_elaborateStruct (d : StructDecl) :
    FailsAs InDeclaration (p.elaborateStruct d) :=
  (failsAs_elaborateFields p d.name [] d.fields).bind_pure

theorem failsAs_elaborateElement (d : ResourceDecl) :
    FailsAs InDeclaration (p.elaborateElement d) := by
  rw [elaborateElement]
  split
  · split
    · exact failsAs_fault d.name _
    · exact (failsAs_elaborateValueType p d.name _).bind_pure
  · exact .ok

theorem failsAs_elaborateResource (d : ResourceDecl) :
    FailsAs InDeclaration (p.elaborateResource d) :=
  (failsAs_elaborateElement p d).bind fun _ => (failsAs_require d.name _).bind_pure

end Program

/-! ## Expressions -/

namespace Scope

section Parts

variable (s : Scope)

theorem failsAs_fault {α : Type} (reason : ConstructFault) :
    FailsAs InDeclaration (s.fault reason : Except Error α) := .error .construct

theorem failsAs_require (reason : Option ConstructFault) :
    FailsAs InDeclaration (s.require reason) := Program.failsAs_require s.symbol reason

theorem failsAs_writtenType (written : Option Surface.TypeExpr) :
    FailsAs InDeclaration (s.writtenType written) := by
  cases written with
  | none => exact s.failsAs_fault _
  | some ty => exact Program.failsAs_elaborateType s.program s.symbol ty

theorem failsAs_asValue (e : Core.Expr) : FailsAs InDeclaration (s.asValue e) :=
  (s.failsAs_require _).bind_pure

theorem failsAs_asCondition (e : Core.Expr) : FailsAs InDeclaration (s.asCondition e) :=
  (s.failsAs_asValue e).bind fun _ => (s.failsAs_require _).bind_pure

theorem failsAs_literal (value : Core.Literal) : FailsAs InDeclaration (s.literal value) :=
  (s.failsAs_require _).bind_pure

theorem failsAs_resource (name : String) : FailsAs InDeclaration (s.resource name) := by
  rw [resource]
  split
  · exact s.failsAs_fault _
  · refine (Program.failsAs_elaborateResource s.program _).bind fun r => ?_
    split <;> exact .ok

theorem failsAs_fieldMember (base : Core.Expr) (struct member : String) :
    FailsAs InDeclaration (s.fieldMember base struct member) := by
  rw [fieldMember]
  split
  · exact s.failsAs_fault _
  · split
    · exact s.failsAs_fault _
    · exact (Program.failsAs_elaborateValueType s.program s.symbol _).bind_pure

theorem failsAs_member (base : Core.Expr) (name : String) :
    FailsAs InDeclaration (s.member base name) := by
  rw [member]
  split
  · exact s.failsAs_fieldMember base _ name
  · split
    · exact s.failsAs_fault _
    · exact .ok
  · split
    · exact s.failsAs_fault _
    · exact .ok
  · exact s.failsAs_fault _

theorem failsAs_element (base position : Core.Expr) :
    FailsAs InDeclaration (s.element base position) := by
  rw [element]
  split
  · split
    · exact .ok
    · exact s.failsAs_fault _
  · exact s.failsAs_fault _

theorem failsAs_argument (callee : String) (position : Nat) (param : ParamDecl) (e : Core.Expr) :
    FailsAs InDeclaration (s.argument callee position param e) := by
  rw [argument]
  exact .ite (s.failsAs_fault _) <|
    (Program.failsAs_elaborateType s.program s.symbol param.ty).bind fun _ =>
      .ite (s.failsAs_fault _) (s.failsAs_require _).bind_pure

theorem failsAs_intrinsicTy (i : Intrinsic) (written : Option Surface.TypeExpr) :
    FailsAs InDeclaration (s.intrinsicTy i written) := by
  rw [intrinsicTy]
  exact .ite .ok (s.failsAs_writtenType written)

end Parts

mutual

/-- An expression is refused for a construct or an intrinsic. -/
theorem failsAs_operand (s : Scope) :
    (e : Surface.Expr) → FailsAs InDeclaration (s.operand e)
  | .literal value written => by
    rw [operand]
    exact s.failsAs_literal value
  | .var name written => by
    rw [operand]
    exact (s.failsAs_writtenType written).bind_pure
  | .resource name written => by
    rw [operand]
    exact s.failsAs_resource name
  | .member base member written => by
    rw [operand]
    exact (s.failsAs_operand base).bind fun _ => (s.failsAs_asValue _).bind fun b =>
      s.failsAs_member b member
  | .index base position written => by
    rw [operand]
    exact (s.failsAs_operand base).bind fun b => (s.failsAs_operand position).bind fun _ =>
      (s.failsAs_asValue _).bind fun p => s.failsAs_element b p
  | .unary op operand written => by
    rw [Scope.operand]
    exact (s.failsAs_operand operand).bind fun _ => (s.failsAs_asValue _).bind fun _ =>
      (s.failsAs_require _).bind fun _ => (s.failsAs_writtenType written).bind_pure
  | .binary op lhs rhs written => by
    rw [operand]
    exact (s.failsAs_operand lhs).bind fun _ => (s.failsAs_asValue _).bind fun _ =>
      (s.failsAs_operand rhs).bind fun _ => (s.failsAs_asValue _).bind fun _ =>
      (s.failsAs_require _).bind fun _ => (s.failsAs_writtenType written).bind_pure
  | .conditional condition yes no written => by
    rw [operand]
    exact (s.failsAs_operand condition).bind fun _ => (s.failsAs_asCondition _).bind fun _ =>
      (s.failsAs_operand yes).bind fun _ => (s.failsAs_asValue _).bind fun _ =>
      (s.failsAs_operand no).bind fun _ => (s.failsAs_asValue _).bind fun _ =>
      (s.failsAs_writtenType written).bind_pure
  | .call (.function name) args written => by
    rw [operand]
    split
    · exact s.failsAs_fault _
    · exact (s.failsAs_require _).bind fun _ => (s.failsAs_arguments name 1 _ args).bind fun _ =>
        (s.failsAs_writtenType written).bind_pure
  | .call (.intrinsic name) args written => by
    rw [operand]
    split
    · exact .error .intrinsic
    · exact (s.failsAs_require _).bind fun _ => (s.failsAs_operands args).bind fun _ =>
        (s.failsAs_require _).bind fun _ => (s.failsAs_intrinsicTy _ written).bind_pure
  | .construct args written => by
    rw [operand]
    exact (s.failsAs_writtenType written).bind fun _ => (s.failsAs_values args).bind fun _ =>
      (s.failsAs_require _).bind_pure
  | .cast operand written => by
    rw [Scope.operand]
    exact (s.failsAs_writtenType written).bind fun _ => (s.failsAs_operand operand).bind fun _ =>
      (s.failsAs_asValue _).bind fun _ => (s.failsAs_require _).bind_pure
  | .enumValue enumeration member value written => by
    rw [operand]
    exact .ok
  | .host construct written => by
    rw [operand]
    exact s.failsAs_fault _

theorem failsAs_operands (s : Scope) :
    (es : List Surface.Expr) → FailsAs InDeclaration (s.operands es)
  | [] => .ok
  | e :: rest => by
    rw [operands]
    exact (s.failsAs_operand e).bind fun _ => (s.failsAs_operands rest).bind_pure

theorem failsAs_values (s : Scope) :
    (es : List Surface.Expr) → FailsAs InDeclaration (s.values es)
  | [] => .ok
  | e :: rest => by
    rw [values]
    exact (s.failsAs_operand e).bind fun _ => (s.failsAs_asValue _).bind fun _ =>
      (s.failsAs_values rest).bind_pure

theorem failsAs_arguments (s : Scope) (callee : String) :
    (position : Nat) → (params : List ParamDecl) → (es : List Surface.Expr) →
    FailsAs InDeclaration (s.arguments callee position params es)
  | position, param :: params, e :: rest => by
    rw [arguments]
    exact (s.failsAs_operand e).bind fun _ => (s.failsAs_argument callee position param _).bind
      fun _ => (s.failsAs_arguments callee (position + 1) params rest).bind_pure
  | _, [], _ => by
    simp only [arguments]
    exact .ok
  | _, _ :: _, [] => by
    simp only [arguments]
    exact .ok

end

/-! ## Statements -/

section Parts

variable (s : Scope)

theorem failsAs_value (e : Surface.Expr) : FailsAs InDeclaration (s.value e) :=
  (s.failsAs_operand e).bind s.failsAs_asValue

theorem failsAs_condition (e : Surface.Expr) : FailsAs InDeclaration (s.condition e) :=
  (s.failsAs_operand e).bind s.failsAs_asCondition

theorem failsAs_initializer (ty : Ty) (init : Option Surface.Expr) :
    FailsAs InDeclaration (s.initializer ty init) := by
  cases init with
  | none => exact .ok
  | some e => exact (s.failsAs_value e).bind fun _ => (s.failsAs_require _).bind_pure

theorem failsAs_optionalCondition (condition : Option Surface.Expr) :
    FailsAs InDeclaration (s.optionalCondition condition) := by
  cases condition with
  | none => exact .ok
  | some e => exact (s.failsAs_condition e).bind_pure

theorem failsAs_return? (value : Option Surface.Expr) :
    FailsAs InDeclaration (s.return? value) := by
  cases value with
  | none =>
    rw [return?]
    exact .ite .ok (s.failsAs_fault _)
  | some e => exact (s.failsAs_value e).bind fun _ => (s.failsAs_require _).bind_pure

theorem failsAs_label (e : Surface.Expr) : FailsAs InDeclaration (s.label e) := by
  refine (s.failsAs_value e).bind fun c => ?_
  split
  · exact .ok
  · exact .ok
  · exact s.failsAs_fault _

theorem failsAs_labels (es : List Surface.Expr) : FailsAs InDeclaration (s.labels es) := by
  induction es with
  | nil => exact .ok
  | cons e rest ih => exact (s.failsAs_label e).bind fun _ => ih.bind_pure

end Parts

mutual

/-- A statement is refused for a construct or an intrinsic. -/
theorem failsAs_stmt (s : Scope) :
    (t : Surface.Stmt) → FailsAs InDeclaration (s.stmt t)
  | .declare name ty init => by
    rw [stmt]
    exact (Program.failsAs_elaborateValueType s.program s.symbol ty).bind fun ty =>
      (s.failsAs_initializer ty init).bind_pure
  | .assign target op value => by
    rw [stmt]
    exact (s.failsAs_value target).bind fun _ => (s.failsAs_require _).bind fun _ =>
      (s.failsAs_value value).bind fun _ => (s.failsAs_require _).bind_pure
  | .expr value => by
    rw [stmt]
    exact (s.failsAs_value value).bind_pure
  | .branch condition yes no => by
    rw [stmt]
    exact (s.failsAs_condition condition).bind fun _ => (s.failsAs_stmts yes).bind fun _ =>
      (s.failsAs_optionalStmts no).bind_pure
  | .forLoop init condition step body => by
    rw [stmt]
    exact (s.failsAs_stmts init).bind fun _ => (s.failsAs_require _).bind fun _ =>
      (s.failsAs_optionalCondition condition).bind fun _ => (s.failsAs_stmts step).bind fun _ =>
      (s.failsAs_require _).bind fun _ => (s.failsAs_stmts body).bind_pure
  | .whileLoop condition body => by
    rw [stmt]
    exact (s.failsAs_condition condition).bind fun _ => (s.failsAs_stmts body).bind_pure
  | .doLoop body condition => by
    rw [stmt]
    exact (s.failsAs_stmts body).bind fun _ => (s.failsAs_condition condition).bind_pure
  | .switch selector cases default => by
    rw [stmt]
    exact (s.failsAs_value selector).bind fun _ => .ite ((s.failsAs_cases cases).bind fun _ =>
      (s.failsAs_optionalStmts default).bind_pure) (s.failsAs_fault _)
  | .ret value => by
    rw [stmt]
    exact s.failsAs_return? value
  | .leave => by
    rw [stmt]
    exact .ok
  | .next => by
    rw [stmt]
    exact .ok
  | .block body => by
    rw [stmt]
    exact (s.failsAs_stmts body).bind_pure
  | .host construct => by
    rw [stmt]
    exact s.failsAs_fault _

theorem failsAs_stmts (s : Scope) :
    (body : List Surface.Stmt) → FailsAs InDeclaration (s.stmts body)
  | [] => .ok
  | first :: rest => by
    rw [stmts]
    exact (s.failsAs_stmt first).bind fun _ => (s.failsAs_stmts rest).bind_pure

theorem failsAs_optionalStmts (s : Scope) :
    (body : Option (List Surface.Stmt)) → FailsAs InDeclaration (s.optionalStmts body)
  | none => .ok
  | some body => by
    rw [optionalStmts]
    exact (s.failsAs_stmts body).bind_pure

theorem failsAs_cases (s : Scope) :
    (cases : List Surface.Case) → FailsAs InDeclaration (s.cases cases)
  | [] => .ok
  | .mk labels body :: rest => by
    rw [Scope.cases]
    exact (s.failsAs_labels labels).bind fun _ => (s.failsAs_stmts body).bind fun _ =>
      (s.failsAs_cases rest).bind_pure

end

end Scope

/-! ## Functions -/

namespace Program

variable (p : Program) (symbol : String)

theorem failsAs_elaborateParam (d : ParamDecl) :
    FailsAs InDeclaration (p.elaborateParam symbol d) :=
  (failsAs_elaborateValueType p symbol d.ty).bind fun _ => .ite (failsAs_fault symbol _) .ok

theorem failsAs_elaborateResult (result : Surface.TypeExpr) :
    FailsAs InDeclaration (p.elaborateResult symbol result) :=
  (failsAs_elaborateType p symbol result).bind fun _ => .ite (failsAs_fault symbol _) .ok

/-- A function is refused for a construct or an intrinsic. -/
theorem failsAs_elaborateFunction (d : FunctionDecl) :
    FailsAs InDeclaration (p.elaborateFunction d) :=
  (FailsAs.mapM (failsAs_elaborateParam p d.name) d.params).bind fun _ =>
    (failsAs_elaborateResult p d.name d.result).bind fun result =>
      (Scope.failsAs_stmts ⟨p, d.name, result⟩ d.body).bind_pure

end Program

end Shading
