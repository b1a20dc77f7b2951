import Shading.Elaboration.Function
import Shading.Proofs.Result

/-!
# Elaboration in a larger program

A program is extended by structs and functions of new names, put in anywhere.  Names
that were declared refer to what they referred to (`Extends.struct?`,
`Extends.function?`).  Elaboration looks names up and takes a name that is not found for
a fault, so whatever it makes in the program it makes in the extension
(`kept_elaborateFunction`).
-/

namespace Shading

/-! ## Extensions -/

/-- A list with further members put in anywhere. -/
inductive Inserted {α : Type} (fresh : α → Prop) : List α → List α → Prop where
  | nil : Inserted fresh [] []
  | keep {a : α} {old new : List α} : Inserted fresh old new → Inserted fresh (a :: old) (a :: new)
  | insert {a : α} {old new : List α} : fresh a → Inserted fresh old new →
      Inserted fresh old (a :: new)

namespace Inserted

variable {α : Type} {fresh : α → Prop} {old new : List α}

theorem refl (list : List α) : Inserted fresh list list := by
  induction list with
  | nil => exact .nil
  | cons _ _ ih => exact .keep ih

theorem length_le (h : Inserted fresh old new) : old.length ≤ new.length := by
  induction h with
  | nil => exact Nat.le_refl _
  | keep _ ih => exact Nat.succ_le_succ ih
  | insert _ _ ih => exact Nat.le_succ_of_le ih

/-- What only picks members that are not new picks the same. -/
theorem find?_eq (h : Inserted fresh old new) {q : α → Bool} (hq : ∀ a, fresh a → q a = false) :
    new.find? q = old.find? q := by
  induction h with
  | nil => rfl
  | @keep a _ _ _ ih => rw [List.find?_cons, List.find?_cons, ih]
  | @insert a _ _ ha _ ih => rw [List.find?_cons_of_neg (by simp [hq a ha]), ih]

theorem filter_eq (h : Inserted fresh old new) {q : α → Bool} (hq : ∀ a, fresh a → q a = false) :
    new.filter q = old.filter q := by
  induction h with
  | nil => rfl
  | @keep a _ _ _ ih => rw [List.filter_cons, List.filter_cons, ih]
  | @insert a _ _ ha _ ih => rw [List.filter_cons_of_neg (by simp [hq a ha]), ih]

end Inserted

/-- A program extended by structs and functions of new names, and by any shader sets.  What
is new may be ill-formed. -/
structure Program.Extends (p p' : Program) : Prop where
  structs : Inserted (fun d => d.name ∉ p.structs.map (·.name)) p.structs p'.structs
  functions : Inserted (fun d => d.name ∉ p.functions.map (·.name)) p.functions p'.functions
  resources : p'.resources = p.resources

namespace Program

variable {p p' : Program}

namespace Extends

/-- A name that is declared picks nothing that is new. -/
theorem find?_of_inserted {α : Type} {key : α → String} {old new : List α}
    (h : Inserted (fun a => key a ∉ old.map key) old new) {name : String} {a : α}
    (ha : old.find? (key · == name) = some a) : new.find? (key · == name) = some a := by
  rw [h.find?_eq, ha]
  intro b hb
  have hname : key a = name := by simpa using List.find?_some ha
  refine beq_eq_false_iff_ne.2 fun heq => hb ?_
  rw [heq, ← hname]
  exact List.mem_map_of_mem (List.mem_of_find?_eq_some ha)

theorem struct? (h : p.Extends p') {name : String} {d : StructDecl} (hd : p.struct? name = some d) :
    p'.struct? name = some d := find?_of_inserted h.structs hd

theorem function? (h : p.Extends p') {name : String} {d : FunctionDecl}
    (hd : p.function? name = some d) : p'.function? name = some d :=
  find?_of_inserted h.functions hd

theorem resource? (h : p.Extends p') (name : String) : p'.resource? name = p.resource? name := by
  rw [Program.resource?, h.resources, Program.resource?]

end Extends

/-! ## Types and declarations -/

variable (h : p.Extends p') (symbol : String)

include h

theorem kept_elaborateType (ty : Surface.TypeExpr) :
    Kept (p.elaborateType symbol ty) (p'.elaborateType symbol ty) := by
  induction ty with
  | named name =>
    rw [elaborateType, elaborateType]
    cases hd : p.struct? name with
    | none => exact .error
    | some d =>
      rw [h.struct? hd]
      exact .refl _
  | array element length ih =>
    rw [elaborateType, elaborateType]
    exact ih.bind_left
  | _ => exact .refl _

theorem kept_elaborateValueType (ty : Surface.TypeExpr) :
    Kept (p.elaborateValueType symbol ty) (p'.elaborateValueType symbol ty) :=
  (kept_elaborateType h symbol ty).bind_left

theorem kept_elaborateFields (struct : String) (earlier : List String) (fields : List FieldDecl) :
    Kept (p.elaborateFields struct earlier fields) (p'.elaborateFields struct earlier fields) := by
  induction fields generalizing earlier with
  | nil => exact .refl _
  | cons field rest ih =>
    rw [elaborateFields, elaborateFields]
    refine (Kept.refl _).bind fun _ _ => (kept_elaborateValueType h struct field.ty).bind fun ty _ => ?_
    split
    · exact .error
    · exact (ih _).bind_left

theorem kept_elaborateStruct (d : StructDecl) :
    Kept (p.elaborateStruct d) (p'.elaborateStruct d) :=
  (kept_elaborateFields h d.name [] d.fields).bind_left

theorem kept_elaborateElement (d : ResourceDecl) :
    Kept (p.elaborateElement d) (p'.elaborateElement d) := by
  rw [elaborateElement, elaborateElement]
  split
  · split
    · exact .error
    · exact (kept_elaborateValueType h d.name _).bind_left
  · exact .refl _

theorem kept_elaborateResource (d : ResourceDecl) :
    Kept (p.elaborateResource d) (p'.elaborateResource d) :=
  (kept_elaborateElement h d).bind_left

end Program

/-! ## Expressions -/

/-- The scope of the same function in another program. -/
def Scope.inProgram (s : Scope) (p : Program) : Scope := { s with program := p }

namespace Scope

variable {s : Scope} {p' : Program}

section Parts

variable (h : s.program.Extends p')

include h

theorem kept_writtenType (written : Option Surface.TypeExpr) :
    Kept (s.writtenType written) ((s.inProgram p').writtenType written) := by
  cases written with
  | none => exact .error
  | some ty => exact Program.kept_elaborateType h s.symbol ty

theorem kept_resource (name : String) :
    Kept (s.resource name) ((s.inProgram p').resource name) := by
  rw [resource, resource, show (s.inProgram p').program.resource? name = s.program.resource? name
    from h.resource? name]
  split
  · exact .error
  · exact (Program.kept_elaborateResource h _).bind_left

theorem kept_fieldMember (base : Core.Expr) (struct member : String) :
    Kept (s.fieldMember base struct member) ((s.inProgram p').fieldMember base struct member) := by
  rw [fieldMember, fieldMember]
  cases hd : s.program.struct? struct with
  | none => exact .error
  | some d =>
    rw [show (s.inProgram p').program.struct? struct = some d from h.struct? hd]
    simp only
    split
    · exact .error
    · exact (Program.kept_elaborateValueType h s.symbol _).bind_left

theorem kept_member (base : Core.Expr) (name : String) :
    Kept (s.member base name) ((s.inProgram p').member base name) := by
  rw [member, member]
  split
  · exact kept_fieldMember h base _ name
  all_goals exact .refl _

theorem kept_argument (callee : String) (position : Nat) (param : ParamDecl) (e : Core.Expr) :
    Kept (s.argument callee position param e)
      ((s.inProgram p').argument callee position param e) := by
  rw [argument, argument]
  split
  · exact .error
  · exact (Program.kept_elaborateType h s.symbol param.ty).bind_left

theorem kept_intrinsicTy (i : Intrinsic) (written : Option Surface.TypeExpr) :
    Kept (s.intrinsicTy i written) ((s.inProgram p').intrinsicTy i written) := by
  rw [intrinsicTy, intrinsicTy]
  split
  · exact .refl _
  · exact kept_writtenType h written

end Parts

mutual

/-- An expression keeps its core expression. -/
theorem kept_operand (h : s.program.Extends p') :
    (e : Surface.Expr) → Kept (s.operand e) ((s.inProgram p').operand e)
  | .literal value written => by
    rw [operand, operand]
    exact .refl _
  | .var name written => by
    rw [operand, operand]
    exact (kept_writtenType h written).bind_left
  | .resource name written => by
    rw [operand, operand]
    exact kept_resource h name
  | .member base member written => by
    rw [operand, operand]
    exact (kept_operand h base).bind fun b _ => (Kept.refl _).bind fun b _ => kept_member h b member
  | .index base position written => by
    rw [operand, operand]
    exact (kept_operand h base).bind fun b _ => (kept_operand h position).bind_left
  | .unary op operand written => by
    rw [Scope.operand, Scope.operand]
    exact (kept_operand h operand).bind fun _ _ => (Kept.refl _).bind fun _ _ =>
      (Kept.refl _).bind fun _ _ => (kept_writtenType h written).bind_left
  | .binary op lhs rhs written => by
    rw [operand, operand]
    exact (kept_operand h lhs).bind fun _ _ => (Kept.refl _).bind fun _ _ =>
      (kept_operand h rhs).bind fun _ _ => (Kept.refl _).bind fun _ _ =>
      (Kept.refl _).bind fun _ _ => (kept_writtenType h written).bind_left
  | .conditional condition yes no written => by
    rw [operand, operand]
    exact (kept_operand h condition).bind fun _ _ => (Kept.refl _).bind fun _ _ =>
      (kept_operand h yes).bind fun _ _ => (Kept.refl _).bind fun _ _ =>
      (kept_operand h no).bind fun _ _ => (Kept.refl _).bind fun _ _ =>
      (kept_writtenType h written).bind_left
  | .call (.function name) args written => by
    rw [operand, operand]
    cases hd : s.program.function? name with
    | none => exact .error
    | some d =>
      rw [show (s.inProgram p').program.function? name = some d from h.function? hd]
      exact (Kept.refl _).bind fun _ _ => (kept_arguments h name 1 d.params args).bind fun _ _ =>
        (kept_writtenType h written).bind_left
  | .call (.intrinsic name) args written => by
    rw [operand, operand]
    split
    · exact .error
    · next i _ =>
      exact (Kept.refl _).bind fun _ _ => (kept_operands h args).bind fun _ _ =>
        (Kept.refl _).bind fun _ _ => (kept_intrinsicTy h i written).bind_left
  | .construct args written => by
    rw [operand, operand]
    exact (kept_writtenType h written).bind fun _ _ => (kept_values h args).bind_left
  | .cast operand written => by
    rw [Scope.operand, Scope.operand]
    exact (kept_writtenType h written).bind fun _ _ => (kept_operand h operand).bind_left
  | .enumValue enumeration member value written => by
    rw [operand, operand]
    exact .refl _
  | .host construct written => by
    rw [operand, operand]
    exact .error

theorem kept_operands (h : s.program.Extends p') : (es : List Surface.Expr) →
    Kept (s.operands es) ((s.inProgram p').operands es)
  | [] => .refl _
  | e :: rest => by
    rw [operands, operands]
    exact (kept_operand h e).bind fun _ _ => (kept_operands h rest).bind_left

theorem kept_values (h : s.program.Extends p') : (es : List Surface.Expr) →
    Kept (s.values es) ((s.inProgram p').values es)
  | [] => .refl _
  | e :: rest => by
    rw [values, values]
    exact (kept_operand h e).bind fun _ _ => (Kept.refl _).bind fun _ _ =>
      (kept_values h rest).bind_left

theorem kept_arguments (h : s.program.Extends p') (callee : String) :
    (position : Nat) → (params : List ParamDecl) → (es : List Surface.Expr) →
    Kept (s.arguments callee position params es)
      ((s.inProgram p').arguments callee position params es)
  | position, param :: params, e :: rest => by
    rw [arguments, arguments]
    exact (kept_operand h e).bind fun c _ => (kept_argument h callee position param c).bind fun _ _ =>
      (kept_arguments h callee (position + 1) params rest).bind_left
  | _, [], _ => by
    simp only [arguments]
    exact .refl _
  | _, _ :: _, [] => by
    simp only [arguments]
    exact .refl _

end

/-! ## Statements -/

section Parts

variable (h : s.program.Extends p')

include h

theorem kept_value (e : Surface.Expr) : Kept (s.value e) ((s.inProgram p').value e) :=
  (kept_operand h e).bind_left

theorem kept_condition (e : Surface.Expr) : Kept (s.condition e) ((s.inProgram p').condition e) :=
  (kept_operand h e).bind_left

theorem kept_initializer (ty : Ty) (init : Option Surface.Expr) :
    Kept (s.initializer ty init) ((s.inProgram p').initializer ty init) := by
  cases init with
  | none => exact .refl _
  | some e => exact (kept_value h e).bind_left

theorem kept_optionalCondition (condition : Option Surface.Expr) :
    Kept (s.optionalCondition condition) ((s.inProgram p').optionalCondition condition) := by
  cases condition with
  | none => exact .refl _
  | some e => exact (kept_condition h e).bind_left

theorem kept_return? (value : Option Surface.Expr) :
    Kept (s.return? value) ((s.inProgram p').return? value) := by
  cases value with
  | none => exact .refl _
  | some e => exact (kept_value h e).bind_left

theorem kept_label (e : Surface.Expr) : Kept (s.label e) ((s.inProgram p').label e) :=
  (kept_value h e).bind_left

theorem kept_labels (es : List Surface.Expr) :
    Kept (s.labels es) ((s.inProgram p').labels es) := by
  induction es with
  | nil => exact .refl _
  | cons e rest ih => exact (kept_label h e).bind fun _ _ => ih.bind_left

end Parts

mutual

/-- A statement keeps its core statement. -/
theorem kept_stmt (h : s.program.Extends p') :
    (t : Surface.Stmt) → Kept (s.stmt t) ((s.inProgram p').stmt t)
  | .declare name ty init => by
    rw [stmt, stmt]
    exact (Program.kept_elaborateValueType h s.symbol ty).bind fun ty _ =>
      (kept_initializer h ty init).bind_left
  | .assign target op value => by
    rw [stmt, stmt]
    exact (kept_value h target).bind fun _ _ => (Kept.refl _).bind fun _ _ =>
      (kept_value h value).bind_left
  | .expr value => by
    rw [stmt, stmt]
    exact (kept_value h value).bind_left
  | .branch condition yes no => by
    rw [stmt, stmt]
    exact (kept_condition h condition).bind fun _ _ => (kept_stmts h yes).bind fun _ _ =>
      (kept_optionalStmts h no).bind_left
  | .forLoop init condition step body => by
    rw [stmt, stmt]
    exact (kept_stmts h init).bind fun _ _ => (Kept.refl _).bind fun _ _ =>
      (kept_optionalCondition h condition).bind fun _ _ => (kept_stmts h step).bind fun _ _ =>
      (Kept.refl _).bind fun _ _ => (kept_stmts h body).bind_left
  | .whileLoop condition body => by
    rw [stmt, stmt]
    exact (kept_condition h condition).bind fun _ _ => (kept_stmts h body).bind_left
  | .doLoop body condition => by
    rw [stmt, stmt]
    exact (kept_stmts h body).bind fun _ _ => (kept_condition h condition).bind_left
  | .switch selector cases default => by
    rw [stmt, stmt]
    refine (kept_value h selector).bind fun _ _ => ?_
    split
    · exact (kept_cases h cases).bind fun _ _ => (kept_optionalStmts h default).bind_left
    · exact .error
  | .ret value => by
    rw [stmt, stmt]
    exact kept_return? h value
  | .leave => by
    rw [stmt, stmt]
    exact .refl _
  | .next => by
    rw [stmt, stmt]
    exact .refl _
  | .block body => by
    rw [stmt, stmt]
    exact (kept_stmts h body).bind_left
  | .host construct => by
    rw [stmt, stmt]
    exact .error

theorem kept_stmts (h : s.program.Extends p') :
    (body : List Surface.Stmt) → Kept (s.stmts body) ((s.inProgram p').stmts body)
  | [] => .refl _
  | first :: rest => by
    rw [stmts, stmts]
    exact (kept_stmt h first).bind fun _ _ => (kept_stmts h rest).bind_left

theorem kept_optionalStmts (h : s.program.Extends p') :
    (body : Option (List Surface.Stmt)) →
      Kept (s.optionalStmts body) ((s.inProgram p').optionalStmts body)
  | none => .refl _
  | some body => by
    rw [optionalStmts, optionalStmts]
    exact (kept_stmts h body).bind_left

theorem kept_cases (h : s.program.Extends p') :
    (cases : List Surface.Case) → Kept (s.cases cases) ((s.inProgram p').cases cases)
  | [] => .refl _
  | .mk labels body :: rest => by
    rw [Scope.cases, Scope.cases]
    exact (kept_labels h labels).bind fun _ _ => (kept_stmts h body).bind fun _ _ =>
      (kept_cases h rest).bind_left

end

end Scope

/-! ## Functions -/

namespace Program

variable {p p' : Program} (h : p.Extends p')

include h

theorem kept_elaborateParam (symbol : String) (d : ParamDecl) :
    Kept (p.elaborateParam symbol d) (p'.elaborateParam symbol d) :=
  (kept_elaborateValueType h symbol d.ty).bind_left

theorem kept_elaborateResult (symbol : String) (result : Surface.TypeExpr) :
    Kept (p.elaborateResult symbol result) (p'.elaborateResult symbol result) :=
  (kept_elaborateType h symbol result).bind_left

/-- A declaration stands for the same function in a larger program. -/
theorem kept_elaborateFunction (d : FunctionDecl) :
    Kept (p.elaborateFunction d) (p'.elaborateFunction d) :=
  (Kept.mapM fun param _ => kept_elaborateParam h d.name param).bind fun _ _ =>
    (kept_elaborateResult h d.name d.result).bind fun result _ =>
      (Scope.kept_stmts (s := ⟨p, d.name, result⟩) h d.body).bind_left

end Program

end Shading
