import Shading.Proofs.Elaboration.Places
import Shading.Proofs.Model.Order
import Shading.Target.Hlsl
import Shading.Target.Metal

/-!
# Void values

A call of a function without a result is of type void, and so is a barrier and everything
that is annotated so.  Such a value is for a statement of its own.  Fields, local variables,
parameters and elements are refused when they are void, and so is what has to be of a type:
conditions, positions, selectors, components, coordinates, and what is converted or plainly
assigned.

Other places are checked for resources alone.  An operator other than the remainder takes a
void operand, a conditional takes void branches, an intrinsic takes void arguments, and a
compound assignment a void value.  A variable that is annotated void is assigned to, and a
function without a result returns a void value.  `Expr.TakesVoid` and `Stmt.TakesVoid` list
these places.

Void values stand in the places listed and in no others (`Made.takesVoid`,
`ElaboratedStmt.takesVoid`), and each place is open to all of them (`Value.opens`).  A
call of a function with a void parameter is among the places, but no model has one: the
function called is elaborated, too, and its parameter is refused.
-/

namespace Shading

namespace Core

/-! ## Where void values can stand -/

/-- The forms of an expression that can be void. -/
inductive Expr.VoidForm : Expr → Prop where
  | var {name} : VoidForm (.var name .void)
  | unary {op operand} : VoidForm (.unary op operand .void)
  | binary {op lhs rhs} : VoidForm (.binary op lhs rhs .void)
  | conditional {condition yes no} : VoidForm (.conditional condition yes no .void)
  | call {function args} : VoidForm (.call function args .void)
  | intrinsic {i args} : VoidForm (.intrinsic i args .void)

/-- An expression takes a void value as a part. -/
inductive Expr.TakesVoid (p : Program) (x : Expr) : Expr → Prop where
  /-- What an operator writes is a variable. -/
  | operand {op ty} : (op.isMutating = true → ∃ name, x = .var name .void) →
      TakesVoid p x (.unary op x ty)
  | left {op rhs ty} : op ≠ .rem → TakesVoid p x (.binary op x rhs ty)
  | right {op lhs ty} : op ≠ .rem → TakesVoid p x (.binary op lhs x ty)
  | yes {condition no ty} : TakesVoid p x (.conditional condition x no ty)
  | no {condition yes ty} : TakesVoid p x (.conditional condition yes x ty)
  /-- The parameter is declared to be void. -/
  | argument {function args ty d param} : p.function? function = some d →
      (param, x) ∈ d.params.zip args → param.ty = .void → TakesVoid p x (.call function args ty)
  | intrinsic {i args ty} : i.isTextureOperation = false → x ∈ args →
      TakesVoid p x (.intrinsic i args ty)

/-- A statement of a function with a result type takes a void value. -/
inductive Stmt.TakesVoid (result : Ty) (x : Expr) : Stmt → Prop where
  /-- The value is the statement. -/
  | expr : TakesVoid result x (.expr x)
  | target {name op value} : x = .var name .void → op ≠ .rem →
      (op = .assign → value.ty = .void) → TakesVoid result x (.assign x op value)
  | assigned {name} : TakesVoid result x (.assign (.var name .void) .assign x)
  | combined {target op} : op ≠ .assign → op ≠ .rem → TakesVoid result x (.assign target op x)
  | ret : result = .void → TakesVoid result x (.ret (some x))

end Core

/-- The void values of a function. -/
structure Function.PlacesVoid (p : Program) (f : Function) : Prop where
  params : ∀ param ∈ f.params, param.ty ≠ .void
  declared : ∀ name ty init, (Core.Stmt.declare name ty init).OccursIn f.body → ty ≠ .void
  forms : ∀ e : Core.Expr, e.OccursIn f.body → e.ty = .void → e.VoidForm
  parts : ∀ e : Core.Expr, e.OccursIn f.body → ∀ x ∈ e.children, x.ty = .void → x.TakesVoid p e
  stmts : ∀ t : Core.Stmt, t.OccursIn f.body → ∀ x, t.Holds x → x.ty = .void →
    t.TakesVoid f.result x

/-! ## Types that are not void -/

theorem Ty.ne_void {ty : Ty} (h : ty.isVoid = false) : ty ≠ .void := by
  rintro rfl
  cases h

/-- The elements of a value are not void. -/
theorem Ty.Element.isVoid_eq {p : Program} {base ty : Ty} (h : base.Element ty)
    (hb : base.WellFormed p) : ty.isVoid = false := by
  cases h with
  | array => cases hb with | plain hb => cases hb with | array _ hv _ _ => exact hv
  | vector => rfl
  | matrix => rfl
  | buffer =>
    cases hb with
    | plain hb => cases hb
    | buffer _ _ hv _ => exact hv

/-- Neither what is constructed nor a part of it is void. -/
theorem Ty.Composes.ne_void {args : List Ty} {ty : Ty} (h : Composes args ty) :
    ty ≠ .void ∧ ∀ a ∈ args, a ≠ .void := by
  have hinterface : ∀ a : Ty, a.isInterface = true → a ≠ .void := by
    rintro a ha rfl
    cases ha
  cases h with
  | vector hargs => exact ⟨nofun, fun a ha => hinterface a (hargs a ha)⟩
  | @fill a _ _ hone =>
    refine ⟨nofun, List.forall_mem_singleton.2 ?_⟩
    rintro rfl
    cases hone
  | matrix hargs => exact ⟨nofun, fun a ha => hinterface a (hargs a ha)⟩

theorem Ty.Converts.ne_void {source target : Ty} (h : source.Converts target) :
    source ≠ .void ∧ target ≠ .void := by cases h <;> exact ⟨nofun, nofun⟩

/-- A texture operation takes no void argument. -/
theorem Intrinsic.Accepts.isTextureOperation_eq {i : Intrinsic} {args : List Ty}
    (h : i.Accepts args) (hv : .void ∈ args) : i.isTextureOperation = false := by
  have hsamples : ∀ texture sampler coordinates : Ty, texture.Samples sampler coordinates →
      texture ≠ .void ∧ sampler ≠ .void ∧ coordinates ≠ .void := by
    intro texture sampler coordinates hs
    obtain ⟨kind, size, hkind, -, rfl⟩ := hs.texture
    refine ⟨?_, ?_, nofun⟩
    · rintro rfl
      cases hkind
    · rintro rfl
      cases hs.sampler
  cases h with
  | sample hs =>
    obtain ⟨ht, hsampler, hc⟩ := hsamples _ _ _ hs
    simp [ht.symm, hsampler.symm, hc.symm] at hv
  | sampleLevel hs =>
    obtain ⟨ht, hsampler, hc⟩ := hsamples _ _ _ hs
    simp [ht.symm, hsampler.symm, hc.symm, Ty.float] at hv
  | load ht hc hs =>
    simp only [List.mem_cons, List.not_mem_nil, or_false] at hv
    rcases hv with rfl | rfl | rfl
    · cases ht
    · cases hc
    · cases hs
  | values hi => exact hi

theorem Program.Denotes.eq_void {p : Program} {written : Surface.TypeExpr}
    (h : p.Denotes written .void) : written = .void := by cases h; rfl

namespace Scope

open Shading.Core (Expr)

variable {s : Scope}

/-! ## Void values of elaborated code -/

theorem Made.voidForm {e : Expr} (h : s.Made e) (hv : e.ty = .void) : e.VoidForm := by
  cases h with
  | source h =>
    cases elaborated_of_operand h with
    | @literal value => cases value <;> cases hv
    | var => cases hv; exact .var
    | uniform hr _ he => exact absurd hv (Ty.ne_void (hr.declares.element he).2)
    | @resource _ _ r => cases r with | mk kind element access => cases element <;> cases hv
    | field _ _ _ _ _ hvalue => exact absurd hv (Ty.ne_void hvalue)
    | @swizzle _ _ _ _ kind _ components =>
      have hv : swizzleTy kind components = .void := hv
      rw [swizzleTy] at hv
      split at hv <;> cases hv
    | matrixElement => cases hv
    | index hb _ _ hty =>
      have helement := (Ty.element_of_elementTy? hty).isVoid_eq (Made.source hb).wellFormed
      exact absurd hv (Ty.ne_void helement)
    | unary => cases hv; exact .unary
    | binary => cases hv; exact .binary
    | conditional => cases hv; exact .conditional
    | call => cases hv; exact .call
    | intrinsic => cases hv; exact .intrinsic
    | construct _ _ hf => exact absurd hv (Ty.composes_of_constructFault? hf).ne_void.1
    | cast _ _ hf => exact absurd hv (Ty.converts_of_castFault? hf).ne_void.2
    | enumValue => cases hv
  | row => cases hv
  | position => cases hv
  | @product _ _ t v =>
    rw [show t.ty = .void from hv]
    exact .binary

/-- Of the void values only variables are written. -/
theorem Made.exists_var {e : Expr} (h : s.Made e) (hv : e.ty = .void)
    (hw : e.writeFault? = none) : ∃ name, e = .var name .void := by
  cases h.voidForm hv with
  | var => exact ⟨_, rfl⟩
  | _ => cases hw

/-- A remainder has no void operand. -/
theorem ne_rem_of_binaryFault? {op : BinaryOp} {lhs rhs : Ty}
    (h : Core.binaryFault? op lhs rhs = none) (hv : lhs = .void ∨ rhs = .void) : op ≠ .rem := by
  rintro rfl
  rcases hv with rfl | rfl <;> simp [Core.binaryFault?, Ty.isInteger, Ty.scalarKind?] at h

theorem ne_rem_of_assignFault? {op : AssignOp} {target value : Expr}
    (h : Core.assignFault? target op value = none) (hv : target.ty = .void ∨ value.ty = .void) :
    op ≠ .rem := by
  rintro rfl
  rcases hv with hv | hv <;> simp [Core.assignFault?, hv, Ty.isInteger, Ty.scalarKind?] at h

/-- A void part of an expression is taken as one. -/
theorem Made.takesVoid {e x : Expr} (h : s.Made e) (hx : x ∈ e.children) (hv : x.ty = .void) :
    x.TakesVoid s.program e := by
  cases h with
  | source h =>
    cases elaborated_of_operand h with
    | literal => cases hx
    | var => cases hx
    | uniform => cases hx
    | resource => cases hx
    | enumValue => cases hx
    | field _ hty =>
      obtain rfl := List.mem_singleton.1 hx
      cases hv.symm.trans hty
    | swizzle _ hty =>
      obtain rfl := List.mem_singleton.1 hx
      cases hv.symm.trans hty
    | matrixElement =>
      rcases Expr.mem_children_index.1 hx with rfl | rfl <;> cases hv
    | index _ _ hint hty =>
      rcases Expr.mem_children_index.1 hx with rfl | rfl
      · rw [hv] at hty
        cases hty
      · rw [hv] at hint
        cases hint
    | unary hc hw =>
      obtain rfl := List.mem_singleton.1 hx
      exact .operand fun hop => hc.made.exists_var hv (hw hop)
    | binary _ _ hf =>
      rcases Expr.mem_children_binary.1 hx with rfl | rfl
      · exact .left (ne_rem_of_binaryFault? hf (.inl hv))
      · exact .right (ne_rem_of_binaryFault? hf (.inr hv))
    | conditional hc =>
      rcases Expr.mem_children_conditional.1 hx with rfl | rfl | rfl
      · cases hv.symm.trans hc.2
      · exact .yes
      · exact .no
    | call hd _ _ hps =>
      obtain ⟨param, hp, hzip⟩ := exists_mem_zip_map id hps.flip hx
      rw [List.map_id] at hzip
      have hp : s.Passes param x := hp
      exact .argument hd hzip (hv ▸ hp.denotes).eq_void
    | intrinsic _ hl hcs hf =>
      have haccepts := Intrinsic.accepts_of_intrinsicFault? (hcs.length_eq ▸ hl) hf
      exact .intrinsic (haccepts.isTextureOperation_eq (hv ▸ List.mem_map_of_mem hx)) hx
    | construct _ _ hf =>
      exact absurd hv ((Ty.composes_of_constructFault? hf).ne_void.2 _ (List.mem_map_of_mem hx))
    | cast _ _ hf =>
      obtain rfl := List.mem_singleton.1 hx
      exact absurd hv (Ty.converts_of_castFault? hf).ne_void.1
  | row _ hty =>
    rcases Expr.mem_children_index.1 hx with rfl | rfl
    · cases hv.symm.trans hty
    · cases hv
  | position => cases hx
  | product =>
    rcases Expr.mem_children_binary.1 hx with rfl | rfl
    · exact .left (by decide)
    · exact .right (by decide)

/-- A void value of a statement is taken as one. -/
theorem ElaboratedStmt.takesVoid {a : Surface.Stmt} {t : Core.Stmt} (h : s.ElaboratedStmt a t)
    {x : Expr} (hx : t.Holds x) (hv : x.ty = .void) : t.TakesVoid s.result x := by
  cases h with
  | declare _ hty hc =>
    cases hx
    cases hc with
    | some hc => exact absurd hv (hc.2 ▸ Ty.ne_void hty)
  | @assign _ op _ t v ht hw _ hf _ =>
    have hplain : op = .assign → v.ty = t.ty := by
      rintro rfl
      simpa [Core.assignFault?] using hf
    cases hx with
    | target =>
      obtain ⟨name, rfl⟩ := ht.made.exists_var hv hw
      exact .target rfl (ne_rem_of_assignFault? hf (.inl hv)) hplain
    | value =>
      by_cases hop : op = .assign
      · obtain ⟨name, rfl⟩ := ht.made.exists_var ((hplain hop).symm.trans hv) hw
        exact hop ▸ .assigned
      · exact .combined hop (ne_rem_of_assignFault? hf (.inr hv))
  | @product _ _ t v ht hw =>
    -- The product has the type of the target, so both are void or neither is.
    have hty : t.ty = .void := by cases hx <;> exact hv
    obtain ⟨name, rfl⟩ := ht.made.exists_var hty hw
    cases hx with
    | target => exact .target rfl (by decide) fun _ => rfl
    | value => exact .assigned
  | expr => cases hx; exact .expr
  | branch hc => cases hx; cases hv.symm.trans hc.2
  | forLoop _ _ hc =>
    cases hx
    cases hc with
    | some hc => cases hv.symm.trans hc.2
  | whileLoop hc => cases hx; cases hv.symm.trans hc.2
  | doLoop _ hc => cases hx; cases hv.symm.trans hc.2
  | switch _ hint =>
    cases hx
    rw [hv] at hint
    cases hint
  | retNone => cases hx
  | ret _ hty => cases hx; exact .ret (hty.symm.trans hv)
  | leave => cases hx
  | next => cases hx
  | block => cases hx

/-! ## Places that are open -/

/-- Places that take a value for no other reason than that it is one. -/
structure Opens (s : Scope) (e : Surface.Expr) (c : Expr) : Prop where
  operand : ∀ op written ty, (op.isMutating = true → c.writeFault? = none) →
    s.program.Denotes written ty → s.operand (.unary op e (some written)) = .ok (.unary op c ty)
  left : ∀ op other o written ty, op ≠ .rem → s.Value other o → s.program.Denotes written ty →
    s.operand (.binary op e other (some written)) = .ok (.binary op c o ty)
  right : ∀ op other o written ty, op ≠ .rem → s.Value other o → s.program.Denotes written ty →
    s.operand (.binary op other e (some written)) = .ok (.binary op o c ty)
  yes : ∀ condition b other o written ty, s.Condition condition b → s.Value other o →
    s.program.Denotes written ty →
    s.operand (.conditional condition e other (some written)) = .ok (.conditional b c o ty)
  no : ∀ condition b other o written ty, s.Condition condition b → s.Value other o →
    s.program.Denotes written ty →
    s.operand (.conditional condition other e (some written)) = .ok (.conditional b o c ty)
  intrinsic : ∀ name i before after bs cs written ty, Named.ofName? name = some i →
    i.isTextureOperation = false → (before ++ e :: after).length = i.arity →
    List.Forall₂ s.Value before bs → List.Forall₂ s.Value after cs →
    s.program.Denotes written ty →
    s.operand (.call (.intrinsic name) (before ++ e :: after) (some written)) =
      .ok (.intrinsic i (bs ++ c :: cs) ty)
  expr : s.stmt (.expr e) = .ok (.expr c)
  combined : ∀ target t op, s.Value target t → t.writeFault? = none → op ≠ .assign → op ≠ .rem →
    s.stmt (.assign target op e) = .ok (assignment t op c)
  /-- The target is of the type of the value. -/
  assigned : ∀ target t, s.Value target t → t.writeFault? = none → c.ty = t.ty →
    s.stmt (.assign target .assign e) = .ok (.assign t .assign c)
  /-- The value is of the type that the function returns. -/
  returned : c.ty = s.result → s.stmt (.ret (some e)) = .ok (.ret (some c))

variable {e other condition : Surface.Expr} {c o b : Expr} {written : Surface.TypeExpr} {ty : Ty}

theorem operand_binary {op : BinaryOp} (hop : op ≠ .rem) (h : s.Value e c) (ho : s.Value other o)
    (ht : s.program.Denotes written ty) :
    s.operand (.binary op e other (some written)) = .ok (.binary op c o ty) := by
  simp only [operand, bind_eq_ok, pure_eq_ok, asValue_eq_ok, require_eq_ok, writtenType_eq_ok]
  refine ⟨c, h.1, c, ⟨rfl, h.2⟩, o, ho.1, o, ⟨rfl, ho.2⟩, (), ?_, ty, ⟨written, rfl, ht⟩, rfl⟩
  simp [Core.binaryFault?, hop]

theorem operand_conditional (hb : s.Condition condition b) (h : s.Value e c) (ho : s.Value other o)
    (ht : s.program.Denotes written ty) :
    s.operand (.conditional condition e other (some written)) = .ok (.conditional b c o ty) := by
  simp only [operand, bind_eq_ok, pure_eq_ok, asValue_eq_ok, asCondition_eq_ok, writtenType_eq_ok]
  exact ⟨b, hb.1, b, ⟨rfl, hb.2⟩, c, h.1, c, ⟨rfl, h.2⟩, o, ho.1, o, ⟨rfl, ho.2⟩, ty,
    ⟨written, rfl, ht⟩, rfl⟩

/-- An intrinsic that is no texture operation takes values of every type. -/
theorem operand_intrinsic {name : String} {i : Intrinsic} {args : List Surface.Expr}
    {cs : List Expr} (hi : Named.ofName? name = some i) (htexture : i.isTextureOperation = false)
    (hbarrier : i ≠ .barrier) (hl : args.length = i.arity) (hargs : List.Forall₂ s.Value args cs)
    (ht : s.program.Denotes written ty) :
    s.operand (.call (.intrinsic name) args (some written)) = .ok (.intrinsic i cs ty) := by
  have hfault : Core.intrinsicFault? i cs = none := by
    have hnone : cs.find? (·.ty.isResource) = none := by
      refine List.find?_eq_none.2 fun c hc => ?_
      obtain ⟨_, -, hvalue⟩ := forall₂_of_mem_right hargs hc
      simp [hvalue.2]
    unfold Core.intrinsicFault?
    split
    · cases htexture
    · cases htexture
    · cases htexture
    · rw [hnone]; rfl
  simp only [operand, hi, bind_eq_ok, pure_eq_ok, require_eq_ok, operands_eq_ok]
  refine ⟨(), by simp [Core.countFault?, hl], cs, hargs.imp fun _ _ hvalue => hvalue.1, (), hfault,
    ty, ?_, rfl⟩
  rw [intrinsicTy, if_neg hbarrier, writtenType_eq_ok]
  exact ⟨written, rfl, ht⟩

theorem stmt_assign {target : Surface.Expr} {t : Expr} {op : AssignOp} (ht : s.Value target t)
    (hw : t.writeFault? = none) (h : s.Value e c) (hf : Core.assignFault? t op c = none) :
    s.stmt (.assign target op e) = .ok (assignment t op c) := by
  simp only [stmt, bind_eq_ok, pure_eq_ok, value_eq_ok, require_eq_ok]
  exact ⟨t, ht, (), hw, c, h, (), hf, rfl⟩

theorem Value.opens (h : s.Value e c) : s.Opens e c where
  operand op written ty hop ht := by
    simp only [operand, bind_eq_ok, pure_eq_ok, asValue_eq_ok, require_eq_ok, writtenType_eq_ok]
    exact ⟨c, h.1, c, ⟨rfl, h.2⟩, (), by simpa using hop, ty, ⟨written, rfl, ht⟩, rfl⟩
  left _ _ _ _ _ hop ho ht := operand_binary hop h ho ht
  right _ _ _ _ _ hop ho ht := operand_binary hop ho h ht
  yes _ _ _ _ _ _ hb ho ht := operand_conditional hb h ho ht
  no _ _ _ _ _ _ hb ho ht := operand_conditional hb ho h ht
  intrinsic name i before after bs cs written ty hi htexture hl hbefore hafter ht := by
    refine operand_intrinsic hi htexture ?_ hl (List.rel_append hbefore (.cons h hafter)) ht
    rintro rfl
    simp [Intrinsic.arity] at hl
  expr := by
    simp only [stmt, bind_eq_ok, pure_eq_ok, value_eq_ok]
    exact ⟨c, h, rfl⟩
  combined target t op ht hw hassign hrem :=
    stmt_assign ht hw h (by simp [Core.assignFault?, hassign, hrem])
  assigned target t ht hw hty := stmt_assign ht hw h (by simp [Core.assignFault?, hty])
  returned hty := by
    simp only [stmt, return?, bind_eq_ok, pure_eq_ok, value_eq_ok, require_eq_ok,
      Core.Expr.typeFault?_eq_none]
    exact ⟨c, h, (), hty, rfl⟩

end Scope

open Shading.Core (Expr)

namespace Program

variable {p : Program} {d : FunctionDecl} {f : Function}

/-! ## Functions -/

/-- A parameter of an elaborated function is not declared to be void. -/
theorem ne_void_of_denotes (h : p.elaborateFunction d = .ok f) {param : ParamDecl}
    (hmem : param ∈ d.params) {ty : Ty} (hty : p.Denotes param.ty ty) : ty ≠ .void := by
  obtain ⟨params, result, body, hparams, -, -, rfl⟩ := elaborateFunction_eq_ok h
  obtain ⟨_, -, hparam⟩ := forall₂_of_mem_left (mapM_eq_ok_iff.1 hparams) hmem
  obtain ⟨hden, hv, -⟩ := elaborateParam_eq_ok hparam
  exact hden.unique hty ▸ Ty.ne_void hv

theorem placesVoid_of_elaborateFunction (h : p.elaborateFunction d = .ok f) : f.PlacesVoid p where
  params param hmem := Ty.ne_void (plain_param_of_elaborateFunction h hmem).2.1
  declared name ty init ht := by
    cases typed_stmt_of_elaborateFunction h ht with
    | declare _ hv => exact Ty.ne_void hv
    | declareWith _ hv => exact Ty.ne_void hv
  forms e he hv := by
    obtain ⟨s, rfl, -, hbody⟩ := exists_scope_of_elaborateFunction h
    exact (Scope.made_of_occursIn hbody he).voidForm hv
  parts e he x hx hv := by
    obtain ⟨s, rfl, -, hbody⟩ := exists_scope_of_elaborateFunction h
    exact (Scope.made_of_occursIn hbody he).takesVoid hx hv
  stmts t ht x hx hv := by
    obtain ⟨s, rfl, hresult, hbody⟩ := exists_scope_of_elaborateFunction h
    obtain ⟨a, ha⟩ := Scope.exists_elaborated_of_occursIn hbody ht
    exact hresult ▸ ha.takesVoid hx hv

/-- What is called in a model was elaborated, so no argument is void. -/
theorem BuiltFrom.arg_ne_void {set : EntrySet} {m : Model} {reached : Expanded Function}
    {uses : List StageUse} (h : BuiltFrom p set m reached uses) (hf : f ∈ m.functions)
    {function : String} {args : List Expr} {ty : Ty}
    (hcall : (Expr.call function args ty).OccursIn f.body) {x : Expr} (hx : x ∈ args) :
    x.ty ≠ .void := by
  obtain ⟨before, after, hsplit⟩ := List.append_of_mem hf
  have hcallee := h.functions_beforeUse.behind before f after hsplit function ⟨args, ty, hcall⟩
  obtain ⟨g, hg, rfl⟩ := List.mem_map.1 hcallee
  have hmem : g ∈ m.functions := by
    rw [hsplit]
    exact List.mem_append_left _ hg
  obtain ⟨d, hd, hdecl⟩ := h.model_exact.hasFunction g hmem
  obtain ⟨_, -, hcaller⟩ := h.model_exact.hasFunction f hf
  cases (typed_expr_of_elaborateFunction hcaller hcall).1 with
  | call hd' hargs =>
    obtain rfl := Option.some.inj (hd.symm.trans hd')
    obtain ⟨param, hparam, hden⟩ := forall₂_of_mem_right hargs hx
    exact ne_void_of_denotes hdecl hparam hden

/-- Where the void values of a program stand. -/
structure UsesVoid (p : Program) : Prop where
  /-- They stand in the places that take them, and in no others. -/
  placed : ∀ d f, p.elaborateFunction d = .ok f → f.PlacesVoid p
  /-- In a model they are no arguments of functions. -/
  passed : ∀ set m, p.build set = .ok m → ∀ f ∈ m.functions, ∀ function args ty,
    (Expr.call function args ty).OccursIn f.body → ∀ x ∈ args, x.ty ≠ .void
  /-- Every function has void values: variables annotated so, barriers and calls. -/
  available : ∀ s : Scope, s.program = p →
    (∀ name, s.Value (.var name (some .void)) (.var name .void)) ∧
    (∀ written, s.Value (.call (.intrinsic "Barrier") [] written) (.intrinsic .barrier [] .void)) ∧
    ∀ name d, p.function? name = some d → d.params = [] →
      s.Value (.call (.function name) [] (some .void)) (.call name [] .void)
  /-- The places are open to every value, the void ones among them. -/
  taken : ∀ s : Scope, s.program = p → ∀ e c, s.Value e c → s.Opens e c

theorem usesVoid (p : Program) : p.UsesVoid where
  placed _ _ h := placesVoid_of_elaborateFunction h
  passed set m h f hf function args ty hcall x hx := by
    obtain ⟨_, _, hbuilt⟩ := builtFrom_of_build h
    exact hbuilt.arg_ne_void hf hcall hx
  available s hp := by
    refine ⟨fun name => Scope.value_var (hp ▸ .void) name, fun written => ⟨rfl, rfl⟩, ?_⟩
    intro name d hd hparams
    refine ⟨?_, rfl⟩
    subst hp
    simp only [Scope.operand, hd, hparams, bind_eq_ok, pure_eq_ok, Scope.require_eq_ok,
      Scope.writtenType_eq_ok]
    exact ⟨(), rfl, [], rfl, .void, ⟨.void, rfl, .void⟩, rfl⟩
  taken _ _ _ _ h := h.opens

/-- A program that adds the result of a function without one to a variable. -/
def careless : Program where
  structs := []
  resources := []
  functions := [reset, fragment]
  shaderSets := []
where
  float4 : Surface.TypeExpr := .vector .float 4
  color : Surface.Expr := .var "color" (some float4)
  call : Surface.Expr := .call (.function "Demo.Reset") [] (some .void)
  reset : FunctionDecl := ⟨"Demo.Reset", ⟨none, none⟩, [], .void, []⟩
  fragment : FunctionDecl := {
    name := "Demo.FS"
    metadata := ⟨some .fragment, none⟩
    params := []
    result := float4
    body := [
      .declare "color" float4 none,
      .assign color .add call,
      .ret (some color)] }

/-- The program is accepted, and the void value is added.  Plainly assigned it is refused. -/
theorem careless_adds_void : ∃ m f, careless.build ⟨none, some "Demo.FS", none⟩ = .ok m ∧
    m.function? "Demo.FS" = some f ∧
    (Core.Stmt.assign (.var "color" .float4) .add (.call "Demo.Reset" [] .void)).OccursIn f.body ∧
    Hlsl.dialect.simple ⟨m, .fragment, some f⟩ (.assign (.var "color" .float4) .add
      (.call "Demo.Reset" [] .void)) = .ok "color += Demo_Reset()" ∧
    Metal.dialect.simple ⟨m, .fragment, some f⟩ (.assign (.var "color" .float4) .add
      (.call "Demo.Reset" [] .void)) = .ok "color += Demo_Reset()" ∧
    (Scope.mk careless "Demo.FS" .float4).stmt (.assign careless.color .assign careless.call) =
      .error (.construct "Demo.FS" (.typeMismatch .assignedValue .void .float4)) := by
  have h : careless.build ⟨none, some "Demo.FS", none⟩ = .ok _ := rfl
  exact ⟨_, _, h, rfl, ⟨_, .tail _ (.head _), .self⟩, rfl, rfl, rfl⟩

end Program

end Shading
