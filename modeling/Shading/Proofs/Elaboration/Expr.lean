import Shading.Proofs.Elaboration.Types

/-!
# Elaborated expressions

`Scope.Elaborated` says what a surface expression is elaborated to, with one
constructor for each form and for each way it can go.  It is read off
`Scope.operand` once (`elaborated_of_operand`), and its premises speak of the parts
through `Scope.operand` again.
-/

namespace Shading

/-! ## Checks that pass -/

theorem Core.Expr.valueFault?_eq_none {e : Core.Expr} :
    e.valueFault? = none ↔ e.ty.isResource = false := by
  simp [Core.Expr.valueFault?, Ty.isResource]

theorem Core.Expr.typeFault?_eq_none {e : Core.Expr} {what : Checked} {expected : Ty} :
    e.typeFault? what expected = none ↔ e.ty = expected := by
  simp [Core.Expr.typeFault?]

theorem Core.Expr.conditionFault?_eq_none {e : Core.Expr} :
    e.conditionFault? = none ↔ e.ty = .bool := by simp [Core.Expr.conditionFault?]

namespace Scope

open Shading.Core (Expr Literal)

variable {s : Scope}

@[simp] theorem require_eq_ok {reason : Option ConstructFault} {u : Unit} :
    s.require reason = .ok u ↔ reason = none := Program.require_eq_ok

@[simp] theorem fault_ne_ok {α : Type} {reason : ConstructFault} {a : α} :
    (s.fault reason : Except Error α) ≠ .ok a := Program.fault_ne_ok

/-- A type is written on an expression, and it denotes `ty`. -/
def Writes (s : Scope) (written : Option Surface.TypeExpr) (ty : Ty) : Prop :=
  ∃ w, written = some w ∧ s.program.Denotes w ty

theorem writtenType_eq_ok {written : Option Surface.TypeExpr} {ty : Ty} :
    s.writtenType written = .ok ty ↔ s.Writes written ty := by
  cases written <;> simp [writtenType, Writes, Program.elaborateType_eq_ok]

theorem asValue_eq_ok {e c : Expr} :
    s.asValue e = .ok c ↔ e = c ∧ c.ty.isResource = false := by
  simp only [asValue, bind_eq_ok, pure_eq_ok, require_eq_ok, Core.Expr.valueFault?_eq_none]
  constructor
  · intro h
    obtain ⟨_, hv, rfl⟩ := h
    exact ⟨rfl, hv⟩
  · intro h
    obtain ⟨rfl, hv⟩ := h
    exact ⟨(), hv, rfl⟩

theorem asCondition_eq_ok {e c : Expr} :
    s.asCondition e = .ok c ↔ e = c ∧ c.ty = .bool := by
  simp only [asCondition, bind_eq_ok, pure_eq_ok, require_eq_ok, asValue_eq_ok,
    Core.Expr.conditionFault?_eq_none]
  constructor
  · rintro ⟨_, ⟨rfl, -⟩, _, hb, rfl⟩
    exact ⟨rfl, hb⟩
  · intro h
    obtain ⟨rfl, hb⟩ := h
    exact ⟨e, ⟨rfl, by rw [hb]; rfl⟩, (), hb, rfl⟩

/-! ## Parts -/

/-- A surface expression in a place for a value, and its core expression. -/
def Value (s : Scope) (e : Surface.Expr) (c : Expr) : Prop :=
  s.operand e = .ok c ∧ c.ty.isResource = false

/-- A surface expression in a place for a condition, and its core expression. -/
def Condition (s : Scope) (e : Surface.Expr) (c : Expr) : Prop :=
  s.operand e = .ok c ∧ c.ty = .bool

/-- An argument fits a parameter.  What the function writes can be written. -/
structure Passes (s : Scope) (param : ParamDecl) (c : Expr) : Prop where
  value : c.ty.isResource = false
  denotes : s.program.Denotes param.ty c.ty
  writable : param.passing ≠ .input → c.writeFault? = none

theorem value_eq_ok {e : Surface.Expr} {c : Expr} : s.value e = .ok c ↔ s.Value e c := by
  simp only [value, bind_eq_ok, asValue_eq_ok, Value]
  constructor
  · intro h
    obtain ⟨_, hc, rfl, hv⟩ := h
    exact ⟨hc, hv⟩
  · intro h
    obtain ⟨hc, hv⟩ := h
    exact ⟨c, hc, rfl, hv⟩

theorem condition_eq_ok {e : Surface.Expr} {c : Expr} :
    s.condition e = .ok c ↔ s.Condition e c := by
  simp only [condition, bind_eq_ok, asCondition_eq_ok, Condition]
  constructor
  · intro h
    obtain ⟨_, hc, rfl, hb⟩ := h
    exact ⟨hc, hb⟩
  · intro h
    obtain ⟨hc, hb⟩ := h
    exact ⟨c, hc, rfl, hb⟩

theorem argument_eq_ok {callee : String} {position : Nat} {param : ParamDecl} {e c : Expr} :
    s.argument callee position param e = .ok c ↔ e = c ∧ s.Passes param c := by
  rw [argument]
  split
  · next hr =>
    simp only [fault_ne_ok, false_iff]
    intro h
    obtain ⟨rfl, hp⟩ := h
    exact absurd (hp.value.symm.trans hr) (by decide)
  · next hr =>
    simp only [bind_eq_ok, Program.elaborateType_eq_ok]
    constructor
    · intro h
      obtain ⟨ty, hty, h⟩ := h
      split at h
      · exact absurd h fault_ne_ok
      · next hne =>
        simp only [bind_eq_ok, pure_eq_ok, require_eq_ok] at h
        obtain ⟨_, hw, rfl⟩ := h
        obtain rfl := not_not.1 hne
        exact ⟨rfl, by simpa using hr, hty, fun hp => by simpa [hp] using hw⟩
    · intro h
      obtain ⟨rfl, hp⟩ := h
      refine ⟨_, hp.denotes, ?_⟩
      simp only [ne_eq, not_true_eq_false, if_false, bind_eq_ok, pure_eq_ok, require_eq_ok]
      refine ⟨(), ?_, trivial⟩
      split
      · rfl
      · next hin => exact hp.writable hin

theorem operands_eq_mapM (es : List Surface.Expr) : s.operands es = es.mapM s.operand :=
  eq_mapM (by simp only [operands]) (fun e es => by simp only [operands]) es

theorem operands_eq_ok {es : List Surface.Expr} {cs : List Expr} :
    s.operands es = .ok cs ↔ List.Forall₂ (fun e c => s.operand e = .ok c) es cs := by
  rw [operands_eq_mapM, mapM_eq_ok_iff]

theorem values_eq_mapM (es : List Surface.Expr) : s.values es = es.mapM s.value :=
  eq_mapM (by simp only [values]) (fun e es => by simp only [values, value, bind_assoc]) es

theorem values_eq_ok {es : List Surface.Expr} {cs : List Expr} :
    s.values es = .ok cs ↔ List.Forall₂ s.Value es cs := by
  simp only [values_eq_mapM, mapM_eq_ok_iff, value_eq_ok]

/-- As many arguments as parameters are elaborated in step with both. -/
theorem arguments_eq_ok {callee : String} {position : Nat} {params : List ParamDecl}
    {es : List Surface.Expr} {cs : List Expr} (hl : es.length = params.length) :
    s.arguments callee position params es = .ok cs ↔
      List.Forall₂ (fun e c => s.operand e = .ok c) es cs ∧ List.Forall₂ s.Passes params cs := by
  induction es generalizing position params cs with
  | nil =>
    obtain rfl := List.length_eq_zero_iff.1 hl.symm
    simp [arguments, eq_comm]
  | cons e es ih =>
    obtain ⟨param, params, rfl⟩ := List.exists_cons_of_length_eq_add_one hl.symm
    simp only [arguments, bind_eq_ok, pure_eq_ok, argument_eq_ok,
      ih (Nat.succ.inj hl)]
    constructor
    · intro h
      obtain ⟨_, hc, _, ⟨rfl, hp⟩, cs, ⟨hcs, hps⟩, rfl⟩ := h
      exact ⟨.cons hc hcs, .cons hp hps⟩
    · intro h
      obtain ⟨_ | ⟨hc, hcs⟩, _ | ⟨hp, hps⟩⟩ := h
      exact ⟨_, hc, _, ⟨rfl, hp⟩, _, ⟨hcs, hps⟩, rfl⟩

/-! ## Forms -/

/-- What a surface expression is elaborated to, by its form. -/
inductive Elaborated (s : Scope) : Surface.Expr → Expr → Prop where
  | literal {value written} : value.fault? = none →
      Elaborated s (.literal value written) (.literal value value.ty)
  | var {name written ty} : s.Writes written ty → Elaborated s (.var name written) (.var name ty)
  /-- A uniform buffer is referred to as its element. -/
  | uniform {name written r element} : s.program.HasResource name r →
      r.kind = .uniformBuffer → r.element = some element →
      Elaborated s (.resource name written) (.resource name element)
  | resource {name written r} : s.program.HasResource name r → r.kind ≠ .uniformBuffer →
      Elaborated s (.resource name written) (.resource name r.toTy)
  | field {base member written b struct d field ty} : s.Value base b → b.ty = .struct struct →
      s.program.struct? struct = some d → d.field? member = some field →
      s.program.Denotes field.ty ty → ty.isVoid = false →
      Elaborated s (.member base member written) (.field b member ty)
  | swizzle {base member written b kind size components} : s.Value base b →
      b.ty = .vector kind size → Core.swizzle? member size.toNat = some components →
      Elaborated s (.member base member written) (.swizzle b components (swizzleTy kind components))
  /-- An element of a matrix is the element of a row. -/
  | matrixElement {base member written b row column} : s.Value base b → b.ty = .matrix →
      Core.matrixMember? member = some (row, column) →
      Elaborated s (.member base member written)
        (.index (.index b (positionLiteral row) .float4) (positionLiteral column) .float)
  | index {base position written b c ty} : s.operand base = .ok b → s.Value position c →
      c.ty.isIntegerScalar = true → Core.elementTy? b.ty = .ok ty →
      Elaborated s (.index base position written) (.index b c ty)
  | unary {op operand written c ty} : s.Value operand c →
      (op.isMutating = true → c.writeFault? = none) → s.Writes written ty →
      Elaborated s (.unary op operand written) (.unary op c ty)
  | binary {op lhs rhs written l r ty} : s.Value lhs l → s.Value rhs r →
      Core.binaryFault? op l.ty r.ty = none → s.Writes written ty →
      Elaborated s (.binary op lhs rhs written) (.binary op l r ty)
  | conditional {condition yes no written c y n ty} : s.Condition condition c → s.Value yes y →
      s.Value no n → s.Writes written ty →
      Elaborated s (.conditional condition yes no written) (.conditional c y n ty)
  | call {name args written d cs ty} : s.program.function? name = some d →
      args.length = d.params.length → List.Forall₂ (fun e c => s.operand e = .ok c) args cs →
      List.Forall₂ s.Passes d.params cs → s.Writes written ty →
      Elaborated s (.call (.function name) args written) (.call name cs ty)
  | intrinsic {name args written i cs ty} : Named.ofName? name = some i →
      args.length = i.arity → List.Forall₂ (fun e c => s.operand e = .ok c) args cs →
      Core.intrinsicFault? i cs = none →
      (if i = .barrier then ty = .void else s.Writes written ty) →
      Elaborated s (.call (.intrinsic name) args written) (.intrinsic i cs ty)
  | construct {args written cs ty} : s.Writes written ty → List.Forall₂ s.Value args cs →
      Core.constructFault? ty (cs.map Expr.ty) = none →
      Elaborated s (.construct args written) (.construct cs ty)
  | cast {operand written c ty} : s.Writes written ty → s.Value operand c →
      Core.castFault? c.ty ty = none → Elaborated s (.cast operand written) (.cast c ty)
  | enumValue {enumeration member value written} :
      Elaborated s (.enumValue enumeration member value written) (.literal (.int value) .int)

theorem elaborated_of_resource {name : String} {written : Option Surface.TypeExpr} {c : Expr}
    (h : s.resource name = .ok c) : s.Elaborated (.resource name written) c := by
  rw [resource] at h
  split at h
  · exact absurd h fault_ne_ok
  · next d hd =>
    simp only [bind_eq_ok] at h
    obtain ⟨r, hr, h⟩ := h
    have hres : s.program.HasResource name r := ⟨d, hd, hr⟩
    split at h
    · next hk he =>
      obtain rfl := pure_eq_ok.1 h
      exact .uniform hres hk he
    · next hnot =>
      obtain rfl := pure_eq_ok.1 h
      refine .resource hres fun hk => ?_
      -- A uniform buffer has an element type.
      cases hres.declares with
      | plain hbuffer => cases hk; cases hbuffer
      | buffer => exact hnot _ hk rfl

theorem elaborated_of_member {base : Surface.Expr} {member : String}
    {written : Option Surface.TypeExpr} {b c : Expr} (hb : s.Value base b)
    (h : s.member b member = .ok c) : s.Elaborated (.member base member written) c := by
  rw [Scope.member] at h
  split at h
  · next struct hty =>
    rw [fieldMember] at h
    split at h
    · exact absurd h fault_ne_ok
    · next d hd =>
      split at h
      · exact absurd h fault_ne_ok
      · next field hfield =>
        simp only [bind_eq_ok, pure_eq_ok, Program.elaborateValueType_eq_ok] at h
        obtain ⟨ty, ⟨hden, hv⟩, rfl⟩ := h
        exact .field hb hty hd hfield hden hv
  · next kind size hty =>
    split at h
    · exact absurd h fault_ne_ok
    · next components hcomponents =>
      cases h
      exact .swizzle hb hty hcomponents
  · next hty =>
    split at h
    · exact absurd h fault_ne_ok
    · next row column hm =>
      cases h
      exact .matrixElement hb hty hm
  · exact absurd h fault_ne_ok

theorem elaborated_of_element {base position : Surface.Expr} {written : Option Surface.TypeExpr}
    {b i c : Expr} (hb : s.operand base = .ok b) (hi : s.Value position i)
    (h : s.element b i = .ok c) : s.Elaborated (.index base position written) c := by
  rw [element] at h
  split at h
  · next hint =>
    split at h
    · next ty hty =>
      obtain rfl := pure_eq_ok.1 h
      exact .index hb hi hint hty
    · exact absurd h fault_ne_ok
  · exact absurd h fault_ne_ok

/-- Every surface expression that is elaborated is elaborated by its form. -/
theorem elaborated_of_operand {e : Surface.Expr} {c : Expr} (h : s.operand e = .ok c) :
    s.Elaborated e c := by
  cases e with
  | literal value written =>
    simp only [operand, literal, bind_eq_ok, pure_eq_ok, require_eq_ok] at h
    obtain ⟨_, hf, rfl⟩ := h
    exact .literal hf
  | var name written =>
    simp only [operand, bind_eq_ok, pure_eq_ok, writtenType_eq_ok] at h
    obtain ⟨ty, hty, rfl⟩ := h
    exact .var hty
  | resource name written => exact elaborated_of_resource (by simpa [operand] using h)
  | member base member written =>
    simp only [operand, bind_eq_ok, asValue_eq_ok] at h
    obtain ⟨b, hb, _, ⟨rfl, hv⟩, h⟩ := h
    exact elaborated_of_member ⟨hb, hv⟩ h
  | index base position written =>
    simp only [operand, bind_eq_ok, asValue_eq_ok] at h
    obtain ⟨b, hb, i, hi, _, ⟨rfl, hv⟩, h⟩ := h
    exact elaborated_of_element hb ⟨hi, hv⟩ h
  | unary op operand written =>
    simp only [Scope.operand, bind_eq_ok, pure_eq_ok, asValue_eq_ok, require_eq_ok,
      writtenType_eq_ok, ite_eq_right_iff] at h
    obtain ⟨c, hc, _, ⟨rfl, hv⟩, _, hw, ty, hty, rfl⟩ := h
    exact .unary ⟨hc, hv⟩ hw hty
  | binary op lhs rhs written =>
    simp only [operand, bind_eq_ok, pure_eq_ok, asValue_eq_ok, require_eq_ok,
      writtenType_eq_ok] at h
    obtain ⟨l, hl, _, ⟨rfl, hlv⟩, r, hr, _, ⟨rfl, hrv⟩, _, hf, ty, hty, rfl⟩ := h
    exact .binary ⟨hl, hlv⟩ ⟨hr, hrv⟩ hf hty
  | conditional condition yes no written =>
    simp only [operand, bind_eq_ok, pure_eq_ok, asValue_eq_ok, asCondition_eq_ok,
      writtenType_eq_ok] at h
    obtain ⟨c, hc, _, ⟨rfl, hcb⟩, y, hy, _, ⟨rfl, hyv⟩, n, hn, _, ⟨rfl, hnv⟩, ty, hty, rfl⟩ := h
    exact .conditional ⟨hc, hcb⟩ ⟨hy, hyv⟩ ⟨hn, hnv⟩ hty
  | call callee args written =>
    cases callee with
    | function name =>
      simp only [operand] at h
      split at h
      · exact absurd h fault_ne_ok
      · next d hd =>
        simp only [bind_eq_ok, pure_eq_ok, require_eq_ok, writtenType_eq_ok, Core.countFault?,
          ite_eq_left_iff, reduceCtorEq, imp_false, not_not] at h
        obtain ⟨_, hl, cs, hcs, ty, hty, rfl⟩ := h
        obtain ⟨hcs, hps⟩ := (arguments_eq_ok hl).1 hcs
        exact .call hd hl hcs hps hty
    | intrinsic name =>
      simp only [operand] at h
      split at h
      · cases h
      · next i hi =>
        simp only [bind_eq_ok, pure_eq_ok, require_eq_ok, operands_eq_ok, Core.countFault?,
          ite_eq_left_iff, reduceCtorEq, imp_false, not_not] at h
        obtain ⟨_, hl, cs, hcs, _, hf, ty, hty, rfl⟩ := h
        refine .intrinsic hi hl hcs hf ?_
        rw [intrinsicTy] at hty
        split at hty
        · next hb => rw [if_pos hb]; exact (Except.ok.inj hty).symm
        · next hb => rw [if_neg hb]; exact writtenType_eq_ok.1 hty
  | construct args written =>
    simp only [operand, bind_eq_ok, pure_eq_ok, require_eq_ok, writtenType_eq_ok,
      values_eq_ok] at h
    obtain ⟨ty, hty, cs, hcs, _, hf, rfl⟩ := h
    exact .construct hty hcs hf
  | cast operand written =>
    simp only [Scope.operand, bind_eq_ok, pure_eq_ok, asValue_eq_ok, require_eq_ok,
      writtenType_eq_ok] at h
    obtain ⟨ty, hty, c, hc, _, ⟨rfl, hv⟩, _, hf, rfl⟩ := h
    exact .cast hty ⟨hc, hv⟩ hf
  | enumValue enumeration member value written =>
    cases (show Except.ok _ = Except.ok c from by simpa only [operand] using h)
    exact .enumValue
  | host construct written => exact absurd (by simpa only [operand] using h) fault_ne_ok

end Scope

end Shading
