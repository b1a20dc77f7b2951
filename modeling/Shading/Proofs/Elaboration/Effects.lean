import Shading.Proofs.Elaboration.Stmt

/-!
# Effects of elaborated code

Surface code has effects as core code has: updates, calls and barriers, from left to
right.  A body is read as the list of its *steps*, in the order they are written: the
expressions it evaluates, and its assignments (`Surface.Stmt.stepsAll`).  The effects of
the body are those of its steps.

Elaboration keeps the effects of every expression (`Scope.effects_of_operand`) and of
every step but one.  A product that is assigned to its own target through a matrix is
written out, and then the target is evaluated twice.  So the effects of a body are kept
exactly when no such target has any (`keepsEffects_of_elaborateFunction`).
-/

namespace Shading.Surface

/-! ## Effects of surface code -/

/-- The effects of calling what a call names. -/
def Callee.effects : Callee → List Effect
  | .function name => [.call name]
  | .intrinsic name => ((Named.ofName? (α := Intrinsic) name).map Intrinsic.effects).getD []

mutual

/-- The effects of an expression, operands first. -/
def Expr.effects : Expr → List Effect
  | .literal _ _ | .var _ _ | .resource _ _ | .enumValue _ _ _ _ | .host _ _ => []
  | .member base _ _ => base.effects
  | .index base position _ => base.effects ++ position.effects
  | .unary op operand _ => operand.effects ++ op.effects
  | .binary _ lhs rhs _ => lhs.effects ++ rhs.effects
  | .conditional condition yes no _ => condition.effects ++ yes.effects ++ no.effects
  | .call callee args _ => Expr.effectsAll args ++ callee.effects
  | .construct args _ => Expr.effectsAll args
  | .cast operand _ => operand.effects

/-- The effects of several expressions, one after the other. -/
def Expr.effectsAll : List Expr → List Effect
  | [] => []
  | e :: rest => e.effects ++ Expr.effectsAll rest

end

/-- A step of a body. -/
inductive Step where
  /-- Evaluates an expression. -/
  | evaluate (e : Expr)
  /-- Evaluates a target and a value, and assigns. -/
  | assign (target : Expr) (op : AssignOp) (value : Expr)

/-- The effects of a step: those of a target before those of the value. -/
def Step.effects : Step → List Effect
  | .evaluate e => e.effects
  | .assign target _ value => target.effects ++ value.effects

mutual

/-- The steps of a statement, in the order they are written. -/
def Stmt.steps : Stmt → List Step
  | .declare _ _ init => init.toList.map .evaluate
  | .assign target op value => [.assign target op value]
  | .expr e => [.evaluate e]
  | .branch condition yes no => .evaluate condition :: (Stmt.stepsAll yes ++ Stmt.stepsOption no)
  | .forLoop init condition step body =>
    Stmt.stepsAll init ++ condition.toList.map .evaluate ++ Stmt.stepsAll step ++ Stmt.stepsAll body
  | .whileLoop condition body => .evaluate condition :: Stmt.stepsAll body
  | .doLoop body condition => Stmt.stepsAll body ++ [.evaluate condition]
  | .switch selector cases default =>
    .evaluate selector :: (Stmt.stepsCases cases ++ Stmt.stepsOption default)
  | .ret value => value.toList.map .evaluate
  | .leave | .next | .host _ => []
  | .block body => Stmt.stepsAll body

/-- The steps of several statements, one after the other. -/
def Stmt.stepsAll : List Stmt → List Step
  | [] => []
  | s :: rest => s.steps ++ Stmt.stepsAll rest

/-- The steps of a block that may be missing. -/
def Stmt.stepsOption : Option (List Stmt) → List Step
  | none => []
  | some body => Stmt.stepsAll body

/-- The steps of cases, the labels of each before its body. -/
def Stmt.stepsCases : List Case → List Step
  | [] => []
  | .mk labels body :: rest =>
    labels.map .evaluate ++ Stmt.stepsAll body ++ Stmt.stepsCases rest

end

/-- The effects of a body, in the order they are written. -/
def effectsOf (body : List Stmt) : List Effect := (Stmt.stepsAll body).flatMap Step.effects

end Shading.Surface

namespace Shading.Scope

open Shading.Core (Expr)

variable {s : Scope}

/-! ## Expressions -/

/-- The effects of a call of an intrinsic are read off its name. -/
theorem effects_of_ofName? {name : String} {i : Intrinsic} (h : Named.ofName? name = some i) :
    (Surface.Callee.intrinsic name).effects = i.effects := by
  simp [Surface.Callee.effects, h]

mutual

/-- Elaboration keeps the effects of an expression. -/
theorem effects_of_operand : (e : Surface.Expr) → {c : Expr} → s.operand e = .ok c →
    c.effects = e.effects
  | .literal _ _, _, h => by
    cases elaborated_of_operand h
    rfl
  | .var _ _, _, h => by
    cases elaborated_of_operand h
    rfl
  | .resource _ _, _, h => by
    cases elaborated_of_operand h <;> rfl
  | .member base _ _, _, h => by
    rw [Surface.Expr.effects]
    cases elaborated_of_operand h with
    | field hb => rw [Expr.effects, effects_of_operand base hb.1]
    | swizzle hb => rw [Expr.effects, effects_of_operand base hb.1]
    | matrixElement hb =>
      -- The numbers of the row and the column have no effects.
      simp [Expr.effects, positionLiteral, effects_of_operand base hb.1]
  | .index base position _, _, h => by
    cases elaborated_of_operand h with
    | index hb hi =>
      rw [Expr.effects, Surface.Expr.effects, effects_of_operand base hb,
        effects_of_operand position hi.1]
  | .unary _ operand _, _, h => by
    cases elaborated_of_operand h with
    | unary hc => rw [Expr.effects, Surface.Expr.effects, effects_of_operand operand hc.1]
  | .binary _ lhs rhs _, _, h => by
    cases elaborated_of_operand h with
    | binary hl hr =>
      rw [Expr.effects, Surface.Expr.effects, effects_of_operand lhs hl.1,
        effects_of_operand rhs hr.1]
  | .conditional condition yes no _, _, h => by
    cases elaborated_of_operand h with
    | conditional hc hy hn =>
      rw [Expr.effects, Surface.Expr.effects, effects_of_operand condition hc.1,
        effects_of_operand yes hy.1, effects_of_operand no hn.1]
  | .call (.function _) args _, _, h => by
    cases elaborated_of_operand h with
    | call _ _ hcs =>
      rw [Expr.effects, Surface.Expr.effects, effects_of_operands args hcs, Surface.Callee.effects]
  | .call (.intrinsic _) args _, _, h => by
    cases elaborated_of_operand h with
    | intrinsic hi _ hcs =>
      rw [Expr.effects, Surface.Expr.effects, effects_of_operands args hcs, effects_of_ofName? hi]
  | .construct args _, _, h => by
    cases elaborated_of_operand h with
    | construct _ hcs =>
      rw [Expr.effects, Surface.Expr.effects,
        effects_of_operands args (hcs.imp fun _ _ hc => hc.1)]
  | .cast operand _, _, h => by
    cases elaborated_of_operand h with
    | cast _ hc => rw [Expr.effects, Surface.Expr.effects, effects_of_operand operand hc.1]
  | .enumValue _ _ _ _, _, h => by
    cases elaborated_of_operand h
    rfl
  | .host _ _, _, h => nomatch elaborated_of_operand h

theorem effects_of_operands : (es : List Surface.Expr) → {cs : List Expr} →
    List.Forall₂ (fun e c => s.operand e = .ok c) es cs →
    Expr.effectsAll cs = Surface.Expr.effectsAll es
  | [], _, .nil => rfl
  | e :: rest, _, .cons hc hcs => by
    rw [Expr.effectsAll, Surface.Expr.effectsAll, effects_of_operand e hc,
      effects_of_operands rest hcs]

end

theorem Value.effects {e : Surface.Expr} {c : Expr} (h : s.Value e c) : c.effects = e.effects :=
  effects_of_operand e h.1

/-- A label is a constant, so it has no effects. -/
theorem Label.effects {e : Surface.Expr} {l : Core.Literal} (h : s.Label e l) : e.effects = [] := by
  obtain ⟨⟨ty, hl⟩, -⟩ := h
  exact hl.effects.symm

/-! ## Steps -/

/-- Whether an assignment is written out as a product: it multiplies its target by a value,
and one of the two is a matrix. -/
def writesOut (s : Scope) (target : Surface.Expr) (op : AssignOp) (value : Surface.Expr) : Bool :=
  op = .mul &&
    match s.operand target, s.operand value with
    | .ok t, .ok v => t.ty.isMatrix || v.ty.isMatrix
    | _, _ => false

/-- The effects of a step when it is elaborated.  The target of a product that is written
out is evaluated twice. -/
def stepEffects (s : Scope) : Surface.Step → List Effect
  | .evaluate e => e.effects
  | .assign target op value =>
    target.effects ++ (if s.writesOut target op value then target.effects else []) ++ value.effects

/-- An expression that may be missing is elaborated to one with the same effects. -/
theorem effects_of_optional {R : Surface.Expr → Expr → Prop} {e : Option Surface.Expr}
    {c : Option Expr} (h : Option.Rel R e c) (hR : ∀ e c, R e c → s.operand e = .ok c) :
    Expr.effectsOption c = (e.toList.map Surface.Step.evaluate).flatMap s.stepEffects := by
  cases h with
  | none => rfl
  | some h => simpa [Expr.effectsOption, stepEffects] using effects_of_operand _ (hR _ _ h)

theorem effects_of_labels {es : List Surface.Expr} {ls : List Core.Literal}
    (h : List.Forall₂ s.Label es ls) :
    (es.map Surface.Step.evaluate).flatMap s.stepEffects = [] := by
  rw [List.flatMap_eq_nil_iff]
  intro step hstep
  obtain ⟨e, he, rfl⟩ := List.mem_map.1 hstep
  obtain ⟨l, -, hl⟩ := forall₂_of_mem_left h he
  exact hl.effects

mutual

/-- The effects of an elaborated statement are those of its steps. -/
theorem effects_of_stmt : (a : Surface.Stmt) → {t : Core.Stmt} → s.stmt a = .ok t →
    t.effects = a.steps.flatMap s.stepEffects
  | .declare _ _ _, _, h => by
    cases elaborated_of_stmt h with
    | declare _ _ hc => exact effects_of_optional hc fun _ _ hc => hc.1.1
  | .assign target op value, _, h => by
    cases elaborated_of_stmt h with
    | @assign _ _ _ t v ht _ hv _ hplain =>
      have hnot : s.writesOut target op value = false := by
        simp only [writesOut, ht.1, hv.1, Bool.and_eq_false_iff, decide_eq_false_iff_not,
          Bool.or_eq_false_iff]
        exact or_iff_not_imp_left.2 fun hop => hplain (not_not.1 hop)
      simp [Core.Stmt.effects, Surface.Stmt.steps, stepEffects, hnot, ht.effects, hv.effects]
    | product ht _ hv _ hm =>
      have hwrites : s.writesOut target .mul value = true := by
        simpa [writesOut, ht.1, hv.1] using hm
      simp [Core.Stmt.effects, Expr.effects, Surface.Stmt.steps, stepEffects, hwrites, ht.effects,
        hv.effects]
  | .expr e, _, h => by
    cases elaborated_of_stmt h with
    | expr hc => simp [Core.Stmt.effects, Surface.Stmt.steps, stepEffects, hc.effects]
  | .branch condition yes no, _, h => by
    cases elaborated_of_stmt h with
    | branch hc hy hn =>
      simp [Core.Stmt.effects, Surface.Stmt.steps, stepEffects, effects_of_operand condition hc.1,
        effects_of_stmts yes hy, effects_of_block no hn]
  | .forLoop init condition step body, _, h => by
    cases elaborated_of_stmt h with
    | forLoop hi _ hc ht _ hb =>
      rw [Core.Stmt.effects, Surface.Stmt.steps, effects_of_stmts init hi,
        effects_of_optional hc fun _ _ hc => hc.1, effects_of_stmts step ht,
        effects_of_stmts body hb]
      simp only [List.flatMap_append]
  | .whileLoop condition body, _, h => by
    cases elaborated_of_stmt h with
    | whileLoop hc hb =>
      simp [Core.Stmt.effects, Surface.Stmt.steps, stepEffects, effects_of_operand condition hc.1,
        effects_of_stmts body hb]
  | .doLoop body condition, _, h => by
    cases elaborated_of_stmt h with
    | doLoop hb hc =>
      simp [Core.Stmt.effects, Surface.Stmt.steps, stepEffects, effects_of_operand condition hc.1,
        effects_of_stmts body hb]
  | .switch selector cases default, _, h => by
    cases elaborated_of_stmt h with
    | switch hc _ hcs hd =>
      simp [Core.Stmt.effects, Surface.Stmt.steps, stepEffects, hc.effects,
        effects_of_cases cases hcs, effects_of_block default hd]
  | .ret none, _, h => by
    cases elaborated_of_stmt h
    rfl
  | .ret (some e), _, h => by
    cases elaborated_of_stmt h with
    | ret hc =>
      simp [Core.Stmt.effects, Expr.effectsOption, Surface.Stmt.steps, stepEffects, hc.effects]
  | .leave, _, h => by
    cases elaborated_of_stmt h
    rfl
  | .next, _, h => by
    cases elaborated_of_stmt h
    rfl
  | .block body, _, h => by
    cases elaborated_of_stmt h with
    | block hb => rw [Core.Stmt.effects, Surface.Stmt.steps, effects_of_stmts body hb]
  | .host _, _, h => nomatch elaborated_of_stmt h

theorem effects_of_stmts : (body : List Surface.Stmt) → {code : List Core.Stmt} →
    s.stmts body = .ok code →
    Core.Stmt.effectsAll code = (Surface.Stmt.stepsAll body).flatMap s.stepEffects
  | [], _, h => by
    simp only [stmts, Except.ok.injEq] at h
    subst h
    rfl
  | a :: rest, _, h => by
    simp only [stmts, bind_eq_ok, pure_eq_ok] at h
    obtain ⟨t, ht, code, hcode, rfl⟩ := h
    rw [Core.Stmt.effectsAll, Surface.Stmt.stepsAll, List.flatMap_append, effects_of_stmt a ht,
      effects_of_stmts rest hcode]

theorem effects_of_block : (body : Option (List Surface.Stmt)) →
    {code : Option (List Core.Stmt)} → s.Block body code →
    Core.Stmt.effectsOption code = (Surface.Stmt.stepsOption body).flatMap s.stepEffects
  | none, _, .none => rfl
  | some body, _, .some h => effects_of_stmts body h

theorem effects_of_cases : (cases : List Surface.Case) → {code : List Core.Case} →
    List.Forall₂ s.ElaboratedCase cases code →
    Core.Stmt.effectsCases code = (Surface.Stmt.stepsCases cases).flatMap s.stepEffects
  | [], _, .nil => rfl
  | .mk labels body :: rest, _, .cons (.mk hls hb) hcs => by
    rw [Core.Stmt.effectsCases, Surface.Stmt.stepsCases, List.flatMap_append, List.flatMap_append,
      effects_of_labels hls, effects_of_stmts body hb, effects_of_cases rest hcs, List.nil_append]

end

/-! ## Bodies -/

/-- Lists that contain others in order make up the same list only by being the same. -/
theorem flatMap_eq_flatMap_iff {α β : Type} {f g : α → List β}
    (h : ∀ a, (f a).Sublist (g a)) {l : List α} :
    l.flatMap g = l.flatMap f ↔ ∀ a ∈ l, g a = f a := by
  have hsublist : ∀ l : List α, (l.flatMap f).Sublist (l.flatMap g) := by
    intro l
    induction l with
    | nil => exact .refl _
    | cons a rest ih =>
      rw [List.flatMap_cons, List.flatMap_cons]
      exact (h a).append ih
  induction l with
  | nil => simp
  | cons a rest ih =>
    rw [List.flatMap_cons, List.flatMap_cons, List.forall_mem_cons]
    constructor
    · intro heq
      -- Neither part is shorter on the left, so each is as long as the one on the right.
      have hlength := congrArg List.length heq
      rw [List.length_append, List.length_append] at hlength
      have hhead := (h a).length_le
      have htail := (hsublist rest).length_le
      obtain ⟨ha, hrest⟩ := List.append_inj heq (by omega)
      exact ⟨ha, ih.1 hrest⟩
    · rintro ⟨ha, hrest⟩
      rw [ha, ih.2 hrest]

theorem effects_sublist_stepEffects (step : Surface.Step) :
    step.effects.Sublist (s.stepEffects step) := by
  cases step with
  | evaluate => exact .refl _
  | assign => exact (List.sublist_append_left _ _).append_right _

/-- A step keeps its effects unless its target is evaluated twice and has effects. -/
theorem stepEffects_eq_iff {step : Surface.Step} :
    s.stepEffects step = step.effects ↔ ∀ target op value, step = .assign target op value →
      s.writesOut target op value = true → target.effects = [] := by
  cases step with
  | evaluate => exact ⟨fun _ => nofun, fun _ => rfl⟩
  | assign target op value =>
    constructor
    · rintro heq _ _ _ ⟨⟩ hwrites
      simpa [stepEffects, Surface.Step.effects, hwrites] using heq
    · intro h
      by_cases hwrites : s.writesOut target op value = true
      · simp [stepEffects, Surface.Step.effects, h _ _ _ rfl hwrites]
      · simp [stepEffects, Surface.Step.effects, hwrites]

/-- What becomes of the effects of a body. -/
structure KeepsEffects (s : Scope) (body : List Surface.Stmt) (code : List Core.Stmt) : Prop where
  /-- The code has the effects of the steps, in their order. -/
  steps : Core.Stmt.effectsAll code = (Surface.Stmt.stepsAll body).flatMap s.stepEffects
  /-- They are the effects of the body, each as often and in the same order, exactly when
  no target that is evaluated twice has effects. -/
  same_iff : Core.Stmt.effectsAll code = Surface.effectsOf body ↔
    ∀ target op value, .assign target op value ∈ Surface.Stmt.stepsAll body →
      s.writesOut target op value = true → target.effects = []

theorem keepsEffects_of_stmts {body : List Surface.Stmt} {code : List Core.Stmt}
    (h : s.stmts body = .ok code) : s.KeepsEffects body code where
  steps := effects_of_stmts body h
  same_iff := by
    rw [effects_of_stmts body h, Surface.effectsOf,
      flatMap_eq_flatMap_iff effects_sublist_stepEffects]
    simp only [stepEffects_eq_iff]
    constructor
    · intro hall target op value hmem
      exact hall _ hmem target op value rfl
    · rintro hall _ hmem target op value rfl
      exact hall target op value hmem

end Shading.Scope

namespace Shading.Program

/-- Elaboration keeps the effects of a function, apart from those in the targets of
products that it writes out. -/
theorem keepsEffects_of_elaborateFunction {p : Program} {d : FunctionDecl} {f : Function}
    (h : p.elaborateFunction d = .ok f) :
    Scope.KeepsEffects ⟨p, d.name, f.result⟩ d.body f.body := by
  obtain ⟨params, result, body, -, -, hbody, rfl⟩ := elaborateFunction_eq_ok h
  exact Scope.keepsEffects_of_stmts hbody

theorem keepsEffects_sample_fragment : ∃ f, sample.elaborateFunction sample.fragment = .ok f ∧
    Scope.KeepsEffects ⟨sample, "Demo.FS", f.result⟩ sample.fragment.body f.body := by
  have h : sample.elaborateFunction sample.fragment = .ok _ := rfl
  exact ⟨_, h, keepsEffects_of_elaborateFunction h⟩

/-- A program that counts in the target of a product through matrices. -/
def counting : Program where
  structs := []
  resources := []
  functions := [compute]
  shaderSets := []
where
  matrix : Surface.TypeExpr := .matrix 4 4
  compute : FunctionDecl := {
    name := "Demo.CS"
    metadata := ⟨some .compute, some ⟨1, 1, 1⟩⟩
    params := []
    result := .void
    body := [
      .declare "n" (.scalar .int) (some (.literal (.int 0) none)),
      .declare "scale" matrix none,
      .declare "poses" (.array matrix 2) none,
      .assign (.index (.var "poses" (some (.array matrix 2)))
          (.unary .postIncrement (.var "n" (some (.scalar .int))) (some (.scalar .int))) none)
        .mul (.var "scale" (some matrix))] }

/-- The count in the target goes up once in the program and twice in its model. -/
theorem counting_counts_twice : ∃ m f, counting.build ⟨none, none, some "Demo.CS"⟩ = .ok m ∧
    m.function? "Demo.CS" = some f ∧
    Surface.effectsOf counting.compute.body = [.update .postIncrement] ∧
    Core.Stmt.effectsAll f.body = [.update .postIncrement, .update .postIncrement] := by
  have h : counting.build ⟨none, none, some "Demo.CS"⟩ = .ok _ := rfl
  exact ⟨_, _, h, rfl, rfl, rfl⟩

end Shading.Program
