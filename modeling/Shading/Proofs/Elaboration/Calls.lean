import Shading.Proofs.Core.Visits
import Shading.Proofs.Elaboration.Effects

/-!
# Calls of elaborated code

What elaboration records for a body (`Surface.calledBy`) are the callees of the code that it
yields, in the same order (`Scope.calleesOf_eq`), although a product that is written out has
its target twice: the calls of a target are recorded already when they come a second time.

So the walks of a body meet everything there is in it, and the calls they meet name exactly
the functions that were recorded (`Program.visitsAll`).
-/

namespace Shading

/-! ## Lists without repetitions -/

section Dups

variable {a a' b : List String}

theorem eraseDups_append_congr (h : a.eraseDups = a'.eraseDups) :
    (a ++ b).eraseDups = (a' ++ b).eraseDups := by
  have hmem : ∀ x, x ∈ a ↔ x ∈ a' := fun x => by
    rw [← List.mem_eraseDups, h, List.mem_eraseDups]
  rw [List.eraseDups_append, List.eraseDups_append, h, List.removeAll, List.removeAll]
  simp only [List.elem_eq_contains, List.contains_eq_mem, hmem]

/-- What is there already makes no difference. -/
theorem eraseDups_append_of_subset (h : b ⊆ a) : (a ++ b).eraseDups = a.eraseDups := by
  have hnone : b.removeAll a = [] := by
    rw [List.removeAll, List.filter_eq_nil_iff]
    intro x hx
    simpa using h hx
  rw [List.eraseDups_append, hnone, List.eraseDups_nil, List.append_nil]

end Dups

/-! ## Recorded calls -/

namespace Surface

theorem callees_unary (op : UnaryOp) : op.effects.filterMap Effect.callee? = [] := by
  rw [UnaryOp.effects]
  split <;> rfl

theorem callees_intrinsic (name : String) :
    (Callee.intrinsic name).effects.filterMap Effect.callee? = [] := by
  rw [Callee.effects]
  cases Named.ofName? (α := Intrinsic) name with
  | none => rfl
  | some i =>
    rw [Option.map_some, Option.getD_some, Intrinsic.effects]
    split <;> rfl

mutual

/-- The calls that are recorded for an expression are its effects that are calls. -/
theorem callees_effects : (e : Expr) → e.effects.filterMap Effect.callee? = e.calls
  | .literal _ _ | .var _ _ | .resource _ _ | .enumValue _ _ _ _ | .host _ _ => rfl
  | .member base _ _ | .cast base _ => callees_effects base
  | .index a b _ | .binary _ a b _ => by
    rw [Expr.effects, Expr.calls, List.filterMap_append, callees_effects a, callees_effects b]
  | .unary op operand _ => by
    rw [Expr.effects, Expr.calls, List.filterMap_append, callees_effects operand, callees_unary,
      List.append_nil]
  | .conditional condition yes no _ => by
    rw [Expr.effects, Expr.calls, List.filterMap_append, List.filterMap_append,
      callees_effects condition, callees_effects yes, callees_effects no]
  | .call (.function name) args _ => by
    rw [Expr.effects, Expr.calls, List.filterMap_append, callees_effectsAll args]
    rfl
  | .call (.intrinsic name) args _ => by
    rw [Expr.effects, Expr.calls, List.filterMap_append, callees_effectsAll args,
      callees_intrinsic, List.append_nil]
  | .construct args _ => callees_effectsAll args

theorem callees_effectsAll : (es : List Expr) →
    (Expr.effectsAll es).filterMap Effect.callee? = Expr.callsAll es
  | [] => rfl
  | e :: rest => by
    rw [Expr.effectsAll, Expr.callsAll, List.filterMap_append, callees_effects e,
      callees_effectsAll rest]

end

/-- The calls of the effects of steps. -/
def calleesOfSteps (steps : List Step) : List String :=
  (steps.flatMap Step.effects).filterMap Effect.callee?

theorem calleesOfSteps_append (a b : List Step) :
    calleesOfSteps (a ++ b) = calleesOfSteps a ++ calleesOfSteps b := by
  rw [calleesOfSteps, List.flatMap_append, List.filterMap_append]
  rfl

theorem calleesOfSteps_evaluate (e : Expr) (rest : List Step) :
    calleesOfSteps (.evaluate e :: rest) = e.calls ++ calleesOfSteps rest := by
  rw [calleesOfSteps, List.flatMap_cons, List.filterMap_append, Step.effects, callees_effects]
  rfl

theorem calleesOfSteps_option (e : Option Expr) :
    calleesOfSteps (e.toList.map .evaluate) = Expr.callsOption e := by
  cases e with
  | none => rfl
  | some e => exact (calleesOfSteps_evaluate e []).trans (List.append_nil _)

theorem calleesOfSteps_labels (labels : List Expr) :
    calleesOfSteps (labels.map .evaluate) = Expr.callsAll labels := by
  induction labels with
  | nil => rfl
  | cons label rest ih => rw [List.map_cons, calleesOfSteps_evaluate, ih, Expr.callsAll]

mutual

/-- The calls that are recorded for a statement are the effects of its steps that are calls. -/
theorem callees_steps : (s : Stmt) → calleesOfSteps s.steps = s.calls
  | .declare _ _ init | .ret init => calleesOfSteps_option init
  | .assign target _ value => by
    simp [calleesOfSteps, Stmt.steps, Step.effects, Stmt.calls, callees_effects]
  | .expr e => (calleesOfSteps_evaluate e []).trans (List.append_nil _)
  | .branch condition yes no => by
    rw [Stmt.steps, calleesOfSteps_evaluate, calleesOfSteps_append, callees_stepsAll yes,
      callees_stepsOption no, Stmt.calls, List.append_assoc]
  | .forLoop init condition step body => by
    simp only [Stmt.steps, calleesOfSteps_append, callees_stepsAll init, calleesOfSteps_option,
      callees_stepsAll step, callees_stepsAll body, Stmt.calls]
  | .whileLoop condition body => by
    rw [Stmt.steps, calleesOfSteps_evaluate, callees_stepsAll body, Stmt.calls]
  | .doLoop body condition => by
    rw [Stmt.steps, calleesOfSteps_append, callees_stepsAll body, calleesOfSteps_evaluate,
      Stmt.calls, show calleesOfSteps [] = [] from rfl, List.append_nil]
  | .switch selector cases default => by
    rw [Stmt.steps, calleesOfSteps_evaluate, calleesOfSteps_append, callees_stepsCases cases,
      callees_stepsOption default, Stmt.calls, List.append_assoc]
  | .leave | .next | .host _ => rfl
  | .block body => callees_stepsAll body

theorem callees_stepsAll : (body : List Stmt) →
    calleesOfSteps (Stmt.stepsAll body) = Stmt.callsAll body
  | [] => rfl
  | s :: rest => by
    rw [Stmt.stepsAll, calleesOfSteps_append, callees_steps s, callees_stepsAll rest,
      Stmt.callsAll]

theorem callees_stepsOption : (body : Option (List Stmt)) →
    calleesOfSteps (Stmt.stepsOption body) = Stmt.callsOption body
  | none => rfl
  | some body => callees_stepsAll body

theorem callees_stepsCases : (cases : List Case) →
    calleesOfSteps (Stmt.stepsCases cases) = Stmt.callsCases cases
  | [] => rfl
  | .mk labels body :: rest => by
    rw [Stmt.stepsCases, calleesOfSteps_append, calleesOfSteps_append, calleesOfSteps_labels,
      callees_stepsAll body, callees_stepsCases rest, Stmt.callsCases]

end

end Surface

namespace Scope

variable {s : Scope}

/-- The calls of a target that is evaluated twice are recorded once. -/
theorem eraseDups_stepEffects {before before' : List String} (step : Surface.Step)
    (h : before.eraseDups = before'.eraseDups) :
    (before ++ (s.stepEffects step).filterMap Effect.callee?).eraseDups =
      (before' ++ step.effects.filterMap Effect.callee?).eraseDups := by
  cases step with
  | evaluate e => exact eraseDups_append_congr h
  | assign target op value =>
    simp only [stepEffects, Surface.Step.effects, List.filterMap_append, ← List.append_assoc]
    refine eraseDups_append_congr ?_
    split
    · rw [eraseDups_append_of_subset (List.subset_append_right _ _)]
      exact eraseDups_append_congr h
    · rw [List.filterMap_nil, List.append_nil]
      exact eraseDups_append_congr h

theorem eraseDups_steps {before before' : List String} (steps : List Surface.Step)
    (h : before.eraseDups = before'.eraseDups) :
    (before ++ (steps.flatMap s.stepEffects).filterMap Effect.callee?).eraseDups =
      (before' ++ (steps.flatMap Surface.Step.effects).filterMap Effect.callee?).eraseDups := by
  induction steps generalizing before before' with
  | nil => simpa using h
  | cons step rest ih =>
    simp only [List.flatMap_cons, List.filterMap_append, ← List.append_assoc]
    exact ih (eraseDups_stepEffects step h)

/-- The callees of elaborated code are the functions that are recorded. -/
theorem calleesOf_eq {body : List Surface.Stmt} {code : List Core.Stmt}
    (h : s.stmts body = .ok code) : Core.calleesOf code = Surface.calledBy body := by
  rw [Core.calleesOf, effects_of_stmts body h, Surface.calledBy, ← Surface.callees_stepsAll]
  have hnil : ([] : List String).eraseDups = ([] : List String).eraseDups := rfl
  simpa [Surface.calleesOfSteps] using eraseDups_steps (Surface.Stmt.stepsAll body) hnil

end Scope

namespace Program

variable {p : Program} {d : FunctionDecl} {f : Function}

/-- What elaboration records are the callees of the code it yields, in the same order. -/
theorem callees_of_elaborateFunction (h : p.elaborateFunction d = .ok f) :
    f.callees = Core.calleesOf f.body := by
  obtain ⟨params, result, body, -, -, hbody, rfl⟩ := elaborateFunction_eq_ok h
  exact (Scope.calleesOf_eq hbody).symm

/-- The callees of a function are what the calls in it name. -/
theorem HasFunction.mem_callees_iff {name callee : String} (h : p.HasFunction name f) :
    callee ∈ f.callees ↔ ∃ args ty, (Core.Expr.call callee args ty).OccursIn f.body := by
  obtain ⟨d, -, hd⟩ := h
  rw [callees_of_elaborateFunction hd]
  exact Core.mem_calleesOf_iff

/-- Walks visit all that there is in a body, and meet the calls that elaboration records. -/
structure VisitsAll (p : Program) : Prop where
  /-- Every statement is visited once, behind those around it. -/
  stmts : ∀ body, Core.VisitsOnce (Core.stmtAt? body) Core.Stmt.Address.Above
    (Core.Stmt.walkAll body)
  /-- Every expression is visited once, behind those it is a part of. -/
  exprs : ∀ body, Core.VisitsOnce (Core.exprAt? body) Core.Expr.Address.Above (Core.exprsOf body)
  /-- The functions that are recorded for a body are those that its calls name, in the order
  in which the calls complete. -/
  calls : ∀ d f, p.elaborateFunction d = .ok f → f.callees = Surface.calledBy d.body ∧
    f.callees = Core.calleesOf f.body ∧
    ∀ name, name ∈ f.callees ↔ ∃ args ty, Core.Expr.call name args ty ∈ Core.exprsOf f.body

theorem visitsAll (p : Program) : p.VisitsAll where
  stmts := Core.visitsOnce_walkAll
  exprs := Core.visitsOnce_exprsOf
  calls d f h := by
    have hcallees := callees_of_elaborateFunction h
    obtain ⟨params, result, body, -, -, -, rfl⟩ := elaborateFunction_eq_ok h
    refine ⟨rfl, hcallees, fun name => ?_⟩
    rw [hcallees]
    simp only [Core.mem_exprsOf_iff]
    exact Core.mem_calleesOf_iff

end Program

end Shading
