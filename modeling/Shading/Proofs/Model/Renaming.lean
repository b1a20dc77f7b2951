import Mathlib.Data.List.Find
import Shading.Proofs.Model.Order

/-!
# Resources by other names

A model refers to its resources by name: where they are bound, in function bodies and
in what it records of its stages.  `Model.renameResources` puts other names in all these
places.  Functions, structs and variables keep theirs, since resources have names of
their own.

When no two resources of a model get one name, what is found under a name is found
under the new one (`Model.resource?_renameResources`), and a stage reaches the same
resources as before (`Model.resourcesFor_renameResources`).
-/

namespace Shading

/-! ## Renaming -/

namespace Core

mutual

/-- An expression with its resources by other names. -/
def Expr.renameResources (ρ : String → String) : Expr → Expr
  | .literal value ty => .literal value ty
  | .var name ty => .var name ty
  | .resource name ty => .resource (ρ name) ty
  | .field base member ty => .field (base.renameResources ρ) member ty
  | .swizzle base components ty => .swizzle (base.renameResources ρ) components ty
  | .index base position ty => .index (base.renameResources ρ) (position.renameResources ρ) ty
  | .unary op operand ty => .unary op (operand.renameResources ρ) ty
  | .binary op lhs rhs ty => .binary op (lhs.renameResources ρ) (rhs.renameResources ρ) ty
  | .conditional condition yes no ty =>
    .conditional (condition.renameResources ρ) (yes.renameResources ρ) (no.renameResources ρ) ty
  | .call function args ty => .call function (Expr.renameAll ρ args) ty
  | .intrinsic i args ty => .intrinsic i (Expr.renameAll ρ args) ty
  | .construct args ty => .construct (Expr.renameAll ρ args) ty
  | .cast operand ty => .cast (operand.renameResources ρ) ty

/-- Several expressions with their resources by other names. -/
def Expr.renameAll (ρ : String → String) : List Expr → List Expr
  | [] => []
  | e :: rest => e.renameResources ρ :: Expr.renameAll ρ rest

end

mutual

/-- A statement with its resources by other names. -/
def Stmt.renameResources (ρ : String → String) : Stmt → Stmt
  | .declare name ty init => .declare name ty (init.map (Expr.renameResources ρ))
  | .assign target op value => .assign (target.renameResources ρ) op (value.renameResources ρ)
  | .expr value => .expr (value.renameResources ρ)
  | .branch condition yes no =>
    .branch (condition.renameResources ρ) (Stmt.renameAll ρ yes) (Stmt.renameOption ρ no)
  | .forLoop init condition step body =>
    .forLoop (Stmt.renameAll ρ init) (condition.map (Expr.renameResources ρ))
      (Stmt.renameAll ρ step) (Stmt.renameAll ρ body)
  | .whileLoop condition body => .whileLoop (condition.renameResources ρ) (Stmt.renameAll ρ body)
  | .doLoop body condition => .doLoop (Stmt.renameAll ρ body) (condition.renameResources ρ)
  | .switch selector cases default =>
    .switch (selector.renameResources ρ) (Stmt.renameCases ρ cases) (Stmt.renameOption ρ default)
  | .ret value => .ret (value.map (Expr.renameResources ρ))
  | .leave => .leave
  | .next => .next
  | .block body => .block (Stmt.renameAll ρ body)

/-- Several statements with their resources by other names. -/
def Stmt.renameAll (ρ : String → String) : List Stmt → List Stmt
  | [] => []
  | s :: rest => s.renameResources ρ :: Stmt.renameAll ρ rest

/-- A block that may be missing, with its resources by other names. -/
def Stmt.renameOption (ρ : String → String) : Option (List Stmt) → Option (List Stmt)
  | none => none
  | some body => some (Stmt.renameAll ρ body)

/-- The cases of a switch with their resources by other names. -/
def Stmt.renameCases (ρ : String → String) : List Case → List Case
  | [] => []
  | .mk labels body :: rest => .mk labels (Stmt.renameAll ρ body) :: Stmt.renameCases ρ rest

end

/-- Names play no part in types. -/
@[simp] theorem Expr.ty_renameResources (ρ : String → String) (e : Expr) :
    (e.renameResources ρ).ty = e.ty := by cases e <;> rfl

end Core

/-- A function with its resources by other names. -/
def Function.renameResources (ρ : String → String) (f : Function) : Function :=
  { f with body := Core.Stmt.renameAll ρ f.body }

/-- A bound resource by another name. -/
def Binding.rename (ρ : String → String) (b : Binding) : Binding := { b with name := ρ b.name }

/-- What a stage reaches, with its resources by other names. -/
def Usage.renameResources (ρ : String → String) (u : Usage) : Usage :=
  { u with resources := u.resources.map ρ }

/-- A warning about a resource by another name. -/
def Warning.renameResource (ρ : String → String) : Warning → Warning
  | .largeGroup function size => .largeGroup function size
  | .uniformSize name size => .uniformSize (ρ name) size

namespace Model

/-- A model with its resources by other names. -/
def renameResources (ρ : String → String) (m : Model) : Model :=
  { m with
    resources := m.resources.map (Binding.rename ρ)
    functions := m.functions.map (Function.renameResources ρ)
    usage := m.usage.map fun (stage, usage) => (stage, usage.renameResources ρ)
    warnings := m.warnings.map (Warning.renameResource ρ) }

/-- One name in the place of another. -/
def rename (old new name : String) : String := if name = old then new else name

/-- No two resources of a model get one name. -/
def KeptApart (m : Model) (ρ : String → String) : Prop :=
  ∀ a ∈ m.resources, ∀ b ∈ m.resources, ρ a.name = ρ b.name → a.name = b.name

variable {m : Model} {ρ : String → String}

/-- A name that no resource has keeps resources apart. -/
theorem keptApart_rename {old new : String} (h : new ∉ m.resources.map (·.name)) :
    m.KeptApart (rename old new) := by
  intro a ha b hb hname
  have hfresh : ∀ c ∈ m.resources, c.name ≠ new := fun c hc heq =>
    h (heq ▸ List.mem_map_of_mem hc)
  simp only [rename] at hname
  split at hname
  · next hold =>
    split at hname
    · next hold' => rw [hold, hold']
    · exact absurd hname.symm (hfresh b hb)
  · split at hname
    · exact absurd hname (hfresh a ha)
    · exact hname

/-! ## Look-up -/

theorem function?_renameResources (name : String) :
    (m.renameResources ρ).function? name =
      (m.function? name).map (Function.renameResources ρ) := by
  simp only [function?, renameResources, List.find?_map]
  rfl

theorem entryFunction?_renameResources (stage : Stage) :
    (m.renameResources ρ).entryFunction? stage =
      (m.entryFunction? stage).map (Function.renameResources ρ) := by
  simp only [entryFunction?, Option.map_bind]
  exact congrArg _ (funext function?_renameResources)

/-- What is found under a name is found under the new one. -/
theorem resource?_renameResources (h : m.KeptApart ρ) {b : Binding} (hb : b ∈ m.resources) :
    (m.renameResources ρ).resource? (ρ b.name) = (m.resource? b.name).map (Binding.rename ρ) := by
  simp only [resource?, renameResources, List.find?_map]
  refine congrArg _ (List.find?_congr fun a ha => ?_)
  rw [Bool.eq_iff_iff]
  simp only [Function.comp, Binding.rename, beq_iff_eq]
  exact ⟨h a ha b hb, congrArg ρ⟩

/-! ## Stages -/

theorem usageOf_renameResources (stage : Stage) :
    (m.renameResources ρ).usageOf stage = (m.usageOf stage).renameResources ρ := by
  simp only [usageOf, renameResources]
  rw [lookup_map (Usage.renameResources ρ)]
  cases m.usage.lookup stage <;> rfl

theorem structsFor_renameResources (stage : Stage) :
    (m.renameResources ρ).structsFor stage = m.structsFor stage := by
  simp only [structsFor, usageOf_renameResources]
  rfl

theorem functionsFor_renameResources (stage : Stage) :
    (m.renameResources ρ).functionsFor stage =
      (m.functionsFor stage).map (Function.renameResources ρ) := by
  rw [functionsFor, usageOf_renameResources]
  exact List.filter_map ..

/-- A stage reaches the resources that it reached by their old names. -/
theorem resourcesFor_renameResources (h : m.KeptApart ρ) {stage : Stage}
    (hs : ∀ name ∈ (m.usageOf stage).resources, name ∈ m.resources.map (·.name)) :
    (m.renameResources ρ).resourcesFor stage = (m.resourcesFor stage).map (Binding.rename ρ) := by
  rw [resourcesFor, usageOf_renameResources]
  refine (List.filter_map ..).trans (congrArg _ (List.filter_congr fun a ha => ?_))
  rw [Bool.eq_iff_iff]
  simp only [Function.comp, Binding.rename, Usage.renameResources, decide_eq_true_eq,
    List.mem_map]
  constructor
  · rintro ⟨name, hname, heq⟩
    obtain ⟨b, hb, rfl⟩ := List.mem_map.1 (hs name hname)
    exact h b hb a ha heq ▸ hname
  · exact fun hname => ⟨_, hname, rfl⟩

end Model

end Shading
