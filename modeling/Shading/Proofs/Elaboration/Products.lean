import Shading.Proofs.Elaboration.Effects
import Shading.Proofs.Elaboration.Places
import Shading.Proofs.Matrices.Mirror

/-!
# Products that are assigned to their target

Where a target is multiplied by a value and one of the two is a matrix, the product is
written out and assigned: `t *= v` becomes `t = t * v`.  A plain assignment has a value of
the type of its target.  The product is said to have that type, and the types of the two
operands are not compared, so it is accepted for every pairing of types
(`stmt_product`).

Of all pairings three have a product of the type of the target (`Ty.KeepsProduct`): a
matrix may be multiplied by a matrix or a scalar, and a `float4` by a matrix.  In these,
and in no others, every target writes a product that stands for a value of the type it is
assigned to (`exists_denotes_product`).  A matrix that is multiplied by a vector is
assigned a vector (`skewed_product_accepted`).
-/

namespace Shading

open Shading.Core (Expr)

/-! ## Types of products -/

/-- The type of a product through a matrix, if there is one. -/
def Ty.matrixProduct? : Ty → Ty → Option Ty
  | .matrix, .matrix => some .matrix
  | .matrix, .scalar _ => some .matrix
  | .matrix, .vector .float 4 => some .float4
  | .vector .float 4, .matrix => some .float4
  | _, _ => none

/-- A product with a matrix has the type of its left operand. -/
inductive Ty.KeepsProduct : Ty → Ty → Prop where
  | matrix : KeepsProduct .matrix .matrix
  | scale {kind : ScalarKind} : KeepsProduct .matrix (.scalar kind)
  | row : KeepsProduct .float4 .matrix

theorem Ty.matrixProduct?_eq_left_iff {a b : Ty} :
    a.matrixProduct? b = some a ↔ a.KeepsProduct b := by
  constructor
  · intro h
    rw [matrixProduct?.eq_def] at h
    split at h
    · exact .matrix
    · exact .scale
    · cases h
    · exact .row
    · cases h
  · intro h
    cases h <;> rfl

/-! ## Steps of elaborated bodies -/

namespace Scope

variable {s : Scope} {target value : Surface.Expr} {op : AssignOp}

theorem assign_not_mem_evaluate {es : List Surface.Expr} :
    Surface.Step.assign target op value ∉ es.map Surface.Step.evaluate := by
  simp

/-- An assignment of a body is elaborated where it stands. -/
def Places (s : Scope) (target : Surface.Expr) (op : AssignOp) (value : Surface.Expr)
    (code : List Core.Stmt) : Prop :=
  ∃ t : Core.Stmt, s.stmt (.assign target op value) = .ok t ∧ t.OccursIn code

theorem Places.of_body {code : List Core.Stmt} {t : Core.Stmt}
    (h : s.Places target op value code) (hb : code ∈ t.bodies) : s.Places target op value [t] := by
  obtain ⟨u, hu, v, hv, hwithin⟩ := h
  exact ⟨u, hu, t, .head _, .of_body hb hv hwithin⟩

mutual

/-- The assignments of a statement are elaborated within it. -/
theorem places_of_stmt : (a : Surface.Stmt) → {t : Core.Stmt} → s.stmt a = .ok t →
    .assign target op value ∈ a.steps → s.Places target op value [t]
  | .declare _ _ _, _, _, hmem => absurd hmem assign_not_mem_evaluate
  | .assign _ _ _, t, h, hmem => by
    simp only [Surface.Stmt.steps, List.mem_singleton, Surface.Step.assign.injEq] at hmem
    obtain ⟨rfl, rfl, rfl⟩ := hmem
    exact ⟨t, h, t, .head _, .self⟩
  | .expr _, _, _, hmem => by simp [Surface.Stmt.steps] at hmem
  | .branch _ yes no, _, h, hmem => by
    cases elaborated_of_stmt h with
    | branch _ hy hn =>
      simp only [Surface.Stmt.steps, List.mem_cons, reduceCtorEq, false_or, List.mem_append] at hmem
      rcases hmem with hmem | hmem
      · exact (places_of_stmts yes hy hmem).of_body (by simp [Core.Stmt.bodies])
      · obtain ⟨code, rfl, hplaces⟩ := places_of_block no hn hmem
        exact hplaces.of_body (by simp [Core.Stmt.bodies])
  | .forLoop init _ step body, _, h, hmem => by
    cases elaborated_of_stmt h with
    | forLoop hi _ _ ht _ hb =>
      simp only [Surface.Stmt.steps, List.mem_append] at hmem
      rcases hmem with ((hmem | hmem) | hmem) | hmem
      · exact (places_of_stmts init hi hmem).of_body (by simp [Core.Stmt.bodies])
      · exact absurd hmem assign_not_mem_evaluate
      · exact (places_of_stmts step ht hmem).of_body (by simp [Core.Stmt.bodies])
      · exact (places_of_stmts body hb hmem).of_body (by simp [Core.Stmt.bodies])
  | .whileLoop _ body, _, h, hmem => by
    cases elaborated_of_stmt h with
    | whileLoop _ hb =>
      simp only [Surface.Stmt.steps, List.mem_cons, reduceCtorEq, false_or] at hmem
      exact (places_of_stmts body hb hmem).of_body (by simp [Core.Stmt.bodies])
  | .doLoop body _, _, h, hmem => by
    cases elaborated_of_stmt h with
    | doLoop hb _ =>
      simp only [Surface.Stmt.steps, List.mem_append, List.mem_singleton, reduceCtorEq,
        or_false] at hmem
      exact (places_of_stmts body hb hmem).of_body (by simp [Core.Stmt.bodies])
  | .switch _ cases default, _, h, hmem => by
    cases elaborated_of_stmt h with
    | switch _ _ hcs hd =>
      simp only [Surface.Stmt.steps, List.mem_cons, reduceCtorEq, false_or, List.mem_append] at hmem
      rcases hmem with hmem | hmem
      · obtain ⟨k, hk, hplaces⟩ := places_of_cases cases hcs hmem
        exact hplaces.of_body (List.mem_append_left _ (List.mem_map_of_mem hk))
      · obtain ⟨code, rfl, hplaces⟩ := places_of_block default hd hmem
        exact hplaces.of_body (by simp [Core.Stmt.bodies])
  | .ret _, _, _, hmem => absurd hmem assign_not_mem_evaluate
  | .leave, _, _, hmem => nomatch hmem
  | .next, _, _, hmem => nomatch hmem
  | .host _, _, _, hmem => nomatch hmem
  | .block body, _, h, hmem => by
    cases elaborated_of_stmt h with
    | block hb =>
      rw [Surface.Stmt.steps] at hmem
      exact (places_of_stmts body hb hmem).of_body (by simp [Core.Stmt.bodies])

theorem places_of_stmts : (body : List Surface.Stmt) → {code : List Core.Stmt} →
    s.stmts body = .ok code → .assign target op value ∈ Surface.Stmt.stepsAll body →
    s.Places target op value code
  | [], _, _, hmem => nomatch hmem
  | a :: rest, _, h, hmem => by
    simp only [stmts, bind_eq_ok, pure_eq_ok] at h
    obtain ⟨t, ht, code, hcode, rfl⟩ := h
    rw [Surface.Stmt.stepsAll, List.mem_append] at hmem
    rcases hmem with hmem | hmem
    · obtain ⟨u, hu, v, hv, hwithin⟩ := places_of_stmt a ht hmem
      obtain rfl := List.mem_singleton.1 hv
      exact ⟨u, hu, v, .head _, hwithin⟩
    · obtain ⟨u, hu, v, hv, hwithin⟩ := places_of_stmts rest hcode hmem
      exact ⟨u, hu, v, .tail _ hv, hwithin⟩

theorem places_of_block : (body : Option (List Surface.Stmt)) →
    {code : Option (List Core.Stmt)} → s.Block body code →
    .assign target op value ∈ Surface.Stmt.stepsOption body →
    ∃ inner, code = some inner ∧ s.Places target op value inner
  | none, _, _, hmem => nomatch hmem
  | some body, _, .some h, hmem => ⟨_, rfl, places_of_stmts body h hmem⟩

theorem places_of_cases : (cases : List Surface.Case) → {code : List Core.Case} →
    List.Forall₂ s.ElaboratedCase cases code →
    .assign target op value ∈ Surface.Stmt.stepsCases cases →
    ∃ k ∈ code, s.Places target op value k.body
  | [], _, _, hmem => nomatch hmem
  | .mk labels body :: rest, _, .cons (.mk _ hb) hcs, hmem => by
    simp only [Surface.Stmt.stepsCases, List.mem_append] at hmem
    rcases hmem with (hmem | hmem) | hmem
    · exact absurd hmem assign_not_mem_evaluate
    · exact ⟨_, .head _, places_of_stmts body hb hmem⟩
    · obtain ⟨k, hk, hplaces⟩ := places_of_cases rest hcs hmem
      exact ⟨k, .tail _ hk, hplaces⟩

end

/-! ## Products -/

/-- The types of target and value have no part in what is accepted. -/
theorem stmt_assign_mul_eq_ok {t : Core.Stmt} : s.stmt (.assign target .mul value) = .ok t ↔
    ∃ a b, s.Value target a ∧ a.writeFault? = none ∧ s.Value value b ∧ t = assignment a .mul b := by
  have hfault : ∀ a b, Core.assignFault? a .mul b = none := fun _ _ => rfl
  simp only [stmt, bind_eq_ok, pure_eq_ok, value_eq_ok, require_eq_ok, hfault]
  constructor
  · rintro ⟨a, ha, _, hw, b, hb, _, -, rfl⟩
    exact ⟨a, b, ha, hw, hb, rfl⟩
  · rintro ⟨a, b, ha, hw, hb, rfl⟩
    exact ⟨a, ha, (), hw, b, hb, (), trivial, rfl⟩

/-- A product with a matrix is written out, with the type of its left operand. -/
theorem assignment_product {a b : Expr} (h : a.ty.isMatrix = true ∨ b.ty.isMatrix = true) :
    assignment a .mul b = .assign a .assign (.binary .mul a b a.ty) :=
  if_pos (by simpa using h)

end Scope

/-! ## Values of products -/

namespace Matrices

variable {R : Type}

/-- An operation has values of the types of products through a matrix. -/
structure Multiplies (f : Value R → Value R → Option (Value R)) : Prop where
  matrix : ∀ m n, ∃ k, f (.matrix m) (.matrix n) = some (.matrix k)
  scaled : ∀ m r, ∃ k, f (.matrix m) (.scalar r) = some (.matrix k)
  scales : ∀ r n, ∃ k, f (.scalar r) (.matrix n) = some (.matrix k)
  column : ∀ m w, ∃ k, f (.matrix m) (.vector w) = some (.vector k)
  row : ∀ v n, ∃ k, f (.vector v) (.matrix n) = some (.vector k)
  left : ∀ elements n, f (.array elements) (.matrix n) = none
  right : ∀ m elements, f (.matrix m) (.array elements) = none

theorem multiplies_star [CommRing R] : Multiplies (Value.star (R := R) .columns) where
  matrix _ _ := ⟨_, rfl⟩
  scaled _ _ := ⟨_, rfl⟩
  scales _ _ := ⟨_, rfl⟩
  column _ _ := ⟨_, rfl⟩
  row _ _ := ⟨_, rfl⟩
  left _ _ := rfl
  right _ _ := rfl

/-- Swapped operands have a product of the same type. -/
theorem multiplies_swapped [CommRing R] : Multiplies fun x y : Value R => y.product x where
  matrix _ _ := ⟨_, rfl⟩
  scaled _ _ := ⟨_, rfl⟩
  scales _ _ := ⟨_, rfl⟩
  column _ _ := ⟨_, rfl⟩
  row _ _ := ⟨_, rfl⟩
  left _ _ := rfl
  right _ _ := rfl

/-- A product with a matrix has a value of its left operand's type where it keeps the type. -/
theorem Multiplies.hasTy_left_iff {f : Value R → Value R → Option (Value R)} (hf : Multiplies f)
    {x y : Value R} {a b : Ty} (hx : x.HasTy a) (hy : y.HasTy b)
    (h : a.isMatrix = true ∨ b.isMatrix = true) :
    (∃ z, f x y = some z ∧ z.HasTy a) ↔ a.KeepsProduct b := by
  cases hx with
  | @matrix m =>
    cases hy with
    | @matrix n =>
      obtain ⟨k, hk⟩ := hf.matrix m n
      exact ⟨fun _ => .matrix, fun _ => ⟨_, hk, .matrix⟩⟩
    | @scalar r =>
      obtain ⟨k, hk⟩ := hf.scaled m r
      exact ⟨fun _ => .scale, fun _ => ⟨_, hk, .matrix⟩⟩
    | @vector w =>
      obtain ⟨k, hk⟩ := hf.column m w
      refine ⟨?_, nofun⟩
      rintro ⟨z, hz, hty⟩
      cases hk.symm.trans hz
      cases hty
    | array | buffer =>
      refine ⟨?_, nofun⟩
      rintro ⟨z, hz, -⟩
      cases (hf.right _ _).symm.trans hz
  | @scalar r =>
    cases hy with
    | @matrix n =>
      obtain ⟨k, hk⟩ := hf.scales r n
      refine ⟨?_, nofun⟩
      rintro ⟨z, hz, hty⟩
      cases hk.symm.trans hz
      cases hty
    | _ => cases h <;> contradiction
  | @vector v =>
    cases hy with
    | @matrix n =>
      obtain ⟨k, hk⟩ := hf.row v n
      exact ⟨fun _ => .row, fun _ => ⟨_, hk, .vector⟩⟩
    | _ => cases h <;> contradiction
  | array | buffer =>
    cases hy with
    | matrix =>
      refine ⟨?_, nofun⟩
      rintro ⟨z, hz, -⟩
      cases (hf.left _ _).symm.trans hz
    | _ => cases h <;> contradiction

/-- Every target writes a product that stands for a value of its left operand's type where
it keeps the type, and for nothing or a value of another type elsewhere. -/
theorem exists_denotes_product [CommRing R] {t : Target} {fixup : Option Fixup}
    {packing : MatrixOrder} {c : Context} {m : Memory R} {a b : Expr} {x y : Value R}
    (ha : Denotes t fixup packing c m a (some x)) (hb : Denotes t fixup packing c m b (some y))
    (hx : x.HasTy a.ty) (hy : y.HasTy b.ty) (h : a.ty.isMatrix = true ∨ b.ty.isMatrix = true) :
    ∃ value, Denotes t fixup packing c m (.binary .mul a b a.ty) value ∧
      ((∃ z, value = some z ∧ z.HasTy a.ty) ↔ a.ty.KeepsProduct b.ty) := by
  have hlinear : BinaryOp.mul ∈ linearOps := by simp [linearOps]
  by_cases ht : t = .hlsl
  · subst ht
    cases hthrough : isMatrixProduct .mul a.ty b.ty with
    | true =>
      exact ⟨_, Denotes.mul a.ty hthrough ha hb, multiplies_swapped.hasTy_left_iff hx hy h⟩
    | false =>
      refine ⟨_, Denotes.operator a.ty hlinear (fun _ => hthrough) ha hb, ?_⟩
      have hstar : (convention .hlsl packing).operate .mul x y = Value.star .columns x y :=
        (Value.star_of_not_isMatrixProduct hx hy hthrough).symm
      simp only [Option.bind_some, hstar]
      exact multiplies_star.hasTy_left_iff hx hy h
  · refine ⟨_, Denotes.operator a.ty hlinear (fun heq => absurd heq ht) ha hb, ?_⟩
    simp only [Option.bind_some, Convention.operate, order_eq ht]
    exact multiplies_star.hasTy_left_iff hx hy h

end Matrices

/-! ## Programs -/

/-- How a program's products with a matrix are assigned to their targets. -/
structure Program.AssignsProducts (p : Program) : Prop where
  /-- Each is written out where it stands, with the type of the target. -/
  written : ∀ (d : FunctionDecl) (f : Function), p.elaborateFunction d = .ok f →
    ∀ target value, .assign target .mul value ∈ Surface.Stmt.stepsAll d.body → ∃ a b : Expr,
      (Scope.mk p d.name f.result).Value target a ∧ (Scope.mk p d.name f.result).Value value b ∧
      (a.ty.isMatrix = true ∨ b.ty.isMatrix = true →
        (Core.Stmt.assign a .assign (.binary .mul a b a.ty)).OccursIn f.body)
  /-- Every pairing of a target that can be written with a value is accepted. -/
  accepted : ∀ s : Scope, s.program = p → ∀ target value a b, s.Value target a →
    a.writeFault? = none → s.Value value b → a.ty.isMatrix = true ∨ b.ty.isMatrix = true →
    s.stmt (.assign target .mul value) = .ok (.assign a .assign (.binary .mul a b a.ty))
  /-- Every two types that can be written, one of them a matrix, are paired. -/
  paired : ∀ s : Scope, s.program = p → ∀ first second a b, p.Denotes first a →
    p.Denotes second b → a.isMatrix = true ∨ b.isMatrix = true → ∀ x y : String,
    s.stmt (.assign (.var x (some first)) .mul (.var y (some second))) =
      .ok (.assign (.var x a) .assign (.binary .mul (.var x a) (.var y b) a))
  /-- Three pairings have a product of the type of the target. -/
  kept : ∀ a b : Ty, a.matrixProduct? b = some a ↔ a.KeepsProduct b
  /-- Those, and no others, are assigned a value of that type, in every target. -/
  stored : ∀ (R : Type) [CommRing R] (t : Target) (fixup : Option Fixup)
    (packing : Matrices.MatrixOrder) (c : Context) (m : Matrices.Memory R) (a b : Expr)
    (x y : Matrices.Value R), Matrices.Denotes t fixup packing c m a (some x) →
    Matrices.Denotes t fixup packing c m b (some y) → x.HasTy a.ty → y.HasTy b.ty →
    a.ty.isMatrix = true ∨ b.ty.isMatrix = true →
    ∃ value, Matrices.Denotes t fixup packing c m (.binary .mul a b a.ty) value ∧
      ((∃ z, value = some z ∧ z.HasTy a.ty) ↔ a.ty.KeepsProduct b.ty)

namespace Program

theorem assignsProducts (p : Program) : p.AssignsProducts where
  written d f h target value hmem := by
    obtain ⟨params, result, body, -, -, hbody, rfl⟩ := elaborateFunction_eq_ok h
    obtain ⟨t, ht, hoccurs⟩ := Scope.places_of_stmts d.body hbody hmem
    obtain ⟨a, b, ha, -, hb, rfl⟩ := Scope.stmt_assign_mul_eq_ok.1 ht
    exact ⟨a, b, ha, hb, fun hmatrix => Scope.assignment_product hmatrix ▸ hoccurs⟩
  accepted s _ target value a b ha hw hb hmatrix :=
    Scope.stmt_assign_mul_eq_ok.2 ⟨a, b, ha, hw, hb, (Scope.assignment_product hmatrix).symm⟩
  paired s hp first second a b ha hb hmatrix x y :=
    Scope.stmt_assign_mul_eq_ok.2 ⟨.var x a, .var y b, Scope.value_var (hp ▸ ha) x, rfl,
      Scope.value_var (hp ▸ hb) y,
      (Scope.assignment_product (a := .var x a) (b := .var y b) hmatrix).symm⟩
  kept _ _ := Ty.matrixProduct?_eq_left_iff
  stored _ _ _ _ _ _ _ _ _ _ _ ha hb hx hy hmatrix :=
    Matrices.exists_denotes_product ha hb hx hy hmatrix

/-- A program that multiplies a matrix by a vector. -/
def skewed : Program where
  structs := []
  resources := []
  functions := [fragment]
  shaderSets := []
where
  matrix : Surface.TypeExpr := .matrix 4 4
  float4 : Surface.TypeExpr := .vector .float 4
  fragment : FunctionDecl := {
    name := "Demo.FS"
    metadata := ⟨some .fragment, none⟩
    params := []
    result := float4
    body := [
      .declare "m" matrix none,
      .declare "v" float4 none,
      .assign (.var "m" (some matrix)) .mul (.var "v" (some float4)),
      .ret (some (.var "v" (some float4)))] }

/-- The program is accepted.  The matrix is assigned its product with the vector, which is
a vector. -/
theorem skewed_product_accepted : ∃ m f, skewed.build ⟨none, some "Demo.FS", none⟩ = .ok m ∧
    m.function? "Demo.FS" = some f ∧
    (Core.Stmt.assign (.var "m" .matrix) .assign
      (.binary .mul (.var "m" .matrix) (.var "v" .float4) .matrix)).OccursIn f.body ∧
    Ty.matrix.matrixProduct? .float4 = some .float4 ∧
    Hlsl.dialect.simple ⟨m, .fragment, some f⟩ (.assign (.var "m" .matrix) .assign
      (.binary .mul (.var "m" .matrix) (.var "v" .float4) .matrix)) = .ok "m = mul(v, m)" ∧
    Metal.dialect.simple ⟨m, .fragment, some f⟩ (.assign (.var "m" .matrix) .assign
      (.binary .mul (.var "m" .matrix) (.var "v" .float4) .matrix)) = .ok "m = (m * v)" := by
  have h : skewed.build ⟨none, some "Demo.FS", none⟩ = .ok _ := rfl
  exact ⟨_, _, h, rfl, ⟨_, .tail _ (.tail _ (.head _)), .self⟩, rfl, rfl, rfl⟩

end Program

end Shading
