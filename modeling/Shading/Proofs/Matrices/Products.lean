import Shading.Proofs.Matrices.Value
import Shading.Target.Dialect

/-!
# Types of products

Types say which operations have values.  Operations by components keep the type of their
larger operand (`SpreadTy`), and products through a matrix have the type of linear algebra
(`ProductTy`).  Whether a product goes through a matrix is read off the types of its
operands, and the types are right about their values: there the product is that of linear
algebra, and everywhere else it goes by components (`star_of_isMatrixProduct`).
-/

namespace Shading.Matrices

variable {R : Type}

/-- Scalars, vectors and matrices of numbers. -/
inductive LinearTy : Ty → Prop where
  | scalar : LinearTy .float
  | vector : LinearTy .float4
  | matrix : LinearTy .matrix

/-- The type of an operation by components.  A scalar meets every component. -/
inductive SpreadTy : Ty → Ty → Ty → Prop where
  | same {ty} (linear : LinearTy ty) : SpreadTy ty ty ty
  | left {ty} (linear : LinearTy ty) : SpreadTy .float ty ty
  | right {ty} (linear : LinearTy ty) : SpreadTy ty .float ty

/-- The type of a product. -/
inductive ProductTy : Ty → Ty → Ty → Prop where
  | spread {a b ty} (h : SpreadTy a b ty) : ProductTy a b ty
  | column : ProductTy .matrix .float4 .float4
  | row : ProductTy .float4 .matrix .float4

/-- The type of what an index selects. -/
inductive ElementTy : Ty → Ty → Prop where
  | matrix : ElementTy .matrix .float4
  | vector : ElementTy .float4 .float
  | array {ty length} : ElementTy (.array ty length) ty
  | buffer {ty access} : ElementTy (.resourceOf .structuredBuffer ty access) ty

namespace Value

variable {x y : Value R} {a b ty : Ty}

/-- Scalars and vectors are their own mirror images. -/
theorem HasTy.mirrored_eq (hx : x.HasTy a) (h : a = .float ∨ a = .float4) : x.mirrored = x := by
  rcases h with rfl | rfl <;> cases hx <;> rfl

theorem HasTy.exists_matrix (hx : x.HasTy .matrix) : ∃ m, x = .matrix m := by
  cases hx
  exact ⟨_, rfl⟩

theorem HasTy.spread (f : R → R → R) (hx : x.HasTy a) (hy : y.HasTy b) (h : SpreadTy a b ty) :
    ∃ z, Value.spread f x y = some z ∧ z.HasTy ty := by
  cases h with
  | same linear => cases linear <;> cases hx <;> cases hy <;> exact ⟨_, rfl, by constructor⟩
  | left linear => cases linear <;> cases hx <;> cases hy <;> exact ⟨_, rfl, by constructor⟩
  | right linear => cases linear <;> cases hx <;> cases hy <;> exact ⟨_, rfl, by constructor⟩

theorem HasTy.star [CommRing R] (hx : x.HasTy a) (hy : y.HasTy b) (h : ProductTy a b ty) :
    ∃ z, Value.star .columns x y = some z ∧ z.HasTy ty := by
  cases h with
  | spread h =>
    cases h with
    | same linear => cases linear <;> cases hx <;> cases hy <;> exact ⟨_, rfl, by constructor⟩
    | left linear => cases linear <;> cases hx <;> cases hy <;> exact ⟨_, rfl, by constructor⟩
    | right linear => cases linear <;> cases hx <;> cases hy <;> exact ⟨_, rfl, by constructor⟩
  | column => cases hx; cases hy; exact ⟨_, rfl, .vector⟩
  | row => cases hx; cases hy; exact ⟨_, rfl, .vector⟩

/-- A product through a matrix is that of linear algebra. -/
theorem star_of_isMatrixProduct [CommRing R] (hx : x.HasTy a) (hy : y.HasTy b)
    (h : isMatrixProduct .mul a b = true) : star .columns x y = product x y := by
  cases hx <;> cases hy <;> first | rfl | cases h

/-- Any other product goes by components. -/
theorem star_of_not_isMatrixProduct [CommRing R] (hx : x.HasTy a) (hy : y.HasTy b)
    (h : isMatrixProduct .mul a b = false) : star .columns x y = spread (· * ·) x y := by
  cases hx <;> cases hy <;> first | rfl | cases h

theorem HasTy.select (hx : x.HasTy a) (h : ElementTy a ty) {order : MatrixOrder} {i : ℤ}
    {z : Value R} (hz : x.select order i = some z) : z.HasTy ty := by
  cases h with
  | matrix =>
    cases hx
    cases i with
    | ofNat n =>
      simp only [Value.select] at hz
      split at hz
      · cases hz; constructor
      · cases hz
    | negSucc n => cases hz
  | vector =>
    cases hx
    cases i with
    | ofNat n =>
      simp only [Value.select] at hz
      split at hz
      · cases hz; constructor
      · cases hz
    | negSucc n => cases hz
  | array =>
    cases hx with
    | array each => cases hz; exact each _
  | buffer =>
    cases hx with
    | buffer each => cases hz; exact each _

/-- Only lines and components can be missing. -/
theorem HasTy.select_eq_none (hx : x.HasTy a) (h : ElementTy a ty) {order : MatrixOrder} {i : ℤ}
    (hz : x.select order i = none) : ¬ (0 ≤ i ∧ i < 4) := by
  rintro ⟨hpos, hlt⟩
  obtain ⟨n, rfl⟩ := Int.eq_ofNat_of_zero_le hpos
  have hn : n < 4 := by omega
  cases h <;> cases hx <;> simp [Value.select, hn] at hz

/-- Scalars and vectors have as many components as their types say. -/
theorem exists_components {tys : List Ty} {values : List (Value R)}
    (h : List.Forall₂ (fun ty v => v.HasTy ty ∧ (ty = .float ∨ ty = .float4)) tys values) :
    ∃ parts, values.mapM components = some parts ∧
      parts.flatten.length = (tys.filterMap Ty.components?).sum := by
  induction h with
  | nil => exact ⟨[], rfl, rfl⟩
  | @cons ty v tys values hfirst _ ih =>
    obtain ⟨parts, hparts, hlength⟩ := ih
    obtain ⟨numbers, hnumbers, hcount⟩ : ∃ numbers, v.components = some numbers ∧
        ty.components? = some numbers.length := by
      obtain ⟨hv, rfl | rfl⟩ := hfirst <;> cases hv
      · exact ⟨_, rfl, rfl⟩
      · exact ⟨_, rfl, by simp [Ty.components?]⟩
    refine ⟨numbers :: parts, ?_, ?_⟩
    · simp [List.mapM_cons, hnumbers, hparts]
    · simp [hlength, hcount]

end Value

end Shading.Matrices
