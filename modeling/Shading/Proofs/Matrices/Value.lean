import Mathlib.Data.Matrix.Mul
import Mathlib.Logic.Equiv.Fin.Basic
import Shading.Type

/-!
# Values of products

Expressions over matrices, vectors and scalars have values over any ring of numbers.
A language reads matrices in one of two orders.  The order says which of its lines a
matrix is made of, and which line an index selects: its columns, or its rows.

What has a value in one order has the mirror image of the value in the other: matrices
are transposed, everything else is the same (`Value.mirrored`).  Sums and scalings are
mirrored as they are (`spread_mirrored`), and products through matrices when their
operands are swapped (`product_mirrored`).
-/

namespace Shading.Matrices

open Matrix

/-- The lines of matrices that come first. -/
inductive MatrixOrder where
  | columns
  | rows
deriving DecidableEq, Repr

/-- The matrix with the given numbers, line after line. -/
def MatrixOrder.fill {R : Type} (order : MatrixOrder) (numbers : Fin 16 → R) :
    Matrix (Fin 4) (Fin 4) R :=
  match order with
  | .columns => Matrix.of fun row column => numbers (finProdFinEquiv (column, row))
  | .rows => Matrix.of fun row column => numbers (finProdFinEquiv (row, column))

/-- A line of a matrix. -/
def MatrixOrder.line {R : Type} (order : MatrixOrder) (m : Matrix (Fin 4) (Fin 4) R)
    (i : Fin 4) : Fin 4 → R :=
  match order with
  | .columns => fun row => m row i
  | .rows => m i

/-! ## Values -/

/-- What an expression over matrices, vectors and scalars stands for. -/
inductive Value (R : Type) where
  | scalar (x : R)
  | vector (v : Fin 4 → R)
  | matrix (m : Matrix (Fin 4) (Fin 4) R)
  /-- The elements of an array or a buffer. -/
  | array (elements : ℤ → Value R)

/-- Numbers in memory.  Those of a matrix stand one after the other. -/
inductive Data (R : Type) where
  | scalar (x : R)
  | vector (v : Fin 4 → R)
  | matrix (numbers : Fin 16 → R)
  | array (elements : ℤ → Data R)

/-- The value of numbers in memory, when matrices are packed in an order. -/
def Data.load {R : Type} (packing : MatrixOrder) : Data R → Value R
  | .scalar x => .scalar x
  | .vector v => .vector v
  | .matrix numbers => .matrix (packing.fill numbers)
  | .array elements => .array fun i => (elements i).load packing

/-! ### Lists of values that may be missing -/

section Lists

variable {α β : Type}

theorem mapM_id_map (f : α → β) (l : List (Option α)) :
    (l.map (Option.map f)).mapM id = (l.mapM id).map (List.map f) := by
  induction l with
  | nil => rfl
  | cons o l ih =>
    rw [List.map_cons, List.mapM_cons, List.mapM_cons, ih]
    cases o <;> cases l.mapM id <;> rfl

theorem eq_of_mapM_id {l : List (Option α)} {r : List α} (h : l.mapM id = some r) :
    l = r.map some := by
  induction l generalizing r with
  | nil => cases h; rfl
  | cons o l ih =>
    rw [List.mapM_cons, Option.bind_eq_bind, Option.bind_eq_some_iff] at h
    obtain ⟨x, rfl : o = some x, h⟩ := h
    obtain ⟨rest, hrest, h⟩ := Option.bind_eq_some_iff.1 h
    cases h
    rw [ih hrest, List.map_cons]

theorem none_mem_of_mapM_id {l : List (Option α)} (h : l.mapM id = none) : none ∈ l := by
  induction l with
  | nil => cases h
  | cons o l ih =>
    cases o with
    | none => exact .head _
    | some x =>
      cases hl : l.mapM id with
      | none => exact .tail _ (ih hl)
      | some r => simp [List.mapM_cons, hl] at h

end Lists

namespace Value

variable {R : Type}

/-- The value in the other order. -/
def mirrored : Value R → Value R
  | .scalar x => .scalar x
  | .vector v => .vector v
  | .matrix m => .matrix mᵀ
  | .array elements => .array fun i => (elements i).mirrored

/-- A value belongs to a type. -/
inductive HasTy : Value R → Ty → Prop where
  | scalar {x} : HasTy (.scalar x) .float
  | vector {v} : HasTy (.vector v) .float4
  | matrix {m} : HasTy (.matrix m) .matrix
  | array {elements ty length} (each : ∀ i, HasTy (elements i) ty) :
      HasTy (.array elements) (.array ty length)
  | buffer {elements ty access} (each : ∀ i, HasTy (elements i) ty) :
      HasTy (.array elements) (.resourceOf .structuredBuffer ty access)

/-! ## Operations -/

/-- An operation on numbers, component by component.  A scalar meets every component. -/
def spread (f : R → R → R) : Value R → Value R → Option (Value R)
  | .scalar x, .scalar y => some (.scalar (f x y))
  | .scalar x, .vector w => some (.vector fun i => f x (w i))
  | .vector v, .scalar y => some (.vector fun i => f (v i) y)
  | .vector v, .vector w => some (.vector fun i => f (v i) (w i))
  | .scalar x, .matrix n => some (.matrix (n.map (f x)))
  | .matrix m, .scalar y => some (.matrix (m.map (f · y)))
  | .matrix m, .matrix n => some (.matrix (Matrix.of fun i j => f (m i j) (n i j)))
  | _, _ => none

/-- The product of linear algebra.  A vector is a row on the left and a column on the
right, and a scalar scales. -/
def product [CommRing R] : Value R → Value R → Option (Value R)
  | .matrix m, .matrix n => some (.matrix (m * n))
  | .matrix m, .vector w => some (.vector (m *ᵥ w))
  | .vector v, .matrix n => some (.vector (v ᵥ* n))
  | .vector v, .vector w => some (.scalar (v ⬝ᵥ w))
  | x, y => spread (· * ·) x y

/-- The product that is written as an operator.  With columns first it is that of linear
algebra as soon as a matrix meets a matrix or a vector.  Otherwise, and always with rows
first, it goes by components. -/
def star [CommRing R] (order : MatrixOrder) (x y : Value R) : Option (Value R) :=
  match order, x, y with
  | .columns, .matrix _, .matrix _ | .columns, .matrix _, .vector _
  | .columns, .vector _, .matrix _ => product x y
  | _, _, _ => spread (· * ·) x y

/-- The transpose of a matrix. -/
def transposed : Value R → Option (Value R)
  | .matrix m => some (.matrix mᵀ)
  | _ => none

/-- What an index selects: a line, a component or an element, if there is one. -/
def select (order : MatrixOrder) : Value R → ℤ → Option (Value R)
  | .matrix m, (i : ℕ) => if h : i < 4 then some (.vector (order.line m ⟨i, h⟩)) else none
  | .vector v, (i : ℕ) => if h : i < 4 then some (.scalar (v ⟨i, h⟩)) else none
  | .array elements, i => some (elements i)
  | _, _ => none

/-- The components that a scalar or a vector gives to a constructor. -/
def components : Value R → Option (List R)
  | .scalar x => some [x]
  | .vector v => some (List.ofFn v)
  | _ => none

/-- The matrix with the components of scalars and vectors, line after line. -/
def construct (order : MatrixOrder) (parts : List (Value R)) : Option (Value R) := do
  let numbers := (← parts.mapM components).flatten
  if h : numbers.length = 16 then
    return .matrix (order.fill fun i => numbers[i])
  else none

theorem exists_construct (order : MatrixOrder) {parts : List (Value R)} {numbers : List (List R)}
    (h : parts.mapM components = some numbers) (hlength : numbers.flatten.length = 16) :
    ∃ m, construct order parts = some (.matrix m) := by
  rw [construct, h]
  exact ⟨_, dif_pos hlength⟩

theorem exists_of_construct {order : MatrixOrder} {parts : List (Value R)} {v : Value R}
    (h : construct order parts = some v) : ∃ m, v = .matrix m := by
  simp only [construct, Option.bind_eq_bind, Option.bind_eq_some_iff] at h
  obtain ⟨numbers, -, h⟩ := h
  split at h
  · cases h
    exact ⟨_, rfl⟩
  · cases h

/-! ## Mirror images -/

/-- Packed in the other order, memory holds the mirror image. -/
theorem load_rows (d : Data R) : d.load .rows = (d.load .columns).mirrored := by
  induction d with
  | array elements ih => simp [Data.load, mirrored, ih]
  | _ => rfl

theorem spread_mirrored (f : R → R → R) (x y : Value R) :
    spread f x.mirrored y.mirrored = (spread f x y).map mirrored := by
  cases x <;> cases y <;> rfl

/-- Mirrored operands have the mirrored product the other way around. -/
theorem product_mirrored [CommRing R] (x y : Value R) :
    product y.mirrored x.mirrored = (product x y).map mirrored := by
  cases x <;> cases y <;>
    simp [product, spread, mirrored, transpose_mul, transpose_map, vecMul_transpose,
      mulVec_transpose, mul_comm, dotProduct_comm]

theorem transposed_mirrored (x : Value R) :
    transposed x.mirrored = (transposed x).map mirrored := by
  cases x <;> rfl

/-- Rows of the mirror image are columns. -/
theorem select_mirrored (x : Value R) (i : ℤ) :
    select .rows x.mirrored i = (select .columns x i).map mirrored := by
  cases x <;> cases i <;> simp only [mirrored, select] <;> (try split) <;> rfl

theorem components_mirrored (x : Value R) : x.mirrored.components = x.components := by
  cases x <;> rfl

theorem construct_mirrored (parts : List (Value R)) :
    construct .rows (parts.map mirrored) = (construct .columns parts).map mirrored := by
  have hparts : (parts.map mirrored).mapM components = parts.mapM components := by
    rw [List.mapM_map]
    exact congrArg (parts.mapM ·) (funext components_mirrored)
  rw [construct, construct, hparts]
  cases parts.mapM components with
  | none => rfl
  | some numbers =>
    simp only [Option.bind_eq_bind, Option.bind_some]
    split <;> rfl

/-- What is mirrored for any two values is mirrored for operands that may have none. -/
theorem bind_mirrored {x y : Option (Value R)} {f g : Value R → Value R → Option (Value R)}
    (h : ∀ u v, x = some u → y = some v → g u.mirrored v.mirrored = (f u v).map mirrored) :
    ((x.map mirrored).bind fun u => (y.map mirrored).bind fun v => g u v) =
      (x.bind fun u => y.bind fun v => f u v).map mirrored := by
  cases x with
  | none => rfl
  | some u =>
    cases y with
    | none => rfl
    | some v => simpa using h u v rfl rfl

end Value

end Shading.Matrices
