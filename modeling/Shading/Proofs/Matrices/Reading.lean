import Shading.Proofs.Matrices.Shape
import Shading.Proofs.Matrices.Value
import Shading.Target.Basic

/-!
# Reading products

A text stands for a value by what its language says of operators, calls and indices
(`Convention`), and by what memory holds for the texts that are not read apart
(`Memory`).  Text has one shape at most, so it is read in one way only: what the operands
stand for decides what the text stands for (`means_shaped`).
-/

namespace Shading.Matrices

variable {R : Type}

/-! ## Memory -/

theorem isWord_of_lookup {α : Type} {l : List (String × α)} (h : ∀ entry ∈ l, IsWord entry.1)
    {text : String} {x : α} (hx : l.lookup text = some x) : IsWord text := by
  obtain ⟨before, after, rfl, -⟩ := List.lookup_eq_some_iff.1 hx
  exact h (text, x) (by simp)

/-- What a source finds for the texts that are not read apart: variables, fields, numbers
and whatever else an operand can be. -/
structure Memory (R : Type) where
  data : String → Option (Data R)
  /-- The number of the line, component or element that a text selects. -/
  position : String → Option ℤ
  closed : ∀ text d, data text = some d → Closed text
  closed_position : ∀ text i, position text = some i → Closed text
  /-- Texts that have a shape are read apart. -/
  plain : ∀ text d, data text = some d → ∀ s : Shape, s.Closed → s.text ≠ text

/-- Memory in which every text is a word. -/
def Memory.ofWords (data : List (String × Data R)) (positions : List (String × ℤ))
    (hdata : ∀ entry ∈ data, IsWord entry.1) (hpositions : ∀ entry ∈ positions, IsWord entry.1) :
    Memory R where
  data text := data.lookup text
  position text := positions.lookup text
  closed _ _ h := (isWord_of_lookup hdata h).closed
  closed_position _ _ h := (isWord_of_lookup hpositions h).closed
  plain _ _ h s _ := (isWord_of_lookup hdata h).text_ne s

/-! ## Conventions -/

/-- What a language says of matrices. -/
structure Convention where
  /-- What a matrix is made of and indexed by. -/
  order : MatrixOrder
  /-- How matrices are packed in memory. -/
  packing : MatrixOrder
  /-- The name that matrices are constructed by. -/
  matrixName : String

/-- GLSL and Metal have columns first, HLSL has rows first.  How matrices are packed is up
to the source. -/
def convention (t : Target) (packing : MatrixOrder) : Convention :=
  match t with
  | .hlsl => ⟨.rows, packing, "float4x4"⟩
  | .metal => ⟨.columns, packing, "float4x4"⟩
  | .glsl330 | .glslEs300 | .glsl450 => ⟨.columns, packing, "mat4"⟩

/-- What an operator gives. -/
def Convention.operate [CommRing R] (k : Convention) (op : BinaryOp) (x y : Value R) :
    Option (Value R) :=
  match op with
  | .mul => x.star k.order y
  | .add => x.spread (· + ·) y
  | .sub => x.spread (· - ·) y
  | _ => none

/-- What a call gives.  Only HLSL has a function for products. -/
def Convention.call [CommRing R] (k : Convention) (function : String) (args : List (Value R)) :
    Option (Value R) :=
  if function = k.matrixName then Value.construct k.order args
  else if function = "transpose" then
    match args with
    | [x] => x.transposed
    | _ => none
  else if function = "mul" ∧ k.order = .rows then
    match args with
    | [x, y] => x.product y
    | _ => none
  else none

namespace Shape

/-- The operands that stand for values. -/
def operands : Shape → List String
  | .operator _ lhs rhs => [lhs, rhs]
  | .call _ args => args
  | .index base _ => [base]

/-- What a text gives for the values of its operands. -/
def value [CommRing R] (k : Convention) (m : Memory R) : Shape → List (Value R) → Option (Value R)
  | .operator op _ _, [x, y] => k.operate op x y
  | .call function _, args => k.call function args
  | .index _ position, [x] => m.position position >>= x.select k.order
  | _, _ => none

end Shape

/-! ## Reading -/

/-- A text stands for a value. -/
inductive Reads [CommRing R] (k : Convention) (m : Memory R) : String → Value R → Prop where
  | plain {text : String} {d : Data R} (found : m.data text = some d) :
      Reads k m text (d.load k.packing)
  | shaped {s : Shape} {values : List (Value R)} {v : Value R} (closed : s.Closed)
      (operands : List.Forall₂ (Reads k m) s.operands values)
      (value : s.value k m values = some v) : Reads k m s.text v

/-- What a text stands for, if it stands for anything. -/
def Means [CommRing R] (k : Convention) (m : Memory R) (text : String) (o : Option (Value R)) :
    Prop :=
  ∀ v, Reads k m text v ↔ o = some v

section Means

variable [CommRing R] {k : Convention} {m : Memory R}

/-- A text that is not read apart stands for what is in memory. -/
theorem means_plain {text : String} {d : Data R} (h : m.data text = some d) :
    Means k m text (some (d.load k.packing)) := by
  intro v
  constructor
  · intro hread
    cases hread with
    | plain found => rw [Option.some.inj (h.symm.trans found)]
    | shaped closed => exact absurd rfl (m.plain _ d h _ closed)
  · intro hv
    exact Option.some.inj hv ▸ .plain h

/-- A text with a shape is read from its operands. -/
theorem reads_shaped {s : Shape} (hs : s.Closed) {v : Value R} :
    Reads k m s.text v ↔
      ∃ values, List.Forall₂ (Reads k m) s.operands values ∧ s.value k m values = some v := by
  constructor
  · intro h
    generalize htext : s.text = text at h
    cases h with
    | plain found => exact absurd htext (m.plain _ _ found s hs)
    | @shaped s' values _ closed operands value =>
      obtain rfl := Shape.text_injective hs closed htext
      exact ⟨values, operands, value⟩
  · rintro ⟨values, operands, value⟩
    exact .shaped hs operands value

/-- Operands that have meanings are read in one way. -/
theorem forall₂_reads_iff {texts : List String} {meanings : List (Option (Value R))}
    (h : List.Forall₂ (Means k m) texts meanings) {values : List (Value R)} :
    List.Forall₂ (Reads k m) texts values ↔ meanings.mapM id = some values := by
  induction h generalizing values with
  | nil => simp [eq_comm]
  | @cons text meaning texts meanings hmeans _ ih =>
    rw [List.mapM_cons]
    simp only [id, Option.bind_eq_bind, Option.bind_eq_some_iff, Option.pure_def,
      Option.some.injEq]
    constructor
    · rintro (_ | ⟨hread, hrest⟩)
      exact ⟨_, (hmeans _).1 hread, _, ih.1 hrest, rfl⟩
    · rintro ⟨v, hv, rest, hrest, rfl⟩
      exact .cons ((hmeans v).2 hv) (ih.2 hrest)

/-- The meaning of a text with a shape is that of its operands. -/
theorem means_shaped {s : Shape} (hs : s.Closed) {meanings : List (Option (Value R))}
    (h : List.Forall₂ (Means k m) s.operands meanings) :
    Means k m s.text (meanings.mapM id >>= s.value k m) := by
  intro v
  rw [reads_shaped hs, Option.bind_eq_bind, Option.bind_eq_some_iff]
  simp only [forall₂_reads_iff h]

/-! ### The meanings of shapes -/

variable {a b : String} {x y : Option (Value R)}

theorem means_operator {op : BinaryOp} (hs : (Shape.operator op a b).Closed)
    (hx : Means k m a x) (hy : Means k m b y) :
    Means k m (Shape.operator op a b).text (x.bind fun u => y.bind fun v => k.operate op u v) := by
  have h := means_shaped hs (.cons hx (.cons hy .nil))
  cases x <;> cases y <;> exact h

theorem means_mul (hk : k.order = .rows) (hname : k.matrixName ≠ "mul")
    (hs : (Shape.call "mul" [a, b]).Closed) (hx : Means k m a x) (hy : Means k m b y) :
    Means k m (Shape.call "mul" [a, b]).text (x.bind fun u => y.bind fun v => u.product v) := by
  have h := means_shaped hs (.cons hx (.cons hy .nil))
  have hcall : ∀ u v : Value R, k.call "mul" [u, v] = u.product v := by
    simp [Convention.call, hname.symm, hk]
  cases x <;> cases y <;> simpa [Shape.value, hcall] using h

theorem means_transpose (hname : k.matrixName ≠ "transpose")
    (hs : (Shape.call "transpose" [a]).Closed) (hx : Means k m a x) :
    Means k m (Shape.call "transpose" [a]).text (x.bind Value.transposed) := by
  have h := means_shaped hs (.cons hx .nil)
  have hcall : ∀ u : Value R, k.call "transpose" [u] = u.transposed := by
    simp [Convention.call, hname.symm]
  cases x <;> simpa [Shape.value, hcall] using h

theorem means_index {i : ℤ} (hs : (Shape.index a b).Closed) (hi : m.position b = some i)
    (hx : Means k m a x) :
    Means k m (Shape.index a b).text (x.bind fun u => u.select k.order i) := by
  have h := means_shaped hs (.cons hx .nil)
  cases x <;> simpa [Shape.value, hi] using h

theorem means_construct {texts : List String} {meanings : List (Option (Value R))}
    (hs : (Shape.call k.matrixName texts).Closed)
    (h : List.Forall₂ (Means k m) texts meanings) :
    Means k m (Shape.call k.matrixName texts).text
      ((meanings.mapM id).bind (Value.construct k.order)) := by
  have h := means_shaped hs h
  have hcall : k.call k.matrixName = Value.construct (R := R) k.order :=
    funext fun _ => if_pos rfl
  cases hmeanings : meanings.mapM id <;> simpa [Shape.value, hcall, hmeanings] using h

end Means

end Shading.Matrices
