import Shading.Generation.Backend
import Shading.Proofs.Matrices.Reading
import Shading.Proofs.Result

/-!
# What written expressions stand for

An expression that is written for a target has a text, and the text stands for a value or
for nothing (`Denotes`).  For each form of expression over matrices there is a lemma that
gives what it stands for from what its operands stand for.  The forms are written alike
for all targets, except that HLSL calls `mul` for a product through a matrix, with the
operands swapped (`Denotes.mul`).
-/

namespace Shading.Matrices

open Shading.Core (Expr)

variable {R : Type}

/-! ## Spellings -/

section Spelling

variable {t : Target} {fixup : Option Fixup} {c : Context}

theorem callsMul_eq (ht : t ≠ .hlsl) : (t.language fixup).dialect.callsMul = false := by
  cases t <;> first | rfl | exact absurd rfl ht

theorem ownIntrinsic?_transpose (t : Target) (fixup : Option Fixup) (args : List Operand) :
    (t.language fixup).dialect.ownIntrinsic? .transpose args = none := by
  cases t <;> rfl

theorem typeName_matrix (t : Target) (fixup : Option Fixup) (packing : MatrixOrder) :
    (t.language fixup).dialect.typeName .matrix = .ok (convention t packing).matrixName := by
  cases t <;> rfl

theorem packing_eq (t : Target) (packing : MatrixOrder) :
    (convention t packing).packing = packing := by cases t <;> rfl

theorem matrixName_eq (t : Target) (packing : MatrixOrder) :
    (convention t packing).matrixName = "mat4" ∨
      (convention t packing).matrixName = "float4x4" := by
  cases t <;> simp [convention]

theorem order_eq (ht : t ≠ .hlsl) (packing : MatrixOrder) :
    (convention t packing).order = .columns := by
  cases t <;> first | rfl | exact absurd rfl ht

variable {d : Dialect}

theorem expr_binary {op : BinaryOp} {a b : Expr} {ty : Ty} {l r : String}
    (ha : d.expr c a = .ok l) (hb : d.expr c b = .ok r) :
    d.expr c (.binary op a b ty) = .ok (d.binary op ⟨l, a.ty⟩ ⟨r, b.ty⟩) := by
  rw [Dialect.expr, ha, hb]
  rfl

theorem expr_index {base position : Expr} {ty : Ty} {b p : String} (hb : d.expr c base = .ok b)
    (hp : d.expr c position = .ok p) :
    d.expr c (.index base position ty) = .ok (Shape.index b p).text := by
  rw [Dialect.expr, hb, hp]
  rfl

theorem exists_operands {args : List Expr} {texts : List String}
    (h : List.Forall₂ (fun a text => d.expr c a = .ok text) args texts) :
    ∃ operands, d.operands c args = .ok operands ∧ operands.map (·.text) = texts := by
  induction h with
  | nil => exact ⟨[], rfl, rfl⟩
  | @cons a text args texts ha _ ih =>
    obtain ⟨operands, hoperands, rfl⟩ := ih
    refine ⟨⟨text, a.ty⟩ :: operands, ?_, rfl⟩
    rw [Dialect.operands, ha, hoperands]
    rfl

theorem expr_transpose {a : Expr} {ty : Ty} {text : String}
    (h : (t.language fixup).dialect.expr c a = .ok text) :
    (t.language fixup).dialect.expr c (.intrinsic .transpose [a] ty) =
      .ok (Shape.call "transpose" [text]).text := by
  obtain ⟨operands, hoperands, htexts⟩ := exists_operands (.cons h .nil)
  rw [Dialect.expr, hoperands]
  simp only [bind, Except.bind, Dialect.intrinsic, ownIntrinsic?_transpose,
    Intrinsic.commonName?, callText, htexts]
  rfl

theorem expr_construct {args : List Expr} {texts : List String} (packing : MatrixOrder)
    (h : List.Forall₂ (fun a text => (t.language fixup).dialect.expr c a = .ok text) args texts) :
    (t.language fixup).dialect.expr c (.construct args .matrix) =
      .ok (Shape.call (convention t packing).matrixName texts).text := by
  obtain ⟨operands, hoperands, rfl⟩ := exists_operands h
  rw [Dialect.expr, hoperands, typeName_matrix t fixup packing]
  rfl

theorem binary_text (ht : t ≠ .hlsl) (op : BinaryOp) (l r : Operand) :
    (t.language fixup).dialect.binary op l r = (Shape.operator op l.text r.text).text := by
  rw [Dialect.binary, callsMul_eq ht]
  rfl

theorem binary_text_hlsl (op : BinaryOp) (l r : Operand) :
    (Target.hlsl.language fixup).dialect.binary op l r =
      if isMatrixProduct op l.ty r.ty then (Shape.call "mul" [r.text, l.text]).text
      else (Shape.operator op l.text r.text).text := by
  rw [Dialect.binary, show (Target.hlsl.language fixup).dialect.callsMul = true from rfl,
    Bool.true_and]
  split
  · have hargs : ", ".intercalate [r.text, l.text] = r.text ++ ", " ++ l.text := rfl
    rw [Shape.text, hargs]
    simp [← String.append_assoc]
  · rfl

end Spelling

/-! ## Denotations -/

/-- An expression is written for a target, and its text stands for a value or for nothing. -/
def Denotes [CommRing R] (t : Target) (fixup : Option Fixup) (packing : MatrixOrder)
    (c : Context) (m : Memory R) (e : Expr) (value : Option (Value R)) : Prop :=
  ∃ text, (t.language fixup).dialect.expr c e = .ok text ∧ Closed text ∧
    Means (convention t packing) m text value

section Denotes

variable [CommRing R] {t : Target} {fixup : Option Fixup} {packing : MatrixOrder} {c : Context}
  {m : Memory R} {a b : Expr} {x y : Option (Value R)}

/-- An expression stands for one value at most. -/
theorem Denotes.unique (hx : Denotes t fixup packing c m a x)
    (hy : Denotes t fixup packing c m a y) : x = y := by
  obtain ⟨text, hwritten, -, hx⟩ := hx
  obtain ⟨text', hwritten', -, hy⟩ := hy
  obtain rfl := Except.ok.inj (hwritten.symm.trans hwritten')
  exact Option.ext fun v => (hx v).symm.trans (hy v)

theorem Denotes.leaf {text : String} {d : Data R}
    (hwritten : (t.language fixup).dialect.expr c a = .ok text) (hd : m.data text = some d) :
    Denotes t fixup packing c m a (some (d.load packing)) := by
  refine ⟨text, hwritten, m.closed _ _ hd, ?_⟩
  have h := means_plain (k := convention t packing) hd
  rwa [packing_eq] at h

/-- An operator that is written between its operands. -/
theorem Denotes.operator {op : BinaryOp} (ty : Ty) (hop : op ∈ linearOps)
    (hmul : t = .hlsl → isMatrixProduct op a.ty b.ty = false)
    (ha : Denotes t fixup packing c m a x) (hb : Denotes t fixup packing c m b y) :
    Denotes t fixup packing c m (.binary op a b ty)
      (x.bind fun u => y.bind fun v => (convention t packing).operate op u v) := by
  obtain ⟨l, hl, hclosedl, hx⟩ := ha
  obtain ⟨r, hr, hclosedr, hy⟩ := hb
  have hs : (Shape.operator op l r).Closed := ⟨hop, hclosedl, hclosedr⟩
  refine ⟨_, (expr_binary hl hr).trans (congrArg _ ?_), Shape.closed_text hs,
    means_operator hs hx hy⟩
  by_cases ht : t = .hlsl
  · subst ht
    rw [binary_text_hlsl, if_neg (by simp [hmul rfl])]
  · exact binary_text ht op _ _

/-- A product through a matrix in HLSL. -/
theorem Denotes.mul (ty : Ty) (hmul : isMatrixProduct .mul a.ty b.ty = true)
    (ha : Denotes .hlsl fixup packing c m a x) (hb : Denotes .hlsl fixup packing c m b y) :
    Denotes .hlsl fixup packing c m (.binary .mul a b ty)
      (y.bind fun v => x.bind fun u => v.product u) := by
  obtain ⟨l, hl, hclosedl, hx⟩ := ha
  obtain ⟨r, hr, hclosedr, hy⟩ := hb
  have hs : (Shape.call "mul" [r, l]).Closed :=
    ⟨by simp [functionNames], by simp, by simp [hclosedl, hclosedr]⟩
  have hname : (convention .hlsl packing).matrixName ≠ "mul" := by simp [convention]
  refine ⟨_, (expr_binary hl hr).trans (congrArg _ ?_), Shape.closed_text hs,
    means_mul rfl hname hs hy hx⟩
  rw [binary_text_hlsl, if_pos hmul]

theorem Denotes.transpose (ty : Ty) (ha : Denotes t fixup packing c m a x) :
    Denotes t fixup packing c m (.intrinsic .transpose [a] ty) (x.bind Value.transposed) := by
  obtain ⟨text, hwritten, hclosed, hx⟩ := ha
  have hs : (Shape.call "transpose" [text]).Closed :=
    ⟨by simp [functionNames], by simp, by simp [hclosed]⟩
  have hname : (convention t packing).matrixName ≠ "transpose" := by
    rcases matrixName_eq t packing with h | h <;> simp [h]
  exact ⟨_, expr_transpose hwritten, Shape.closed_text hs, means_transpose hname hs hx⟩

theorem Denotes.index {text : String} {i : ℤ} (ty : Ty)
    (hwritten : (t.language fixup).dialect.expr c b = .ok text) (hi : m.position text = some i)
    (ha : Denotes t fixup packing c m a x) :
    Denotes t fixup packing c m (.index a b ty)
      (x.bind fun u => u.select (convention t packing).order i) := by
  obtain ⟨base, hbase, hclosed, hx⟩ := ha
  have hs : (Shape.index base text).Closed := ⟨hclosed, m.closed_position _ _ hi⟩
  exact ⟨_, expr_index hbase hwritten, Shape.closed_text hs, means_index hs hi hx⟩

theorem Denotes.construct {args : List Expr} {values : List (Option (Value R))}
    (hne : args ≠ []) (h : List.Forall₂ (Denotes t fixup packing c m) args values) :
    Denotes t fixup packing c m (.construct args .matrix)
      ((values.mapM id).bind (Value.construct (convention t packing).order)) := by
  obtain ⟨texts, hwritten, hclosed, hmeans⟩ : ∃ texts : List String,
      List.Forall₂ (fun a text => (t.language fixup).dialect.expr c a = .ok text) args texts ∧
      (∀ text ∈ texts, Closed text) ∧
      List.Forall₂ (Means (convention t packing) m) texts values := by
    clear hne
    induction h with
    | nil => exact ⟨[], .nil, nofun, .nil⟩
    | cons ha _ ih =>
      obtain ⟨text, hwritten, hclosed, hmeans⟩ := ha
      obtain ⟨texts, hrest, hclosedrest, hmeansrest⟩ := ih
      exact ⟨text :: texts, .cons hwritten hrest, List.forall_mem_cons.2 ⟨hclosed, hclosedrest⟩,
        .cons hmeans hmeansrest⟩
  have hs : (Shape.call (convention t packing).matrixName texts).Closed := by
    refine ⟨?_, ?_, hclosed⟩
    · rcases matrixName_eq t packing with h | h <;> simp [h, functionNames]
    · rintro rfl
      cases hwritten
      exact hne rfl
  exact ⟨_, expr_construct packing hwritten, Shape.closed_text hs, means_construct hs hmeans⟩

end Denotes

end Shading.Matrices
