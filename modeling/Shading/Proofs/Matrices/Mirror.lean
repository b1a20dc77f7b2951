import Shading.Proofs.Core.Occurrence
import Shading.Proofs.Matrices.Denotation
import Shading.Proofs.Matrices.Products
import Shading.Proofs.Model.Building
import Shading.Proofs.Text.Lines

/-!
# Products in HLSL

A well-typed expression over matrices, vectors and scalars (`Tree`) is written for HLSL
so that it stands for the mirror image of what it stands for in every other target: the
same scalar, the same vector, the transposed matrix (`mirrored_of_tree`).  What carries
the induction is that each operation is mirrored: sums and scalings as they are written,
products through a matrix because their operands are swapped, indices because rows of the
transpose are columns.

The leaves are mirrored because every source of HLSL packs matrices by rows
(`packing_of_generate`), and no other source does.
-/

namespace Shading.Matrices

open Shading.Core (Expr)

variable {R : Type}

/-! ## Packing -/

/-- The line that has matrices packed by rows. -/
def rowMajor : String := "#pragma pack_matrix(row_major)"

/-- How a source has matrices packed: by columns, unless it starts otherwise. -/
def packing (source : String) : MatrixOrder :=
  if rowMajor.toList <+: source.toList then .rows else .columns

/-- A source starts with the first line of its header. -/
theorem prefix_of_generate {l : Language} {m : Model} {stage : Stage} {source first : String}
    {rest : Code} (h : l.generate m stage = .ok source) (hne : first ≠ "")
    (hheader : l.header ⟨m, stage, none⟩ = .line first :: rest) :
    first.toList <+: source.toList := by
  obtain ⟨code, hcode, rfl⟩ := Language.generate_eq_ok.1 h
  rw [Language.code] at hcode
  split at hcode
  · cases hcode
  · simp only [bind_eq_ok, pure_eq_ok] at hcode
    obtain ⟨structs, -, arrangement, -, rfl⟩ := hcode
    rw [hheader, List.cons_append, List.cons_append, Code.text, Step.text, if_neg hne]
    refine ⟨"\n".toList ++ (Code.text 0 (rest ++ structs ++ arrangement)).toList, ?_⟩
    simp [indentation, Step.depth]

theorem packing_of_prefix {source first : String} (h : first.toList <+: source.toList)
    (hfirst : ¬ rowMajor.toList <+: first.toList) (hrow : ¬ first.toList <+: rowMajor.toList) :
    packing source = .columns :=
  if_neg fun h' => (List.prefix_or_prefix_of_prefix h' h).elim hfirst hrow

/-- Sources of HLSL have matrices packed by rows, all others by columns. -/
theorem packing_of_generate {t : Target} {fixup : Option Fixup} {m : Model} {stage : Stage}
    {source : String} (h : (t.language fixup).generate m stage = .ok source) :
    packing source = if t = .hlsl then .rows else .columns := by
  cases t with
  | hlsl => exact if_pos (prefix_of_generate h (by decide) rfl)
  | glsl330 =>
    exact packing_of_prefix (prefix_of_generate h (by decide) rfl) (by decide) (by decide)
  | glslEs300 =>
    have hversion : "#version 310 es".toList <+: source.toList ∨
        "#version 300 es".toList <+: source.toList := by
      cases stage with
      | compute => exact .inl (prefix_of_generate h (by decide) rfl)
      | vertex => exact .inr (prefix_of_generate h (by decide) rfl)
      | fragment => exact .inr (prefix_of_generate h (by decide) rfl)
    rcases hversion with hsource | hsource <;>
      exact packing_of_prefix hsource (by decide) (by decide)
  | glsl450 =>
    exact packing_of_prefix (prefix_of_generate h (by decide) rfl) (by decide) (by decide)
  | metal =>
    exact packing_of_prefix (prefix_of_generate h (by decide) rfl) (by decide) (by decide)

/-! ## Trees -/

/-- A well-typed expression over matrices, vectors and scalars, in memory that holds the
same numbers for two dialects. -/
inductive Tree (d d' : Dialect) (c : Context) (m m' : Memory R) : Expr → Prop where
  /-- Both sources find the same numbers in memory. -/
  | leaf {e : Expr} {text text' : String} {data : Data R} (written : d.expr c e = .ok text)
      (written' : d'.expr c e = .ok text') (found : m.data text = some data)
      (found' : m'.data text' = some data) (typed : (data.load .columns).HasTy e.ty) :
      Tree d d' c m m' e
  | sum {op : BinaryOp} {a b : Expr} {ty : Ty} (isSum : op = .add ∨ op = .sub)
      (left : Tree d d' c m m' a) (right : Tree d d' c m m' b)
      (typed : SpreadTy a.ty b.ty ty) : Tree d d' c m m' (.binary op a b ty)
  | product {a b : Expr} {ty : Ty} (left : Tree d d' c m m' a) (right : Tree d d' c m m' b)
      (typed : ProductTy a.ty b.ty ty) : Tree d d' c m m' (.binary .mul a b ty)
  | transpose {a : Expr} (operand : Tree d d' c m m' a) (typed : a.ty = .matrix) :
      Tree d d' c m m' (.intrinsic .transpose [a] .matrix)
  /-- Both sources find the same position. -/
  | index {base position : Expr} {ty : Ty} {text text' : String} {i : ℤ}
      (operand : Tree d d' c m m' base) (written : d.expr c position = .ok text)
      (written' : d'.expr c position = .ok text') (found : m.position text = some i)
      (found' : m'.position text' = some i) (typed : ElementTy base.ty ty) :
      Tree d d' c m m' (.index base position ty)
  /-- Sixteen components make a matrix. -/
  | construct {args : List Expr} (operands : ∀ a ∈ args, Tree d d' c m m' a)
      (typed : ∀ a ∈ args, a.ty = .float ∨ a.ty = .float4)
      (components : (args.filterMap (·.ty.components?)).sum = 16) :
      Tree d d' c m m' (.construct args .matrix)

/-- An index in an expression selects beyond the four lines or components. -/
def IndexBeyond (d : Dialect) (c : Context) (m : Memory R) (e : Expr) : Prop :=
  ∃ base position ty text i, (Expr.index base position ty).Within e ∧
    d.expr c position = .ok text ∧ m.position text = some i ∧ ¬ (0 ≤ i ∧ i < 4)

theorem IndexBeyond.mono {d : Dialect} {c : Context} {m : Memory R} {a e : Expr}
    (h : IndexBeyond d c m a) (hwithin : ∀ x : Expr, x.Within a → x.Within e) :
    IndexBeyond d c m e := by
  obtain ⟨base, position, ty, text, i, hin, hrest⟩ := h
  exact ⟨base, position, ty, text, i, hwithin _ hin, hrest⟩

/-! ## Mirror images -/

/-- What an expression stands for in HLSL is the mirror image of what it stands for in
another target. -/
structure Mirrored [CommRing R] (t : Target) (fixup : Option Fixup) (c : Context)
    (m m' : Memory R) (e : Expr) (value : Option (Value R)) : Prop where
  columns : Denotes t fixup .columns c m e value
  rows : Denotes .hlsl fixup .rows c m' e (value.map Value.mirrored)
  typed : ∀ v, value = some v → v.HasTy e.ty
  /-- Only an index can leave an expression without a value. -/
  defined : value = none → IndexBeyond (t.language fixup).dialect c m e

section Mirrored

variable [CommRing R] {t : Target} {fixup : Option Fixup} {c : Context} {m m' : Memory R}
  {a b : Expr} {x y : Option (Value R)} {ty : Ty}

/-- Operands whose types fit have a value together. -/
theorem Mirrored.combine {g : Value R → Value R → Option (Value R)} (op : BinaryOp)
    (ha : Mirrored t fixup c m m' a x) (hb : Mirrored t fixup c m m' b y)
    (hg : ∀ u v, u.HasTy a.ty → v.HasTy b.ty → ∃ z, g u v = some z ∧ z.HasTy ty) :
    (∀ z, (x.bind fun u => y.bind fun v => g u v) = some z → z.HasTy ty) ∧
      ((x.bind fun u => y.bind fun v => g u v) = none →
        IndexBeyond (t.language fixup).dialect c m (.binary op a b ty)) := by
  cases hx : x with
  | none => exact ⟨nofun, fun _ => (ha.defined hx).mono fun _ => .binaryLeft⟩
  | some u =>
    cases hy : y with
    | none => exact ⟨nofun, fun _ => (hb.defined hy).mono fun _ => .binaryRight⟩
    | some v =>
      obtain ⟨z, hz, hty⟩ := hg u v (ha.typed u hx) (hb.typed v hy)
      simp only [Option.bind_some, hz]
      exact ⟨fun w hw => Option.some.inj hw ▸ hty, nofun⟩

/-- A sum is mirrored as it is written. -/
theorem Mirrored.sum {op : BinaryOp} (hop : op = .add ∨ op = .sub)
    (ha : Mirrored t fixup c m m' a x) (hb : Mirrored t fixup c m m' b y)
    (hty : SpreadTy a.ty b.ty ty) : ∃ z, Mirrored t fixup c m m' (.binary op a b ty) z := by
  obtain ⟨f, hf⟩ : ∃ f : R → R → R, ∀ (k : Convention) (u v : Value R),
      k.operate op u v = u.spread f v := by
    rcases hop with rfl | rfl <;> exact ⟨_, fun _ _ _ => rfl⟩
  have hlinear : op ∈ linearOps := by rcases hop with rfl | rfl <;> simp [linearOps]
  have hmul : isMatrixProduct op a.ty b.ty = false := by
    rcases hop with rfl | rfl <;> simp [isMatrixProduct]
  have hcolumns := Denotes.operator ty hlinear (fun _ => hmul) ha.columns hb.columns
  have hrows := Denotes.operator ty hlinear (fun _ => hmul) ha.rows hb.rows
  simp only [hf] at hcolumns hrows
  obtain ⟨htyped, hdefined⟩ := ha.combine op hb fun u v hu hv => hu.spread f hv hty
  rw [Value.bind_mirrored fun u v _ _ => Value.spread_mirrored f u v] at hrows
  exact ⟨_, hcolumns, hrows, htyped, hdefined⟩

/-- A product through a matrix is mirrored with its operands swapped, any other product as
it is written. -/
theorem Mirrored.product (ht : t ≠ .hlsl) (ha : Mirrored t fixup c m m' a x)
    (hb : Mirrored t fixup c m m' b y) (hty : ProductTy a.ty b.ty ty) :
    ∃ z, Mirrored t fixup c m m' (.binary .mul a b ty) z := by
  have hlinear : BinaryOp.mul ∈ linearOps := by simp [linearOps]
  have hcolumns := Denotes.operator ty hlinear (fun h => absurd h ht) ha.columns hb.columns
  simp only [Convention.operate, order_eq ht] at hcolumns
  obtain ⟨htyped, hdefined⟩ := ha.combine .mul hb fun u v hu hv => hu.star hv hty
  refine ⟨_, hcolumns, ?_, htyped, hdefined⟩
  cases hthrough : isMatrixProduct .mul a.ty b.ty with
  | true =>
    have hmirrored : ∀ u v, x = some u → y = some v →
        v.mirrored.product u.mirrored = (Value.star .columns u v).map Value.mirrored := by
      intro u v hu hv
      rw [Value.star_of_isMatrixProduct (ha.typed u hu) (hb.typed v hv) hthrough,
        Value.product_mirrored]
    have hrows := Denotes.mul ty hthrough ha.rows hb.rows
    rwa [Option.bind_comm, Value.bind_mirrored hmirrored] at hrows
  | false =>
    have hmirrored : ∀ u v, x = some u → y = some v →
        u.mirrored.star .rows v.mirrored = (Value.star .columns u v).map Value.mirrored := by
      intro u v hu hv
      rw [Value.star_of_not_isMatrixProduct (ha.typed u hu) (hb.typed v hv) hthrough,
        ← Value.spread_mirrored]
      rfl
    have hrows := Denotes.operator ty hlinear (fun _ => hthrough) ha.rows hb.rows
    rwa [show (convention .hlsl .rows).operate .mul = Value.star (R := R) .rows from rfl,
      Value.bind_mirrored hmirrored] at hrows

theorem Mirrored.transpose (ha : Mirrored t fixup c m m' a x) (hty : a.ty = .matrix) :
    Mirrored t fixup c m m' (.intrinsic .transpose [a] .matrix) (x.bind Value.transposed) where
  columns := ha.columns.transpose _
  rows := by
    have h := ha.rows.transpose .matrix
    cases x <;> simpa [Value.transposed_mirrored] using h
  typed v hv := by
    obtain ⟨u, hu, hv⟩ := Option.bind_eq_some_iff.1 hv
    have := hty ▸ ha.typed u hu
    cases this
    cases hv
    exact .matrix
  defined h := by
    cases hx : x with
    | none => exact (ha.defined hx).mono fun _ => .intrinsicArg (List.mem_singleton_self a)
    | some u =>
      have := hty ▸ ha.typed u hx
      cases this
      rw [hx] at h
      cases h

theorem Mirrored.index (ht : t ≠ .hlsl) {text text' : String} {i : ℤ}
    (ha : Mirrored t fixup c m m' a x)
    (hwritten : (t.language fixup).dialect.expr c b = .ok text)
    (hwritten' : (Target.hlsl.language fixup).dialect.expr c b = .ok text')
    (hi : m.position text = some i) (hi' : m'.position text' = some i)
    (hty : ElementTy a.ty ty) : ∃ z, Mirrored t fixup c m m' (.index a b ty) z := by
  have hcolumns := ha.columns.index ty hwritten hi
  have hrows := ha.rows.index ty hwritten' hi'
  rw [order_eq ht] at hcolumns
  refine ⟨_, hcolumns, ?_, fun v hv => ?_, fun h => ?_⟩
  · cases x with
    | none => exact hrows
    | some u => simpa [convention, Value.select_mirrored] using hrows
  · obtain ⟨u, hu, hv⟩ := Option.bind_eq_some_iff.1 hv
    exact (ha.typed u hu).select hty hv
  · cases hx : x with
    | none => exact (ha.defined hx).mono fun _ => .indexBase
    | some u =>
      rw [hx, Option.bind_some] at h
      exact ⟨a, b, ty, text, i, .self, hwritten, hi, (ha.typed u hx).select_eq_none hty h⟩

/-- A matrix from sixteen components is mirrored as it is written. -/
theorem Mirrored.construct (ht : t ≠ .hlsl) {args : List Expr} {values : List (Option (Value R))}
    (h : List.Forall₂
      (fun a x => Mirrored t fixup c m m' a x ∧ (a.ty = .float ∨ a.ty = .float4)) args values)
    (hcount : (args.filterMap (·.ty.components?)).sum = 16) :
    ∃ z, Mirrored t fixup c m m' (.construct args .matrix) z := by
  have hne : args ≠ [] := by
    rintro rfl
    cases hcount
  have hrows : List.Forall₂ (Denotes .hlsl fixup .rows c m') args
      (values.map (Option.map Value.mirrored)) :=
    List.forall₂_map_right_iff.2 (h.imp fun _ _ h => h.1.rows)
  have hcolumns := Denotes.construct hne (h.imp fun _ _ h => h.1.columns)
  rw [order_eq ht] at hcolumns
  refine ⟨_, hcolumns, ?_, fun v hv => ?_, fun hnone => ?_⟩
  · have hmatrix := Denotes.construct hne hrows
    rw [mapM_id_map] at hmatrix
    cases hvalues : values.mapM id <;>
      simpa [hvalues, convention, Value.construct_mirrored] using hmatrix
  · obtain ⟨parts, -, hv⟩ := Option.bind_eq_some_iff.1 hv
    obtain ⟨matrix, rfl⟩ := Value.exists_of_construct hv
    exact .matrix
  · cases hvalues : values.mapM id with
    | none =>
      obtain ⟨a, ha, hmirrored, -⟩ := forall₂_of_mem_right h (none_mem_of_mapM_id hvalues)
      exact (hmirrored.defined rfl).mono fun _ => .component ha
    | some parts =>
      -- All components are there, so the matrix is.
      obtain rfl := eq_of_mapM_id hvalues
      have htyped : List.Forall₂ (fun ty v => Value.HasTy v ty ∧ (ty = .float ∨ ty = .float4))
          (args.map Expr.ty) parts :=
        List.forall₂_map_left_iff.2 ((List.forall₂_map_right_iff.1 h).imp fun a v h =>
          ⟨h.1.typed v rfl, h.2⟩)
      obtain ⟨numbers, hnumbers, hlength⟩ := Value.exists_components htyped
      rw [List.filterMap_map] at hlength
      obtain ⟨matrix, hmatrix⟩ := Value.exists_construct .columns hnumbers
        (hlength.trans hcount)
      rw [hvalues, Option.bind_some, hmatrix] at hnone
      cases hnone

/-- Every tree has a mirror image in HLSL. -/
theorem exists_mirrored (ht : t ≠ .hlsl) {e : Expr}
    (h : Tree (t.language fixup).dialect (Target.hlsl.language fixup).dialect c m m' e) :
    ∃ value, Mirrored t fixup c m m' e value := by
  induction h with
  | leaf written written' found found' typed =>
    refine ⟨_, .leaf written found, ?_, fun v hv => Option.some.inj hv ▸ typed, nofun⟩
    rw [Option.map_some, ← Value.load_rows]
    exact .leaf written' found'
  | sum isSum _ _ typed ihl ihr =>
    obtain ⟨_, hl⟩ := ihl
    obtain ⟨_, hr⟩ := ihr
    exact hl.sum isSum hr typed
  | product _ _ typed ihl ihr =>
    obtain ⟨_, hl⟩ := ihl
    obtain ⟨_, hr⟩ := ihr
    exact hl.product ht hr typed
  | transpose _ typed ih =>
    obtain ⟨_, ha⟩ := ih
    exact ⟨_, ha.transpose typed⟩
  | index _ written written' found found' typed ih =>
    obtain ⟨_, ha⟩ := ih
    exact ha.index ht written written' found found' typed
  | construct _ typed components ih =>
    obtain ⟨_, hargs⟩ := exists_forall₂ fun a ha =>
      (ih a ha).imp fun _ h => And.intro h (typed a ha)
    exact Mirrored.construct ht hargs components

/-- A well-typed expression over matrices, vectors and scalars stands for the same scalar,
the same vector or the transposed matrix in HLSL. -/
theorem mirrored_of_tree (ht : t ≠ .hlsl) {e : Expr}
    (h : Tree (t.language fixup).dialect (Target.hlsl.language fixup).dialect c m m' e) :
    (∀ source, (t.language fixup).generate c.model c.stage = .ok source →
      packing source = .columns) ∧
    (∀ source, (Target.hlsl.language fixup).generate c.model c.stage = .ok source →
      packing source = .rows) ∧
    ∃ value, Mirrored t fixup c m m' e value ∧
      (e.ty = .float ∨ e.ty = .float4 → value.map Value.mirrored = value) ∧
      (e.ty = .matrix → ∀ v, value = some v → ∃ n : Matrix (Fin 4) (Fin 4) R,
        v = .matrix n ∧ value.map Value.mirrored = some (.matrix n.transpose)) := by
  refine ⟨fun source hsource => ?_, fun source hsource => ?_, ?_⟩
  · rw [packing_of_generate hsource, if_neg ht]
  · rw [packing_of_generate hsource, if_pos rfl]
  · obtain ⟨value, hvalue⟩ := exists_mirrored ht h
    refine ⟨value, hvalue, fun hty => ?_, fun hty v hv => ?_⟩
    · cases value with
      | none => rfl
      | some v => rw [Option.map_some, (hvalue.typed v rfl).mirrored_eq hty]
    · subst hv
      obtain ⟨n, rfl⟩ := (hty ▸ hvalue.typed v rfl).exists_matrix
      exact ⟨n, rfl, rfl⟩

end Mirrored

/-! ## A sample -/

/-- A matrix, a vector and a scalar, and a position to select. -/
def sampleData : List (String × Data ℤ) :=
  [("view", .matrix fun i => i.val), ("input", .vector fun i => i.val + 1), ("scale", .scalar 2)]

/-- What a source of GLSL finds.  The name `input` is taken there. -/
def sampleColumns : Memory ℤ :=
  .ofWords (sampleData.map fun entry => (if entry.1 = "input" then "input_" else entry.1, entry.2))
    [("i", 3)] (by simp [sampleData, IsWord]) (by simp [IsWord])

/-- What a source of HLSL finds. -/
def sampleRows : Memory ℤ :=
  .ofWords sampleData [("i", 3)] (by simp [sampleData, IsWord]) (by simp [IsWord])

/-- A vector through the transpose of a matrix, scaled and indexed. -/
def sampleTree : Expr :=
  .index (.binary .mul (.intrinsic .transpose [.var "view" .matrix] .matrix)
    (.binary .mul (.var "scale" .float) (.var "input" .float4) .float4) .float4)
    (.var "i" .int) .float

theorem tree_sample (c : Context) :
    Tree (Target.glsl450.language none).dialect (Target.hlsl.language none).dialect c
      sampleColumns sampleRows sampleTree := by
  have hview : Tree (Target.glsl450.language none).dialect (Target.hlsl.language none).dialect c
      sampleColumns sampleRows (.var "view" .matrix) := .leaf rfl rfl rfl rfl .matrix
  have hinput : Tree (Target.glsl450.language none).dialect (Target.hlsl.language none).dialect c
      sampleColumns sampleRows (.var "input" .float4) := .leaf rfl rfl rfl rfl .vector
  have hscale : Tree (Target.glsl450.language none).dialect (Target.hlsl.language none).dialect c
      sampleColumns sampleRows (.var "scale" .float) := .leaf rfl rfl rfl rfl .scalar
  have hscaled := Tree.product hscale hinput (.spread (.left .vector))
  exact .index (.product (.transpose hview rfl) hscaled .column) rfl rfl rfl rfl .vector

theorem denotes_sample (c : Context) :
    Denotes .glsl450 none .columns c sampleColumns sampleTree (some (.scalar 280)) := by
  have hview : Denotes .glsl450 none .columns c sampleColumns (.var "view" .matrix) _ :=
    .leaf (d := .matrix fun i => (i.val : ℤ)) rfl rfl
  have hinput : Denotes .glsl450 none .columns c sampleColumns (.var "input" .float4) _ :=
    .leaf (d := .vector fun i => (i.val : ℤ) + 1) rfl rfl
  have hscale : Denotes .glsl450 none .columns c sampleColumns (.var "scale" .float) _ :=
    .leaf (d := .scalar 2) rfl rfl
  have hmul : BinaryOp.mul ∈ linearOps := by simp [linearOps]
  have hscaled := Denotes.operator .float4 hmul (fun h => absurd h (by decide)) hscale hinput
  have hproduct := Denotes.operator .float4 hmul (fun h => absurd h (by decide))
    (hview.transpose .matrix) hscaled
  have hindex := Denotes.index (b := .var "i" .int) .float rfl rfl hproduct
  exact hindex

theorem mirrored_sample :
    ∃ m, Program.sample.build Program.sampleSet = .ok m ∧
      Mirrored .glsl450 none ⟨m, .vertex, none⟩ sampleColumns sampleRows sampleTree
        (some (.scalar 280)) := by
  have hbuild : Program.sample.build Program.sampleSet = .ok _ := rfl
  obtain ⟨-, -, value, hvalue, -⟩ := mirrored_of_tree (by decide) (tree_sample ⟨_, .vertex, none⟩)
  obtain rfl := hvalue.columns.unique (denotes_sample _)
  exact ⟨_, hbuild, hvalue⟩

end Shading.Matrices
