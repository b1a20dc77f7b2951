import Shading.Proofs.Elaboration.Typing
import Shading.Target.Body

/-!
# Every well-typed body is written

A dialect is `Total` when it spells every plain type and every intrinsic with all its
arguments.  Such a dialect writes every body that is well typed and in which each
name of a function or a resource is found in the model (`Stmt.Fits`).  So of the
errors that writing a body has, none is left: the name is found, the `for` header
holds simple statements, the type is no resource, and the intrinsic is given as many
arguments as it takes.
-/

namespace Shading

open Shading.Core (Expr Stmt Case)

/-! ## What a body needs -/

/-- A dialect that spells every plain type and every intrinsic with all its arguments. -/
structure Dialect.Total (p : Program) (d : Dialect) : Prop where
  typeName : ∀ ty : Ty, ty.Plain p → ∃ text, d.typeName ty = .ok text
  parameter : ∀ param : Parameter, param.ty.Plain p → ∃ text, d.parameter param = .ok text
  intrinsic : ∀ (i : Intrinsic) (args : List Operand), args.length = i.arity →
    (d.ownIntrinsic? i args).isSome = true ∨ i.commonName?.isSome = true

/-- What an expression names is found in a model. -/
def Core.Expr.Resolves (m : Model) : Expr → Prop
  | .resource name _ => ∃ b, m.resource? name = some b
  | .call function _ _ => ∃ f, m.function? function = some f
  | _ => True

/-- An expression that a total dialect writes: all that occurs in it is typed and found. -/
def Core.Expr.Fits (p : Program) (m : Model) (e : Expr) : Prop :=
  ∀ x : Expr, x.Within e → x.Typed p ∧ x.ty.WellFormed p ∧ x.Resolves m

/-- A statement that a total dialect writes. -/
def Core.Stmt.Fits (p : Program) (m : Model) (result : Ty) (s : Stmt) : Prop :=
  ∀ t : Stmt, t.Within s → t.Typed p result ∧ ∀ e, t.Holds e → e.Fits p m

section Parts

variable {p : Program} {m : Model} {result : Ty}

theorem Core.Expr.Fits.within {e x : Expr} (h : e.Fits p m) (hx : x.Within e) : x.Fits p m :=
  fun y hy => h y (hy.trans hx)

theorem Core.Expr.Fits.child {e c : Expr} (h : e.Fits p m) (hc : c ∈ e.children) :
    c.Fits p m := fun x hx => h x (.of_child hc hx)

theorem Core.Stmt.Fits.nested {s t : Stmt} {body : List Stmt} (h : s.Fits p m result)
    (hb : body ∈ s.bodies) (ht : t ∈ body) : t.Fits p m result :=
  fun u hu => h u (.of_body hb ht hu)

/-- A step of a loop is a simple statement. -/
theorem Core.Stmt.isSimple_of_isStep {s : Stmt} (h : s.isStep = true) : s.isSimple = true := by
  cases s <;> simp_all [Stmt.isStep, Stmt.isSimple]

/-- The arguments that an intrinsic takes are as many as its arity says. -/
theorem Intrinsic.Accepts.length_eq {i : Intrinsic} {args : List Ty} (h : i.Accepts args) :
    args.length = i.arity := by
  cases h with
  | sample => rfl
  | sampleLevel => rfl
  | load => rfl
  | values _ hl _ => exact hl

/-- What is composed is a vector or a matrix. -/
theorem Ty.Composes.plain {args : List Ty} {ty : Ty} (h : Ty.Composes args ty)
    (hw : ty.WellFormed p) : ty.Plain p := by
  cases h <;> exact hw.plain_of_isResource rfl

theorem Ty.Converts.plain {source ty : Ty} (h : source.Converts ty) (hw : ty.WellFormed p) :
    ty.Plain p := by
  cases h <;> exact hw.plain_of_isResource rfl

end Parts

/-! ## Expressions -/

namespace Dialect

variable {p : Program} {d : Dialect} {c : Context} {result : Ty}

/-- A variable of a plain type is written where its type is. -/
theorem exists_declaration {typeName : Ty → Except Error String}
    (h : ∀ ty : Ty, ty.Plain p → ∃ text, typeName ty = .ok text) {ty : Ty} (hty : ty.Plain p)
    (name : String) : ∃ text, declarationText typeName ty name = .ok text := by
  simp only [declarationText]
  split
  · next element length =>
    cases hty with
    | array helement =>
      obtain ⟨text, ht⟩ := h _ helement
      simp [ht]
  · obtain ⟨text, ht⟩ := h _ hty
    simp [ht]

theorem exists_operands {args : List Expr} (h : ∀ e ∈ args, ∃ text, d.expr c e = .ok text) :
    ∃ ops, d.operands c args = .ok ops ∧ ops.length = args.length := by
  induction args with
  | nil => exact ⟨[], rfl, rfl⟩
  | cons e rest ih =>
    obtain ⟨text, ht⟩ := h e (.head _)
    obtain ⟨ops, hops, hl⟩ := ih fun x hx => h x (.tail _ hx)
    refine ⟨⟨text, e.ty⟩ :: ops, ?_, by simp [hl]⟩
    simp only [operands, bind_eq_ok, pure_eq_ok]
    exact ⟨text, ht, ops, hops, rfl⟩

theorem exists_intrinsic (hd : d.Total p) (symbol : String) {i : Intrinsic} {args : List Operand}
    (hl : args.length = i.arity) : ∃ text, d.intrinsic symbol i args = .ok text := by
  rw [Dialect.intrinsic]
  rcases hd.intrinsic i args hl with h | h
  · obtain ⟨text, ht⟩ := Option.isSome_iff_exists.1 h
    simp [ht]
  · obtain ⟨name, hn⟩ := Option.isSome_iff_exists.1 h
    cases d.ownIntrinsic? i args <;> simp [hn]

/-- A total dialect writes every expression that fits. -/
theorem exists_expr (hd : d.Total p) {e : Expr} (h : e.Fits p c.model) :
    ∃ text, d.expr c e = .ok text := by
  induction e using Expr.induct with
  | h e ih =>
    obtain ⟨htyped, hwf, hresolves⟩ := h e .self
    have hchild : ∀ x ∈ e.children, ∃ text, d.expr c x = .ok text :=
      fun x hx => ih x hx (h.child hx)
    cases e with
    | literal => exact ⟨_, rfl⟩
    | var => exact ⟨_, rfl⟩
    | resource name ty =>
      obtain ⟨b, hb⟩ := hresolves
      simp [expr, hb]
    | field base =>
      obtain ⟨b, hb⟩ := hchild base (by simp [Expr.children])
      simp [expr, hb]
    | swizzle base =>
      obtain ⟨b, hb⟩ := hchild base (by simp [Expr.children])
      simp [expr, hb]
    | index base position =>
      obtain ⟨b, hb⟩ := hchild base (by simp [Expr.children])
      obtain ⟨i, hi⟩ := hchild position (by simp [Expr.children])
      simp [expr, hb, hi]
    | unary op operand =>
      obtain ⟨o, ho⟩ := hchild operand (by simp [Expr.children])
      simp [expr, ho]
    | binary op lhs rhs =>
      obtain ⟨l, hl⟩ := hchild lhs (by simp [Expr.children])
      obtain ⟨r, hr⟩ := hchild rhs (by simp [Expr.children])
      simp [expr, hl, hr]
    | conditional condition yes no =>
      obtain ⟨b, hb⟩ := hchild condition (by simp [Expr.children])
      obtain ⟨y, hy⟩ := hchild yes (by simp [Expr.children])
      obtain ⟨n, hn⟩ := hchild no (by simp [Expr.children])
      simp [expr, hb, hy, hn]
    | call function args =>
      obtain ⟨f, hf⟩ := hresolves
      obtain ⟨ops, hops, -⟩ := exists_operands (c := c) hchild
      simp only [Expr.children] at hops
      simp [expr, hf, hops]
    | intrinsic i args =>
      cases htyped with
      | intrinsic haccepts =>
        obtain ⟨ops, hops, hl⟩ := exists_operands (c := c) hchild
        simp only [Expr.children] at hops hl
        have harity : ops.length = i.arity := by
          rw [hl, ← haccepts.length_eq, List.length_map]
        obtain ⟨text, ht⟩ := exists_intrinsic hd c.symbol harity
        simp [expr, hops, ht]
    | construct args ty =>
      cases htyped with
      | construct hcomposes =>
        obtain ⟨ops, hops, -⟩ := exists_operands (c := c) hchild
        simp only [Expr.children] at hops
        obtain ⟨text, ht⟩ := hd.typeName ty (hcomposes.plain hwf)
        simp [expr, hops, ht]
    | cast operand ty =>
      cases htyped with
      | cast hconverts =>
        obtain ⟨o, ho⟩ := hchild operand (by simp [Expr.children])
        obtain ⟨text, ht⟩ := hd.typeName ty (hconverts.plain hwf)
        simp [expr, cast, ho, ht]

/-! ## Statements -/

/-- A total dialect writes every statement that fits and stands on one line. -/
theorem exists_simple (hd : d.Total p) {s : Stmt} (h : s.Fits p c.model result)
    (hs : s.isSimple = true) : ∃ text, d.simple c s = .ok text := by
  obtain ⟨htyped, hexprs⟩ := h s .self
  cases s with
  | declare name ty init =>
    have hty : ty.Plain p := by cases htyped <;> assumption
    obtain ⟨text, ht⟩ := exists_declaration hd.typeName hty (d.identifier name)
    cases init with
    | none => simp [simple, declaration, ht]
    | some e =>
      obtain ⟨value, hv⟩ := exists_expr hd (hexprs e .init)
      simp [simple, declaration, ht, hv]
  | assign target op value =>
    obtain ⟨t, ht⟩ := exists_expr hd (hexprs target .target)
    obtain ⟨v, hv⟩ := exists_expr hd (hexprs value .value)
    simp [simple, ht, hv]
  | expr e =>
    obtain ⟨text, ht⟩ := exists_expr hd (hexprs e .expr)
    simp [simple, ht]
  | _ => simp [Stmt.isSimple] at hs

theorem exists_stmts {body : List Stmt} (h : ∀ s ∈ body, ∃ code, d.stmt c s = .ok code) :
    ∃ code, d.stmts c body = .ok code := by
  induction body with
  | nil => exact ⟨[], rfl⟩
  | cons s rest ih =>
    obtain ⟨first, hs⟩ := h s (.head _)
    obtain ⟨code, hrest⟩ := ih fun t ht => h t (.tail _ ht)
    simp [stmts, hs, hrest]

theorem exists_cases {cases : List Case} (h : ∀ k ∈ cases, ∃ code, d.stmts c k.body = .ok code) :
    ∃ code, d.cases c cases = .ok code := by
  induction cases with
  | nil => exact ⟨[], by simp [Dialect.cases]⟩
  | cons k rest ih =>
    obtain ⟨labels, body⟩ := k
    obtain ⟨first, hk⟩ := h _ (.head _)
    obtain ⟨code, hrest⟩ := ih fun t ht => h t (.tail _ ht)
    simp only [Case.body] at hk
    simp [Dialect.cases, hk, hrest]

/-- A total dialect writes every statement that fits. -/
theorem exists_stmt (hd : d.Total p) {s : Stmt} (h : s.Fits p c.model result) :
    ∃ code, d.stmt c s = .ok code := by
  induction s using Stmt.induct with
  | h s ih =>
    obtain ⟨htyped, hexprs⟩ := h s .self
    have hbody : ∀ body ∈ s.bodies, ∃ code, d.stmts c body = .ok code := fun body hb =>
      exists_stmts fun t ht => ih body hb t ht (h.nested hb ht)
    cases s with
    | declare =>
      obtain ⟨text, ht⟩ := exists_simple hd h rfl
      simp [stmt, simpleLine, ht]
    | assign =>
      obtain ⟨text, ht⟩ := exists_simple hd h rfl
      simp [stmt, simpleLine, ht]
    | expr =>
      obtain ⟨text, ht⟩ := exists_simple hd h rfl
      simp [stmt, simpleLine, ht]
    | branch condition yes no =>
      obtain ⟨b, hb⟩ := exists_expr hd (hexprs _ .branch)
      obtain ⟨y, hy⟩ := hbody yes (by simp [Stmt.bodies])
      cases no with
      | none => simp [stmt, elseBlock, hb, hy]
      | some no =>
        obtain ⟨n, hn⟩ := hbody no (by simp [Stmt.bodies])
        simp [stmt, elseBlock, hb, hy, hn]
    | forLoop init condition step body =>
      cases htyped with
      | forLoop hinit _ hstep =>
        obtain ⟨b, hb⟩ : ∃ text, d.optionalExpr c condition = .ok text := by
          cases condition with
          | none => exact ⟨_, rfl⟩
          | some e => exact exists_expr hd (hexprs e .forLoop)
        have hmem : init ∈ (Stmt.forLoop init condition step body).bodies ∧
            step ∈ (Stmt.forLoop init condition step body).bodies := by simp [Stmt.bodies]
        obtain ⟨steps, hsteps⟩ : ∃ steps, step.mapM (d.simple c) = .ok steps :=
          exists_mapM_ok fun t ht => exists_simple hd (h.nested hmem.2 ht)
            (Stmt.isSimple_of_isStep (hstep t ht))
        obtain ⟨code, hcode⟩ := hbody body (by simp [Stmt.bodies])
        -- One initializer stands in the header, and several before the loop.
        cases init with
        | nil => simp [stmt, hb, hsteps, hcode]
        | cons first others =>
          cases others with
          | nil =>
            obtain ⟨text, ht⟩ := exists_simple hd (h.nested hmem.1 (.head _)) (hinit _ (.head _))
            simp [stmt, hb, hsteps, hcode, ht]
          | cons second rest =>
            obtain ⟨inits, hinits⟩ := hbody _ hmem.1
            simp only [stmts, bind_eq_ok, pure_eq_ok] at hinits
            obtain ⟨a, ha, _, ⟨b', hb', r, hr, rfl⟩, -⟩ := hinits
            simp [stmt, stmts, hb, hsteps, hcode, ha, hb', hr]
    | whileLoop condition body =>
      obtain ⟨b, hb⟩ := exists_expr hd (hexprs _ .whileLoop)
      obtain ⟨code, hcode⟩ := hbody body (by simp [Stmt.bodies])
      simp [stmt, hb, hcode]
    | doLoop body condition =>
      obtain ⟨b, hb⟩ := exists_expr hd (hexprs _ .doLoop)
      obtain ⟨code, hcode⟩ := hbody body (by simp [Stmt.bodies])
      simp [stmt, hb, hcode]
    | switch selector cases default =>
      obtain ⟨b, hb⟩ := exists_expr hd (hexprs _ .selector)
      obtain ⟨code, hcode⟩ : ∃ code, d.cases c cases = .ok code := exists_cases fun k hk =>
        hbody k.body (List.mem_append_left _ (List.mem_map_of_mem hk))
      cases default with
      | none => simp [stmt, defaultBlock, hb, hcode]
      | some body =>
        obtain ⟨rest, hrest⟩ := hbody body (by simp [Stmt.bodies])
        simp [stmt, defaultBlock, hb, hcode, hrest]
    | ret value =>
      cases value with
      | none => simp [stmt]
      | some e =>
        obtain ⟨text, ht⟩ := exists_expr hd (hexprs e .ret)
        simp [stmt, ht]
    | leave => simp [stmt]
    | next => simp [stmt]
    | block body =>
      obtain ⟨code, hcode⟩ := hbody body (by simp [Stmt.bodies])
      simp [stmt, hcode]

/-! ## Functions -/

/-- A total dialect writes every function with plain types and a body that fits. -/
theorem exists_functionWith (hd : d.Total p) {f : Function}
    (hparams : ∀ param ∈ f.params, param.ty.Plain p) (hresult : f.result.Plain p)
    (hbody : ∀ s ∈ f.body, s.Fits p c.model f.result) (suffix : String) :
    ∃ code, d.functionWith c f suffix = .ok code := by
  obtain ⟨params, hps⟩ := exists_mapM_ok fun param hmem => hd.parameter param (hparams param hmem)
  obtain ⟨text, ht⟩ := hd.typeName _ hresult
  obtain ⟨code, hcode⟩ := exists_stmts fun s hs => exists_stmt (c := c.within f) hd (hbody s hs)
  simp [functionWith, signature, hps, ht, hcode]

end Dialect

end Shading
